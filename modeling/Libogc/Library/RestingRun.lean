import Mathlib.Data.Nat.Notation

/-!
# Runs until nothing is left to do

A system that has at most one next step is followed until it rests. The state
in which it rests is unique, and runs compose.
-/

set_option autoImplicit false

namespace Libogc.RestingRun
open Option

variable {S : Type*} {next : S → Option S}

def follow (next : S → Option S) : ℕ → S → S
  | 0, s => s
  | n+1, s => (next s).elim s (follow next n)

def Goes (next : S → Option S) (s t : S) : Prop := ∃ n, follow next n s = t

def Rests (next : S → Option S) (s t : S) : Prop := Goes next s t ∧ next t = none

variable {s t u : S}

theorem follow_rest (h : next s = none) (n : ℕ) : follow next n s = s := by
  cases n with
  | zero => rfl
  | succ n => rw [follow, h, elim_none]

theorem follow_add (m n : ℕ) (s : S) : follow next (m+n) s = follow next n (follow next m s) := by
  induction m generalizing s with
  | zero => rw [Nat.zero_add]; rfl
  | succ m ih =>
    rw [Nat.succ_add, follow, follow]
    cases h : next s with
    | none => simp only [elim_none, follow_rest h]
    | some u => simpa only [elim_some] using ih u

theorem goes_refl (s : S) : Goes next s s := ⟨0,rfl⟩

theorem goes_trans (h : Goes next s t) (h' : Goes next t u) : Goes next s u := by
  obtain ⟨m,rfl⟩ := h
  obtain ⟨n,rfl⟩ := h'
  exact ⟨m+n,follow_add m n s⟩

theorem goes_step (h : next s = some t) (h' : Goes next t u) : Goes next s u := by
  obtain ⟨n,rfl⟩ := h'
  exact ⟨n+1,by rw [follow, h, elim_some]⟩

theorem rests_goes (h : Goes next s t) (h' : Rests next t u) : Rests next s u :=
  ⟨goes_trans h h'.1,h'.2⟩

theorem rests_follow {n : ℕ}
    (h : (if (next (follow next n s)).isNone then some (follow next n s) else none) = some t) :
    Rests next s t := by
  split at h
  · rename_i hr
    exact ⟨⟨n,some.inj h⟩,some.inj h ▸ isNone_iff_eq_none.mp hr⟩
  · cases h

theorem rests_unique (h : Rests next s t) (h' : Rests next s u) : t = u := by
  obtain ⟨⟨m,hm⟩,ht⟩ := h
  obtain ⟨⟨n,hn⟩,hu⟩ := h'
  have h1 : follow next (m+n) s = _ := follow_add m n s
  have h2 : follow next (n+m) s = _ := follow_add n m s
  rw [hm, follow_rest ht] at h1
  rw [hn, follow_rest hu, Nat.add_comm] at h2
  exact h1.symm.trans h2

end Libogc.RestingRun
