import Libogc.Library.PrefixInsert

/-!
# Singly linked intrusive lists

The nodes hold the links, and the list is what one meets on the way from the
first node. A link of a node that is not on the way may hold anything. The two
searches follow the links and are given a bound on their steps; the searches
of a list of fewer nodes than the bound end, and what is found within any
bound is right. Linking a node in behind the last node that passes a test is
`insertAfter`, and unlinking a node is `erase`.
-/

set_option autoImplicit false

namespace Libogc.LinkedChain
open List Function PrefixInsert Option

variable {A : Type*}

inductive Chain (next : A → Option A) : Option A → List A → Prop
  | nil : Chain next none []
  | cons {a : A} {l : List A} (h : Chain next (next a) l) : Chain next (some a) (a::l)

structure Links (A : Type*) where
  next : A → Option A
  first : Option A

def Links.Holds (s : Links A) (l : List A) : Prop := Chain s.next s.first l

def lastPassing (next : A → Option A) (test : A → Bool) :
    ℕ → Option A → Option A → Option (Option A)
  | 0, _, _ => none
  | _+1, none, pos => some pos
  | n+1, some cur, pos =>
    if test cur then lastPassing next test n (next cur) (some cur) else some pos

section Links

variable [DecidableEq A]

def previous (next : A → Option A) (t : A) : ℕ → Option A → Option (Option A)
  | 0, _ => none
  | _+1, none => some none
  | n+1, some cur => if next cur = some t then some (some cur) else previous next t n (next cur)

def Links.linkAt (t : A) (s : Links A) : Option A → Links A
  | some pos => { s with
    next := update (update s.next t (s.next pos)) pos (some t) }
  | none => { next := update s.next t s.first, first := some t }

def Links.enqueue (test : A → Bool) (t : A) (n : ℕ) (s : Links A) : Option (Links A) :=
  (lastPassing s.next test n s.first none).map (s.linkAt t)

def Links.unlinkAt (t : A) (s : Links A) : Option A → Links A
  | some prev => { s with next := update s.next prev (s.next t) }
  | none => s

def Links.dequeue (t : A) (n : ℕ) (s : Links A) : Option (Links A) :=
  if s.first = some t then some { s with first := s.next t }
  else (previous s.next t n s.first).map (s.unlinkAt t)

end Links

/-! What a chain determines. -/

variable {t : A} {l₁ l₂ : List A}

section Chain

variable {next next' : A → Option A} {first : Option A} {l : List A}

theorem Chain.first_eq (h : Chain next first l) : first = l.head? := by
  cases h <;> rfl

theorem Chain.tail {a : A} (h : Chain next first (a::l)) : Chain next (next a) l := by
  cases h with
  | cons h => exact h

theorem Chain.congr (h : Chain next first l) (hn : ∀ a ∈ l, next' a = next a) :
    Chain next' first l := by
  induction h with
  | nil => exact .nil
  | @cons a l h ih =>
    refine .cons ?_
    rw [hn a mem_cons_self]
    exact ih (fun b hb => hn b (mem_cons_of_mem a hb))

theorem Chain.unique {l' : List A} (h : Chain next first l) (h' : Chain next first l') :
    l = l' := by
  induction h generalizing l' with
  | nil =>
    cases h'
    rfl
  | @cons a l h ih =>
    cases h' with
    | cons h' => rw [ih h']

theorem Chain.suffix {a : A} (h : Chain next first (l₁ ++ a::l₂)) :
    Chain next (some a) (a::l₂) := by
  induction l₁ generalizing first with
  | nil =>
    cases h with
    | cons h => exact .cons h
  | cons b l₁ ih => exact ih h.tail

theorem Chain.nodup (h : Chain next first l) : l.Nodup := by
  induction h with
  | nil => exact nodup_nil
  | @cons a l h ih =>
    refine nodup_cons.mpr ⟨fun ha => ?_,ih⟩
    obtain ⟨l₁,l₂,rfl⟩ := append_of_mem ha
    have hl := congrArg List.length (h.suffix.unique (.cons h))
    simp only [length_cons, length_append] at hl
    omega

variable [DecidableEq A]

theorem Chain.insert {p : A} (h : Chain next first (l₁ ++ p::l₂)) (hl : (l₁ ++ p::l₂).Nodup)
    (ht : t ∉ l₁ ++ p::l₂) : Chain (update (update next t (next p)) p (some t)) first
      (l₁ ++ p::t::l₂) := by
  induction l₁ generalizing first with
  | nil =>
    cases h with
    | cons h =>
      obtain ⟨hp,-⟩ := nodup_cons.mp hl
      have htp : t ≠ p := fun he => ht (by simp [he])
      refine .cons ?_
      rw [update_self]
      refine .cons ?_
      rw [update_of_ne htp, update_self]
      apply h.congr
      intro b hb
      have hbp : b ≠ p := fun he => hp (he ▸ hb)
      have hbt : b ≠ t := fun he => ht (by simp [← he, hb])
      rw [update_of_ne hbp, update_of_ne hbt]
  | cons a l₁ ih =>
    cases h with
    | cons h =>
      obtain ⟨ha,hl'⟩ := nodup_cons.mp hl
      have hap : a ≠ p := fun he => ha (by simp [he])
      have hat : a ≠ t := fun he => ht (by simp [he])
      refine .cons ?_
      rw [update_of_ne hap, update_of_ne hat]
      exact ih h hl' (fun hm => ht (mem_cons_of_mem a hm))

theorem Chain.remove {p : A} (h : Chain next first (l₁ ++ p::t::l₂)) (hl : (l₁ ++ p::t::l₂).Nodup) :
    Chain (update next p (next t)) first (l₁ ++ p::l₂) := by
  induction l₁ generalizing first with
  | nil =>
    obtain ⟨hp,-⟩ := nodup_cons.mp hl
    cases h with
    | @cons _ _ h =>
      rcases hnp : next p with _ | b
      · rw [hnp] at h
        cases h
      · rw [hnp] at h
        cases h with
        | cons h =>
          refine .cons ?_
          rw [update_self]
          apply h.congr
          intro b hb
          have hbp : b ≠ p := fun he => hp (by simp [← he, hb])
          rw [update_of_ne hbp]
  | cons a l₁ ih =>
    cases h with
    | cons h =>
      obtain ⟨ha,hl'⟩ := nodup_cons.mp hl
      have hap : a ≠ p := fun he => ha (by simp [he])
      refine .cons ?_
      rw [update_of_ne hap]
      exact ih h hl'

end Chain

/-! The searches. -/

section Search

variable {next : A → Option A} {first pos r : Option A} {l : List A} {n : ℕ}

theorem lastPassing_spec {test : A → Bool} (h : Chain next first l)
    (hr : lastPassing next test n first pos = some r) : r = pos ∧ l.takeWhile test = [] ∨
      ∃ l₁ p, r = some p ∧ l.takeWhile test = l₁ ++ [p] := by
  induction h generalizing n pos with
  | nil =>
    cases n with
    | zero => simp [lastPassing] at hr
    | succ n => exact Or.inl ⟨(some.inj hr).symm,rfl⟩
  | @cons a l _ ih =>
    cases n with
    | zero => simp [lastPassing] at hr
    | succ n =>
      rw [lastPassing] at hr
      split at hr
      · rename_i ha
        rw [takeWhile_cons_of_pos ha]
        right
        rcases ih hr with ⟨hp,hnil⟩ | ⟨l₁,p,hp,hl⟩
        · exact ⟨[],a,hp,by rw [hnil]; rfl⟩
        · exact ⟨a::l₁,p,hp,by rw [hl]; rfl⟩
      · rename_i ha
        rw [takeWhile_cons_of_neg ha]
        exact Or.inl ⟨(some.inj hr).symm,rfl⟩

theorem lastPassing_returns (test : A → Bool) (pos : Option A) (h : Chain next first l)
    (hn : l.length < n) : ∃ r, lastPassing next test n first pos = some r := by
  induction h generalizing n pos with
  | nil =>
    cases n with
    | zero => omega
    | succ n => exact ⟨pos,rfl⟩
  | @cons a l _ ih =>
    cases n with
    | zero => omega
    | succ n =>
      rw [lastPassing]
      split
      · exact ih (some a) (by simpa using hn)
      · exact ⟨pos,rfl⟩

variable [DecidableEq A]

theorem previous_spec (h : Chain next first l) (ht : first ≠ some t)
    (hr : previous next t n first = some r) :
    r = none ∧ t ∉ l ∨ ∃ l₁ p l₂, r = some p ∧ l = l₁ ++ p::t::l₂ := by
  induction h generalizing n with
  | nil =>
    cases n with
    | zero => simp [previous] at hr
    | succ n => exact Or.inl ⟨(some.inj hr).symm,by simp⟩
  | @cons a l hc ih =>
    cases n with
    | zero => simp [previous] at hr
    | succ n =>
      have hta : t ≠ a := fun he => ht (by rw [he])
      rw [previous] at hr
      split at hr
      · rename_i hat
        rw [hat] at hc
        cases hc with
        | @cons _ l₂ _ => exact Or.inr ⟨[],a,l₂,(some.inj hr).symm,rfl⟩
      · rename_i hat
        rcases ih hat hr with ⟨hnone,hm⟩ | ⟨l₁,p,l₂,hp,hl⟩
        · exact Or.inl ⟨hnone,by simp [hta, hm]⟩
        · exact Or.inr ⟨a::l₁,p,l₂,hp,by rw [hl]; rfl⟩

theorem previous_returns (h : Chain next first l) (hn : l.length < n) :
    ∃ r, previous next t n first = some r := by
  induction h generalizing n with
  | nil =>
    cases n with
    | zero => omega
    | succ n => exact ⟨none,rfl⟩
  | @cons a l _ ih =>
    cases n with
    | zero => omega
    | succ n =>
      rw [previous]
      split
      · exact ⟨some a,rfl⟩
      · exact ih (by simpa using hn)

end Search

/-! The operations. -/

section Operations

variable [DecidableEq A] {s s' : Links A} {l : List A} {t : A} {n : ℕ}

theorem linkAt_first (h : s.Holds l) (ht : t ∉ l) : (s.linkAt t none).Holds (t::l) := by
  refine .cons ?_
  change Chain (update s.next t s.first) (update s.next t s.first t) l
  rw [update_self]
  apply Chain.congr h
  intro b hb
  have hbt : b ≠ t := fun he => ht (he ▸ hb)
  rw [update_of_ne hbt]

theorem enqueue_holds {test : A → Bool} (h : s.Holds l) (hl : l.Nodup) (ht : t ∉ l)
    (hs : s.enqueue test t n = some s') : s'.Holds (insertAfter test t l) := by
  obtain ⟨r,hr,rfl⟩ := map_eq_some_iff.mp hs
  have hsplit := takeWhile_append_dropWhile (p := test) (l := l)
  rcases lastPassing_spec h hr with ⟨rfl,hnil⟩ | ⟨l₁,p,rfl,htake⟩
  · rw [hnil, nil_append] at hsplit
    rw [insertAfter, hnil, hsplit]
    exact linkAt_first h ht
  · rw [htake, append_assoc] at hsplit
    rw [insertAfter, htake, append_assoc]
    rw [← hsplit] at hl ht
    exact Chain.insert (by rwa [← hsplit] at h) hl ht

theorem enqueue_returns (test : A → Bool) (t : A) (h : s.Holds l) (hn : l.length < n) :
    ∃ s', s.enqueue test t n = some s' := by
  obtain ⟨r,hr⟩ := lastPassing_returns test none h hn
  exact ⟨_,by rw [Links.enqueue, hr]; rfl⟩

theorem dequeue_holds (h : s.Holds l) (hl : l.Nodup) (hs : s.dequeue t n = some s') :
    s'.Holds (l.erase t) := by
  unfold Links.dequeue at hs
  split at hs
  · rename_i hf
    cases hs
    unfold Links.Holds at h
    rw [hf] at h
    cases h with
    | cons h =>
      rw [erase_cons_head]
      exact h
  · rename_i hf
    obtain ⟨r,hr,rfl⟩ := map_eq_some_iff.mp hs
    rcases previous_spec h hf hr with ⟨rfl,ht⟩ | ⟨l₁,p,l₂,rfl,rfl⟩
    · rw [erase_of_not_mem ht]
      exact h
    · have hrem := Chain.remove h hl
      have htl : t ∉ l₁ ++ [p] := by
        have hl' : ((l₁ ++ [p]) ++ t::l₂).Nodup := by simpa using hl
        intro hm
        exact (nodup_append.mp hl').2.2 t hm t mem_cons_self rfl
      rw [show l₁ ++ p::t::l₂ = (l₁ ++ [p]) ++ t::l₂ by simp, erase_append_right _ htl,
        erase_cons_head, append_assoc]
      exact hrem

theorem dequeue_returns (t : A) (h : s.Holds l) (hn : l.length < n) :
    ∃ s', s.dequeue t n = some s' := by
  unfold Links.dequeue
  split
  · exact ⟨_,rfl⟩
  · obtain ⟨r,hr⟩ := previous_returns h hn
    exact ⟨_,by rw [hr]; rfl⟩

end Operations

end Libogc.LinkedChain
