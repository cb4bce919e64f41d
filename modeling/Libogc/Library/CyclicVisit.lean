import Mathlib.Data.List.Rotate

/-!
# Going round a list

The next element of a list is the one behind the present one, and behind the
last one it is the first again. As many steps as the list has elements visit
the whole list, rotated to begin behind the start.
-/

set_option autoImplicit false

namespace Libogc.CyclicVisit
open List

theorem rotated_split {α : Type} {l bs : List α} {a : α} (h : (a::bs) ~r l) :
    ∃ xs ys, l = xs ++ a::ys ∧ bs = ys ++ xs := by
  obtain ⟨n,-,hl⟩ := isRotated_iff_mod.mp h
  rw [rotate_eq_drop_append_take_mod] at hl
  cases hk : n % (a::bs).length with
  | zero => exact ⟨[],bs,by rw [← hl, hk]; simp,by simp⟩
  | succ k =>
    refine ⟨bs.drop k,bs.take k,?_,(take_append_drop k bs).symm⟩
    rw [← hl, hk, drop_succ_cons, take_succ_cons]

variable {α : Type} [DecidableEq α]

/-- The elements behind the first occurrence. -/
def behind (l : List α) (a : α) : List α := (l.dropWhile (fun c => decide (c ≠ a))).tail

def cyclicNext (l : List α) (a : α) : Option α := (behind l a ++ l).head?

def visits (next : α → Option α) : ℕ → α → Option (List α)
  | 0, _ => some []
  | n+1, a => (next a).bind (fun b => (visits next n b).map (b::·))

theorem behind_append {xs : List α} (ys : List α) {a : α} (h : a ∉ xs) :
    behind (xs ++ a::ys) a = ys := by
  have hdrop : (xs ++ a::ys).dropWhile (fun c => decide (c ≠ a)) = a::ys := by
    rw [dropWhile_append_of_pos, dropWhile_cons_of_neg (by simp)]
    intro c hc
    exact decide_eq_true (fun he => h (he ▸ hc))
  rw [behind, hdrop, tail_cons]

theorem mem_of_cyclicNext {l : List α} {a b : α} (h : cyclicNext l a = some b) : b ∈ l := by
  rcases mem_append.mp (mem_of_head? h) with hb | hb
  · exact (dropWhile_sublist _).subset (mem_of_mem_tail hb)
  · exact hb

theorem cyclicNext_rotated {l bs : List α} {a : α} (hn : l.Nodup) (h : (a::bs) ~r l) :
    cyclicNext l a = (bs ++ [a]).head? := by
  obtain ⟨xs,ys,rfl,rfl⟩ := rotated_split h
  have hnot : a ∉ xs := fun hm => (nodup_append.mp hn).2.2 a hm a mem_cons_self rfl
  rw [cyclicNext, behind_append _ hnot]
  cases ys with
  | cons y ys => rfl
  | nil =>
    cases xs with
    | cons x xs | nil => rfl

/-- By induction on the steps: the list as seen from the present element. -/
theorem visits_rotated {l : List α} (hn : l.Nodup) (n : ℕ) :
    ∀ {a : α} {bs : List α}, (a::bs) ~r l → n ≤ bs.length+1 →
      visits (cyclicNext l) n a = some ((bs ++ [a]).take n) := by
  induction n with
  | zero =>
    intro a bs _ _
    simp [visits]
  | succ n ih =>
    intro a bs h hle
    obtain ⟨b,rest,hb⟩ : ∃ b rest, bs ++ [a] = b::rest := by
      cases bs with
      | nil => exact ⟨a,[],rfl⟩
      | cons b bs => exact ⟨b,bs ++ [a],rfl⟩
    have hlen := congrArg length hb
    have hrot : (b::rest) ~r l := by
      rw [← hb]
      exact IsRotated.cons_append_singleton.symm.trans h
    rw [visits, cyclicNext_rotated hn h, hb, head?_cons, Option.bind_some,
      ih hrot (by simp at hlen; omega), take_succ_cons, Option.map_some,
      take_append_of_le_length (by simp at hlen; omega)]

/-- One round from an element visits everything behind it, then everything
before it, and comes back to it. -/
theorem visits_round {l : List α} (hn : l.Nodup) {a : α} (ha : a ∈ l) :
    visits (cyclicNext l) l.length a = some (l.rotate (l.idxOf a+1)) := by
  obtain ⟨xs,ys,rfl,hnot⟩ := eq_append_cons_of_mem ha
  have hrot : (a::(ys ++ xs)) ~r (xs ++ a::ys) := by
    rw [← cons_append]
    exact isRotated_append
  rw [visits_rotated hn _ hrot (by simp; omega), take_of_length_le (by simp; omega)]
  have hidx : (xs ++ a::ys).idxOf a = xs.length := by
    rw [idxOf_append_of_notMem hnot, idxOf_cons_self, Nat.add_zero]
  have hsplit : xs ++ a::ys = (xs ++ [a]) ++ ys := by simp
  rw [hidx, hsplit, show xs.length+1 = (xs ++ [a]).length by simp, rotate_append_length_eq]
  simp

end Libogc.CyclicVisit
