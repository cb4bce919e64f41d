import Mathlib.Data.List.Nodup
import Mathlib.Order.Lattice

/-!
# Lists sorted by a key

A list holds the elements of another one, sorted by a key, with the elements of
one key in the order of the other list.
-/

set_option autoImplicit false

namespace Libogc.StableOrder
open List

variable {α κ : Type} [LinearOrder κ]

structure StablySorted (key : α → κ) (l src : List α) : Prop where
  sorted : l.Pairwise (fun a b => key a ≤ key b)
  stable : ∀ k, l.filter (fun a => decide (key a = k)) = src.filter (fun a => decide (key a = k))

variable {key : α → κ} {us vs l src : List α} {x : α}

theorem stablySorted_nil : StablySorted key [] [] := ⟨List.Pairwise.nil,fun _ => rfl⟩

theorem StablySorted.mem_iff (h : StablySorted key l src) : x ∈ l ↔ x ∈ src := by
  have hx := congrArg (fun m => x ∈ m) (h.stable (key x))
  simpa using hx

theorem StablySorted.congr {key' : α → κ} (h : StablySorted key l src)
    (hk : ∀ a, key' a = key a) : StablySorted key' l src := by
  obtain rfl : key' = key := funext hk
  exact h

theorem StablySorted.behind (h : StablySorted key (us ++ vs) src)
    (hvs : ∀ y, vs.head? = some y → key x < key y) : ∀ y ∈ vs, key x < key y := by
  intro y hy
  cases vs with
  | nil => exact absurd hy not_mem_nil
  | cons v vs =>
    have hv := hvs v rfl
    rcases mem_cons.mp hy with rfl | hy
    · exact hv
    · have hsort := (pairwise_append.mp h.sorted).2.1
      exact lt_of_lt_of_le hv ((pairwise_cons.mp hsort).1 y hy)

theorem StablySorted.insert (h : StablySorted key (us ++ vs) src)
    (hus : ∀ y ∈ us, key y ≤ key x) (hvs : ∀ y, vs.head? = some y → key x < key y) :
    StablySorted key (us ++ x::vs) (src ++ [x]) := by
  have hbehind := h.behind hvs
  obtain ⟨hu,hv,huv⟩ := pairwise_append.mp h.sorted
  refine ⟨?_,?_⟩
  · refine pairwise_append.mpr ⟨hu,pairwise_cons.mpr ⟨fun y hy => le_of_lt (hbehind y hy),hv⟩,?_⟩
    intro a ha b hb
    rcases mem_cons.mp hb with rfl | hb
    · exact hus a ha
    · exact huv a ha b hb
  · intro k
    have hk := h.stable k
    rw [filter_append] at hk
    rw [filter_append, filter_append, ← hk]
    by_cases hx : key x = k
    · have hnone : vs.filter (fun a => decide (key a = k)) = [] := by
        rw [filter_eq_nil_iff]
        intro y hy
        simpa using (hx ▸ (ne_of_gt (hbehind y hy) : key y ≠ key x))
      rw [filter_cons_of_pos (by simpa using hx), hnone]
      simp [hx]
    · rw [filter_cons_of_neg (by simpa using hx)]
      simp [hx]

theorem StablySorted.erase [DecidableEq α] (h : StablySorted key l src) (x : α) :
    StablySorted key (l.erase x) (src.erase x) := by
  refine ⟨h.sorted.sublist erase_sublist,?_⟩
  intro k
  rw [← erase_filter, ← erase_filter, h.stable k]

end Libogc.StableOrder
