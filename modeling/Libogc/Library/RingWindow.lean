import Mathlib.Data.List.Range

/-!
# A window on a ring of slots

A ring of `n` slots is read from a first index on, and an index past the end
goes back by `n` once. The window of a length is the list of the slots from
the first index on. A value written behind a window that does not fill the
ring is appended to it, and a step of the first index drops its head.
-/

set_option autoImplicit false

namespace Libogc.RingWindow
open List Function

variable {α : Type*}

def wrap (n i : ℕ) : ℕ := if n ≤ i then i-n else i

def window (slots : ℕ → α) (n cur len : ℕ) : List α :=
  (List.range len).map (fun i => slots (wrap n (cur+i)))

variable {cur i n : ℕ} (slots : ℕ → α)

theorem wrap_lt (hc : cur < n) (hi : i ≤ n) : wrap n (cur+i) < n := by
  unfold wrap
  split_ifs <;> omega

theorem wrap_ne {j : ℕ} (hi : i < j) (hj : j < n) : wrap n (cur+i) ≠ wrap n (cur+j) := by
  unfold wrap
  split_ifs <;> omega

theorem wrap_succ (hc : cur < n) (hi : i+1 ≤ n) :
    wrap n (wrap n (cur+1)+i) = wrap n (cur+(i+1)) := by
  unfold wrap
  split_ifs <;> omega

@[simp] theorem window_zero (n cur : ℕ) : window slots n cur 0 = [] := rfl

theorem window_push {len : ℕ} (hl : len < n) (x : α) :
    window (Function.update slots (wrap n (cur+len)) x) n cur (len+1) =
      window slots n cur len ++ [x] := by
  rw [window, range_succ, map_append, map_singleton, update_self]
  congr 1
  apply map_congr_left
  intro i hi
  exact update_of_ne (wrap_ne (mem_range.mp hi) hl) x slots

theorem window_pop {len : ℕ} (hc : cur < n) (hl : len+1 ≤ n) :
    window slots n cur (len+1) = slots cur::window slots n (wrap n (cur+1)) len := by
  rw [window, range_succ_eq_map, map_cons, map_map]
  congr 1
  · rw [Nat.add_zero, wrap, if_neg (by omega)]
  · apply map_congr_left
    intro i hi
    have hi' := mem_range.mp hi
    exact congrArg slots (wrap_succ hc (by omega)).symm

end Libogc.RingWindow
