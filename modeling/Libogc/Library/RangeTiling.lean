import Mathlib.Data.Nat.Notation

/-!
# Tilings of a range of addresses

A list of pieces, each with an address and a size, covers a range from its
start to its end without gaps.
-/

set_option autoImplicit false

namespace Libogc.RangeTiling
open List

variable {B : Type} {addr size : B → ℕ}

def Tiles (addr size : B → ℕ) : ℕ → List B → ℕ → Prop
  | a, [], z => a = z
  | a, b::bs, z => addr b = a ∧ Tiles addr size (a+size b) bs z

variable {bs : List B} {a z : ℕ}

theorem tiles_append {xs ys : List B} : Tiles addr size a (xs ++ ys) z ↔
    ∃ m, Tiles addr size a xs m ∧ Tiles addr size m ys z := by
  induction xs generalizing a with
  | nil => simp [Tiles]
  | cons b xs ih => simp [Tiles, ih, and_assoc]

section

variable (h : Tiles addr size a bs z)
include h

theorem tiles_le : a ≤ z := by
  induction bs generalizing a with
  | nil => exact Nat.le_of_eq h
  | cons b bs ih =>
    have := ih h.2
    omega

theorem tiles_mem {b : B} (hb : b ∈ bs) : a ≤ addr b ∧ addr b+size b ≤ z := by
  induction bs generalizing a with
  | nil => simp at hb
  | cons c bs ih =>
    have hle := tiles_le h.2
    have hc := h.1
    rcases mem_cons.mp hb with rfl | hb
    · omega
    · have := ih h.2 hb
      omega

theorem tiles_pairwise : bs.Pairwise (fun b c => addr b+size b ≤ addr c) := by
  induction bs generalizing a with
  | nil => exact .nil
  | cons b bs ih =>
    refine .cons ?_ (ih h.2)
    intro c hc
    have hb := h.1
    have := tiles_mem h.2 hc
    omega

theorem tiles_length {k : ℕ} (hk : ∀ b ∈ bs, k ≤ size b) : a+k*bs.length ≤ z := by
  induction bs generalizing a with
  | nil => exact Nat.le_of_eq h
  | cons b bs ih =>
    have hrest := ih h.2 (fun c hc => hk c (mem_cons_of_mem b hc))
    have hb := hk b (mem_cons_self ..)
    rw [length_cons, Nat.mul_succ]
    omega

theorem tiles_unique {z' : ℕ} (h' : Tiles addr size a bs z') : z = z' := by
  induction bs generalizing a with
  | nil => exact h.symm.trans h'
  | cons b bs ih => exact ih h.2 h'.2

end

theorem tiles_replace {m n : ℕ} {xs ms ms' ys : List B} (h : Tiles addr size a (xs ++ ms ++ ys) z)
    (hms : Tiles addr size m ms n) (hne : ms ≠ []) (hms' : Tiles addr size m ms' n) :
    Tiles addr size a (xs ++ ms' ++ ys) z := by
  obtain ⟨n',hxms,hys⟩ := tiles_append.mp h
  obtain ⟨m',hxs,hold⟩ := tiles_append.mp hxms
  cases ms with
  | nil => exact absurd rfl hne
  | cons b ms =>
    have hm : m' = m := hold.1.symm.trans hms.1
    subst hm
    have hn : n' = n := tiles_unique hold hms
    subst hn
    exact tiles_append.mpr ⟨n',tiles_append.mpr ⟨m',hxs,hms'⟩,hys⟩

end Libogc.RangeTiling
