import Mathlib.Data.List.TakeWhile
import Mathlib.Data.List.Nodup

/-!
# Insertion behind a prefix

An intrusive list that is kept in order is searched from its head for as long
as a test succeeds, and the new node is linked in at the point where the
search stopped. The operation is one list function with the test as its
parameter; the order that it keeps is a consequence of how the test relates
to that order and is not built into the function.
-/

set_option autoImplicit false

namespace Libogc.PrefixInsert
open List

variable {α : Type*}

def insertAfter (keep : α → Bool) (t : α) (l : List α) : List α :=
  l.takeWhile keep ++ t :: l.dropWhile keep

variable {l : List α} (keep : α → Bool) (t : α)

theorem insertAfter_perm (l : List α) : (insertAfter keep t l).Perm (t :: l) := by
  have h : (l.takeWhile keep ++ t :: l.dropWhile keep).Perm
      (t :: (l.takeWhile keep ++ l.dropWhile keep)) := perm_middle
  simpa only [insertAfter, takeWhile_append_dropWhile] using h

@[simp] theorem mem_insertAfter (u : α) (l : List α) :
    u ∈ insertAfter keep t l ↔ u = t ∨ u ∈ l := by
  rw [(insertAfter_perm keep t l).mem_iff, mem_cons]

theorem insertAfter_nodup (l : List α) (ht : t ∉ l) (hl : l.Nodup) : (insertAfter keep t l).Nodup :=
  (insertAfter_perm keep t l).nodup_iff.mpr (nodup_cons.mpr ⟨ht,hl⟩)

/-- The list stays in the order `R` when what the search passes may precede
the new element and what it leaves may follow it. -/
theorem insertAfter_pairwise {R : α → α → Prop} {keep : α → Bool} {t : α} (hl : l.Pairwise R)
    (hpass : ∀ a ∈ l, keep a = true → R a t) (hleave : ∀ a ∈ l.dropWhile keep, R t a) :
    (insertAfter keep t l).Pairwise R := by
  rw [← takeWhile_append_dropWhile (l := l)] at hl
  obtain ⟨htake,hdrop,hcross⟩ := pairwise_append.mp hl
  refine pairwise_append.mpr ⟨htake,pairwise_cons.mpr ⟨hleave,hdrop⟩,?_⟩
  intro a ha b hb
  rcases mem_cons.mp hb with rfl | hb
  · exact hpass a ((takeWhile_sublist keep).subset ha) (mem_takeWhile_imp ha)
  · exact hcross a ha b hb

theorem left_of_stop {R : α → α → Prop} {P : α → Prop} {keep : α → Bool} (hl : l.Pairwise R)
    (hstop : ∀ a ∈ l, keep a = false → P a) (hup : ∀ a b, P a → R a b → P b) :
    ∀ a ∈ l.dropWhile keep, P a := by
  induction l with
  | nil => simp
  | cons b l ih =>
    obtain ⟨hbl,hl'⟩ := pairwise_cons.mp hl
    cases hb : keep b with
    | true =>
      rw [dropWhile_cons_of_pos hb]
      exact ih hl' (fun a ha => hstop a (by simp [ha]))
    | false =>
      have hpb := hstop b (by simp) hb
      rw [dropWhile_cons_of_neg (by simp [hb])]
      intro a ha
      rcases mem_cons.mp ha with rfl | ha
      · exact hpb
      · exact hup b a hpb (hbl a ha)

/-- A key order is the case in which the search passes elements whose key is
not larger than the new one and stops at one whose key is not smaller. -/
theorem insertAfter_sorted {κ : Type*} [Preorder κ] (key : α → κ) {keep : α → Bool} {t : α}
    (hpass : ∀ a ∈ l, keep a = true → key a ≤ key t)
    (hstop : ∀ a ∈ l, keep a = false → key t ≤ key a) (hl : l.Pairwise (fun a b => key a ≤ key b)) :
    (insertAfter keep t l).Pairwise (fun a b => key a ≤ key b) :=
  insertAfter_pairwise hl hpass (left_of_stop hl hstop (fun _ _ => le_trans))

theorem pairwise_find {R : α → α → Prop} (hr : ∀ a, R a a) (hl : l.Pairwise R) {p : α → Bool}
    {a b : α} (ha : l.find? p = some a) (hb : b ∈ l) (hp : p b = true) : R a b := by
  obtain ⟨_,as,bs,rfl,has⟩ := List.find?_eq_some_iff_append.mp ha
  rcases mem_append.mp hb with hb | hb
  · have := has b hb
    simp [hp] at this
  · rcases mem_cons.mp hb with rfl | hb
    · exact hr b
    · exact (pairwise_cons.mp (pairwise_append.mp hl).2.1).1 b hb

end Libogc.PrefixInsert
