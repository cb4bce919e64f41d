import Mathlib.Data.List.Basic

/-!
# Logs of allocations and releases

A log has the blocks that were allocated and freed in order, and the answer
for which they were kept. A block is named by what identifies it while it is
allocated, so a permutation says that every block was freed as often as it was
allocated.
-/

set_option autoImplicit false

namespace Libogc.ReleaseLog

inductive Event (B : Type) where
  | alloc (b : B)
  | free (b : B)
  | answer
  deriving DecidableEq, Repr

variable {B : Type}

def Event.allocated : Event B → Option B
  | .alloc b => some b
  | .free _ => none
  | .answer => none

def Event.freed : Event B → Option B
  | .alloc _ => none
  | .free b => some b
  | .answer => none

def allocs (l : List (Event B)) : List B := l.filterMap Event.allocated

def frees (l : List (Event B)) : List B := l.filterMap Event.freed

def Released (l : List (Event B)) : Prop := (frees l).Perm (allocs l)

/-- Nothing was freed before the answer and everything after it. -/
def ReleasedAfter (l : List (Event B)) : Prop :=
  ∃ pre post, l = pre ++ .answer::post ∧ frees pre = [] ∧ allocs post = [] ∧
    (frees post).Perm (allocs pre)

variable (bs : List B) (b : B) (l : List (Event B))

@[simp] theorem allocs_nil : allocs ([] : List (Event B)) = [] := rfl

@[simp] theorem frees_nil : frees ([] : List (Event B)) = [] := rfl

@[simp] theorem allocs_append (m : List (Event B)) : allocs (l ++ m) = allocs l ++ allocs m :=
  List.filterMap_append

@[simp] theorem frees_append (m : List (Event B)) : frees (l ++ m) = frees l ++ frees m :=
  List.filterMap_append

@[simp] theorem allocs_alloc : allocs (.alloc b::l) = b::allocs l := rfl

@[simp] theorem allocs_free : allocs (.free b::l) = allocs l := rfl

@[simp] theorem allocs_answer : allocs (.answer::l) = allocs l := rfl

@[simp] theorem frees_alloc : frees (.alloc b::l) = frees l := rfl

@[simp] theorem frees_free : frees (.free b::l) = b::frees l := rfl

@[simp] theorem frees_answer : frees (.answer::l) = frees l := rfl

@[simp] theorem allocs_allocs : allocs (bs.map .alloc) = bs := by
  induction bs with
  | nil => rfl
  | cons b bs ih => exact congrArg (b::·) ih

@[simp] theorem frees_allocs : frees (bs.map .alloc) = [] := by
  induction bs with
  | nil => rfl
  | cons b bs ih => exact ih

@[simp] theorem allocs_frees : allocs (bs.map .free) = [] := by
  induction bs with
  | nil => rfl
  | cons b bs ih => exact ih

@[simp] theorem frees_frees : frees (bs.map .free) = bs := by
  induction bs with
  | nil => rfl
  | cons b bs ih => exact congrArg (b::·) ih

theorem ReleasedAfter.answered {l : List (Event B)} (h : ReleasedAfter l) : Event.answer ∈ l := by
  obtain ⟨pre,post,rfl,-⟩ := h
  simp

end Libogc.ReleaseLog
