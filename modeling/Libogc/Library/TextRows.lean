import Mathlib.Data.List.Basic

/-!
# Rows of a text

A text is broken at line ends, and each of its lines is wrapped after a fixed
number of characters. The rows are also what is written character by character:
a full row is followed by another one only when there is a character for it.
-/

set_option autoImplicit false

namespace Libogc.TextRows
open List

variable {α : Type}

/-- A line that fits is one row, also an empty one. -/
def wrapped (width : ℕ) (line : List α) : List (List α) :=
  if width = 0 ∨ line.length ≤ width then [line]
  else line.take width::wrapped width (line.drop width)
termination_by line.length
decreasing_by rw [List.length_drop]; omega

structure Page (α : Type) where
  above : List (List α)
  row : List α

def Page.all (p : Page α) : List (List α) := p.above ++ [p.row]

theorem Page.all_length (p : Page α) : p.all.length = p.above.length+1 := by
  rw [Page.all, length_append, length_singleton]

variable {line text : List α} {lines : List (List α)}

theorem wrapped_short {width : ℕ} (h : line.length ≤ width) : wrapped width line = [line] := by
  rw [wrapped, if_pos (.inr h)]

theorem wrapped_full {width : ℕ} {row : List α} (hw : 1 ≤ width) (hr : row.length = width)
    (hl : line ≠ []) : wrapped width (row ++ line) = row::wrapped width line := by
  have hlen : 0 < line.length := length_pos_iff.mpr hl
  rw [wrapped, if_neg (by rw [length_append]; omega), take_left' hr, drop_left' hr]

variable [DecidableEq α]

def rows (nl : α) (width : ℕ) (text : List α) : List (List α) :=
  (text.splitOn nl).flatMap (wrapped width)

def write (nl : α) (width : ℕ) (p : Page α) (c : α) : Page α :=
  if c = nl then ⟨p.all,[]⟩
  else if p.row.length = width then ⟨p.all,[c]⟩
  else ⟨p.above,p.row ++ [c]⟩

variable {nl : α} {width : ℕ}

theorem write_row_le {p : Page α} (hw : 1 ≤ width) (hp : p.row.length ≤ width) (c : α) :
    (write nl width p c).row.length ≤ width := by
  unfold write
  split
  · exact Nat.zero_le _
  · split
    · exact hw
    · rw [length_append, length_singleton]
      omega

theorem splitOn_nl (text : List α) : (nl::text).splitOn nl = []::text.splitOn nl := by
  rw [splitOn, splitOnP_cons_eq_if_modifyHead, if_pos (by simp), splitOn]

theorem splitOn_other {c : α} (hc : c ≠ nl)
    (h : text.splitOn nl = line::lines) : (c::text).splitOn nl = (c::line)::lines := by
  rw [splitOn] at h
  rw [splitOn, splitOnP_cons_eq_if_modifyHead, if_neg (by simpa using hc), h,
    modifyHead_cons]

theorem exists_splitOn (nl : α) (text : List α) : ∃ line lines, text.splitOn nl = line::lines := by
  induction text with
  | nil => exact ⟨[],[],rfl⟩
  | cons c text ih =>
    obtain ⟨line,lines,h⟩ := ih
    by_cases hc : c = nl
    · exact ⟨[],line::lines,by rw [hc, splitOn_nl, h]⟩
    · exact ⟨c::line,lines,splitOn_other hc h⟩

theorem write_from (hw : 1 ≤ width)
    (h : text.splitOn nl = line::lines) (p : Page α) (hp : p.row.length ≤ width) :
    (text.foldl (write nl width) p).all =
      p.above ++ wrapped width (p.row ++ line) ++ lines.flatMap (wrapped width) := by
  induction text generalizing p line lines with
  | nil =>
    obtain ⟨rfl,rfl⟩ : [] = line ∧ [] = lines := cons.inj h
    simp [Page.all, wrapped_short hp]
  | cons c text ih =>
    obtain ⟨line',lines',h'⟩ := exists_splitOn nl text
    rw [foldl_cons, ih h' _ (write_row_le hw hp c)]
    by_cases hc : c = nl
    · subst hc
      rw [splitOn_nl, h'] at h
      obtain ⟨rfl,rfl⟩ := cons.inj h
      simp [write, Page.all, wrapped_short hp]
    · obtain ⟨rfl,rfl⟩ := cons.inj ((splitOn_other hc h').symm.trans h)
      by_cases hfull : p.row.length = width
      · rw [wrapped_full hw hfull (cons_ne_nil c line')]
        simp [write, hc, hfull, Page.all]
      · simp [write, hc, hfull]

theorem write_rows (hw : 1 ≤ width) (text : List α) :
    (text.foldl (write nl width) ⟨[],[]⟩).all = rows nl width text := by
  obtain ⟨line,lines,h⟩ := exists_splitOn nl text
  rw [write_from hw h ⟨[],[]⟩ (Nat.zero_le _), rows, h]
  rfl

end Libogc.TextRows
