import Libogc.Console.Display
import Libogc.Library.TextRows

/-!
# The layout of a text

The tiles of the window show the last rows of what was written. The cursor
stands behind the last character of the last row; a row that is full is left
only with the next character. Scrolling copies lines of pixels one by one from
the top, so each is read before it is overwritten.
-/

set_option autoImplicit false

namespace Libogc.ConsoleLayout
open List Nat
open Terminal (Console Rect int32 uint32)
open ConsoleDisplay TextRows

structure Sized (W H : ℕ) (w : Rect) : Prop where
  width : w.width = W
  height : w.height = H
  wide : 1 ≤ W ∧ W < 268435456
  high : 1 ≤ H ∧ H < 134217728

def strip : Option UInt8 → ℕ → Strip
  | none, _ => .blank
  | some ch, k => .glyph ch k

def Shows (d : Display) (i j : ℕ) (o : Option UInt8) : Prop :=
  ∀ k : ℕ, k < 16 →
    d.frame (windowLine d.term.window+i*16+k) (windowColumn d.term.window+j) = strip o k

def lastRows (H : ℕ) (rs : List (List UInt8)) : List (List UInt8) := rs.drop (rs.length-H)

def tile (H : ℕ) (rs : List (List UInt8)) (i j : ℕ) : Option UInt8 :=
  (lastRows H rs)[i]?.bind (fun r => r[j]?)

/-! The frame buffer. -/

section Frame

variable {W H : ℕ} {d : Display} {i j : ℕ} {o : Option UInt8}

theorem Sized.stripCount {w : Rect} (h : Sized W H w) :
    stripCount (w.width*16) = W ∧ stripCount ((w.width+1-1)*16) = W := by
  have hw := h.wide
  rw [h.width]
  unfold ConsoleDisplay.stripCount Terminal.uint32
  omega

/-- By induction on the lines moved: the line that is copied next is still as it
was. -/
theorem scroll_apply {w : Rect} (h : Sized W H w) (n : ℕ) (f : Frame) (p q : ℤ) : scroll w n f p q =
      if (windowLine w ≤ p ∧ p < windowLine w+n) ∧ windowColumn w ≤ q ∧ q < windowColumn w+W
      then f (p+16) q else f p q := by
  induction n generalizing p with
  | zero => rw [scroll, if_neg (by omega)]
  | succ n ih =>
    rw [scroll, moveLine, h.stripCount.1]
    by_cases hp : p = windowLine w+n ∧ windowColumn w ≤ q ∧ q < windowColumn w+W
    · rw [if_pos hp, ih, if_neg (by omega), if_pos (by omega)]
    · rw [if_neg hp, ih]
      by_cases hin : (windowLine w ≤ p ∧ p < windowLine w+n) ∧ windowColumn w ≤ q ∧
          q < windowColumn w+W
      · rw [if_pos hin, if_pos (by omega)]
      · rw [if_neg hin, if_neg (by omega)]

theorem newRow_window (d : Display) : (newRow d).term.window = d.term.window := by
  unfold newRow Terminal.newRow
  dsimp only
  split <;> rfl

theorem newRow_toColumn (d : Display) (x : ℤ) : newRow (toColumn x d) = toColumn x (newRow d) := by
  unfold newRow toColumn Terminal.newRow
  dsimp only
  congr 1
  split <;> rfl

section

variable (h : Sized W H d.term.window)
include h

theorem newRow_low (hy : 0 ≤ d.term.cursorY) (hlow : d.term.cursorY < H) :
    newRow d = { d with term := { d.term with cursorY := d.term.cursorY+1 } } := by
  have hh := h.high
  have hint : int32 (d.term.cursorY+1) = d.term.cursorY+1 := by
    unfold Terminal.int32
    omega
  unfold newRow newRowFrame Terminal.newRow
  rw [hint, h.height]
  dsimp only
  rw [if_neg (by rw [h.height]; omega), if_neg (by omega)]

theorem newRow_bottom (hy : d.term.cursorY = H) :
    (newRow d).term.cursorX = d.term.cursorX ∧ (newRow d).term.cursorY = H ∧
      (newRow d).frame = clearLineFrame H 1 (d.term.window.width+1) d.term.window
        (scroll d.term.window ((H-1)*16) d.frame) := by
  have hh := h.high
  have hint : int32 (d.term.cursorY+1) = H+1 := by
    unfold Terminal.int32
    omega
  have hlines : uint32 ((d.term.window.height-1)*16) = (H-1)*16 := by
    rw [h.height]
    unfold Terminal.uint32
    omega
  unfold newRow newRowFrame Terminal.newRow
  rw [h.height]
  dsimp only
  rw [if_pos (by rw [h.height]; omega), if_pos (by omega), ← h.height, hlines]
  exact ⟨rfl,rfl,rfl⟩

theorem newRow_shows (hy : d.term.cursorY = H) (hi : i+1 < H) (hj : j < W)
    (hd : Shows d (i+1) j o) : Shows (newRow d) i j o := by
  intro k hk
  rw [(newRow_bottom h hy).2.2, newRow_window]
  unfold clearLineFrame
  rw [if_neg (by omega), scroll_apply h, if_pos (by omega), ← hd k hk]
  congr 1
  push_cast
  omega

theorem newRow_clears (hy : d.term.cursorY = H) (hj : j < W) : Shows (newRow d) (H-1) j none := by
  intro k hk
  have hh := h.high
  rw [(newRow_bottom h hy).2.2, newRow_window]
  unfold clearLineFrame
  rw [h.stripCount.2, if_pos (by omega)]
  rfl

end

theorem drawc_shows (ch : UInt8) (hi : d.term.cursorY = i+1) (hj : d.term.cursorX = j+1) :
    Shows (drawc ch d) i j (some ch) := by
  intro k hk
  change drawFrame ch d.term d.frame (windowLine d.term.window+i*16+k)
    (windowColumn d.term.window+j) = _
  unfold drawFrame
  rw [if_pos (by omega)]
  exact congrArg (Strip.glyph ch) (by omega)

theorem drawc_keeps (ch : UInt8) {a b : ℕ} (hi : d.term.cursorY = a+1) (hj : d.term.cursorX = b+1)
    (hne : i ≠ a ∨ j ≠ b) (hd : Shows d i j o) : Shows (drawc ch d) i j o := by
  intro k hk
  change drawFrame ch d.term d.frame (windowLine d.term.window+i*16+k)
    (windowColumn d.term.window+j) = _
  unfold drawFrame
  rw [if_neg (by omega)]
  exact hd k hk

end Frame

/-! Rows. -/

section Rows

variable {H i j : ℕ} {rs above : List (List UInt8)} {row : List UInt8}

theorem tile_eq : tile H rs i j = rs[rs.length-H+i]?.bind (fun r => r[j]?) := by
  rw [tile, lastRows, getElem?_drop]

theorem tile_open_low (h : rs.length < H) : tile H (rs ++ [[]]) i j = tile H rs i j := by
  rw [tile_eq, tile_eq, length_append, length_singleton]
  rw [show rs.length+1-H+i = i by omega, show rs.length-H+i = i by omega, getElem?_append]
  split_ifs with hi
  · rfl
  · rw [getElem?_eq_none (Nat.not_lt.mp hi)]
    cases i-rs.length with
    | zero | succ n => rfl

theorem tile_open_up (h : H ≤ rs.length) (hi : i+1 < H) :
    tile H (rs ++ [[]]) i j = tile H rs (i+1) j := by
  rw [tile_eq, tile_eq, length_append, length_singleton,
    getElem?_append_left (by omega), show rs.length+1-H+i = rs.length-H+(i+1) by omega]

theorem tile_open_last (hH : 1 ≤ H) (h : H ≤ rs.length) : tile H (rs ++ [[]]) (H-1) j = none := by
  rw [tile_eq, length_append, length_singleton,
    getElem?_append_right (by omega), show rs.length+1-H+(H-1)-rs.length = 0 by omega]
  rfl

theorem tile_last (hH : 1 ≤ H) : tile H (above ++ [row]) (min (above.length+1) H-1) j =
    row[j]? := by
  rw [tile_eq, length_append, length_singleton, getElem?_append_right (by omega),
    show above.length+1-H+(min (above.length+1) H-1)-above.length = 0 by omega]
  rfl

theorem tile_above (hi : i ≠ min (above.length+1) H-1) (row' : List UInt8) :
    tile H (above ++ [row']) i j = tile H (above ++ [row]) i j := by
  rw [tile_eq, tile_eq, length_append, length_append, length_singleton,
    length_singleton]
  by_cases hlt : above.length+1-H+i < above.length
  · rw [getElem?_append_left hlt, getElem?_append_left hlt]
  · rw [getElem?_eq_none (by simp; omega), getElem?_eq_none (by simp; omega)]

end Rows

/-! Characters. -/

structure Showing (W H : ℕ) (p : Page UInt8) (d : Display) : Prop where
  sized : Sized W H d.term.window
  fits : p.row.length ≤ W
  cursorX : d.term.cursorX = p.row.length+1
  cursorY : d.term.cursorY = (min (p.above.length+1) H : ℕ)
  tiles : ∀ i < H, ∀ j < W, Shows d i j (tile H p.all i j)

section Steps

variable {W H : ℕ} {p : Page UInt8} {d : Display}

section

variable (h : Showing W H p d)
include h

theorem newRow_showing : Showing W H ⟨p.all,[]⟩ (toColumn 1 (newRow d)) := by
  have hH := h.sized.high
  have hy := h.cursorY
  have hlen := p.all_length
  have hsized : Sized W H (toColumn 1 (newRow d)).term.window := by
    change Sized W H (newRow d).term.window
    rw [newRow_window]
    exact h.sized
  by_cases hlow : p.above.length+1 < H
  · have hnew := newRow_low h.sized (by omega) (by omega)
    refine ⟨hsized,zero_le _,rfl,?_,?_⟩
    · rw [hnew]
      change d.term.cursorY+1 = _
      dsimp only
      omega
    · intro i hi j hj
      change Shows (newRow d) i j (tile H (p.all ++ [[]]) i j)
      rw [hnew, tile_open_low (by omega)]
      exact h.tiles i hi j hj
  · have hbottom : d.term.cursorY = H := by omega
    refine ⟨hsized,zero_le _,rfl,?_,?_⟩
    · change (newRow d).term.cursorY = _
      rw [(newRow_bottom h.sized hbottom).2.1]
      dsimp only
      omega
    · intro i hi j hj
      change Shows (newRow d) i j (tile H (p.all ++ [[]]) i j)
      by_cases hlast : i+1 < H
      · rw [tile_open_up (by omega) hlast]
        exact newRow_shows h.sized hbottom hlast hj (h.tiles (i+1) hlast j hj)
      · obtain rfl : i = H-1 := by omega
        rw [tile_open_last hH.1 (by omega)]
        exact newRow_clears h.sized hbottom hj

theorem drawc_showing (hrow : p.row.length < W) (ch : UInt8) :
    Showing W H ⟨p.above,p.row ++ [ch]⟩ (toColumn (int32 (d.term.cursorX+1)) (drawc ch d)) := by
  have hW := h.sized.wide
  have hH := h.sized.high
  have hx : d.term.cursorX = (p.row.length : ℕ)+1 := h.cursorX
  have hy : d.term.cursorY = (min (p.above.length+1) H-1 : ℕ)+1 := by
    rw [h.cursorY]
    omega
  refine ⟨h.sized,by rw [length_append, length_singleton]; omega,?_,h.cursorY,?_⟩
  · change int32 (d.term.cursorX+1) = _
    rw [length_append, length_singleton]
    unfold Terminal.int32
    omega
  · intro i hi j hj
    change Shows (drawc ch d) i j (tile H (p.above ++ [p.row ++ [ch]]) i j)
    have hold := h.tiles i hi j hj
    by_cases hrow : i = min (p.above.length+1) H-1
    · subst hrow
      rw [Page.all, tile_last hH.1] at hold
      rw [tile_last hH.1]
      by_cases hcol : j = p.row.length
      · subst hcol
        rw [getElem?_concat_length]
        exact drawc_shows ch hy hx
      · have hsame : (p.row ++ [ch])[j]? = p.row[j]? := by
          rw [getElem?_append]
          split_ifs with hlt
          · rfl
          · rw [getElem?_eq_none (by simp; omega), getElem?_eq_none (by omega)]
        rw [hsame]
        exact drawc_keeps ch hy hx (.inr hcol) hold
    · rw [tile_above hrow (p.row ++ [ch])]
      exact drawc_keeps ch hy hx (.inl hrow) hold

theorem printGlyph_showing {ch : UInt8} (hch : ch ≠ 10) :
    Showing W H (write 10 W p ch) (printGlyph ch d) := by
  have hfits := h.fits
  have hcur : d.term.window.width < d.term.cursorX ↔ p.row.length = W := by
    rw [h.sized.width, h.cursorX]
    omega
  unfold printGlyph
  rw [write, if_neg hch]
  by_cases hfull : p.row.length = W
  · rw [if_pos hfull, if_pos (hcur.mpr hfull), newRow_toColumn]
    exact drawc_showing (newRow_showing h) h.sized.wide.1 ch
  · rw [if_neg hfull, if_neg (fun hlt => hfull (hcur.mp hlt))]
    exact drawc_showing h (by omega) ch

theorem print_showing {b : UInt8} (hb : b = 10 ∨ 32 ≤ b) :
    Showing W H (write 10 W p b) (consolePrintChar b d) := by
  rcases hb with rfl | hb
  · exact newRow_showing h
  · have hne : ∀ n : UInt8, n < 32 → b ≠ n := by
      rintro n hn rfl
      exact absurd hn (by simpa using hb)
    rw [consolePrintChar, if_neg (hne 0 (by decide)), if_neg (hne 8 (by decide)),
      if_neg (hne 9 (by decide)), if_neg (hne 10 (by decide)), if_neg (hne 13 (by decide))]
    exact printGlyph_showing h (hne 10 (by decide))

theorem write_showing {text : List UInt8} (ht : ∀ b ∈ text, b = 10 ∨ 32 ≤ b) :
    Showing W H (text.foldl (write 10 W) p) (consoleWrite text d) := by
  induction text generalizing p d with
  | nil => exact h
  | cons b text ih =>
    obtain ⟨hb,ht⟩ := forall_mem_cons.mp ht
    exact ih (print_showing h hb) ht

end

end Steps

structure Home (W H : ℕ) (d : Display) : Prop where
  sized : Sized W H d.term.window
  cursorX : d.term.cursorX = 1
  cursorY : d.term.cursorY = 1
  blank : ∀ i < H, ∀ j < W, Shows d i j none

theorem Home.showing {W H : ℕ} {d : Display} (h : Home W H d) : Showing W H ⟨[],[]⟩ d := by
  have hH := h.sized.high
  refine ⟨h.sized,zero_le _,h.cursorX,?_,?_⟩
  · rw [h.cursorY]
    dsimp only [length_nil]
    omega
  · intro i hi j hj
    have hnone : tile H (Page.all ⟨[],[]⟩) i j = none := by
      rw [tile_eq, Page.all, nil_append, length_singleton, show 1-H+i = i by omega]
      cases i <;> rfl
    rw [hnone]
    exact h.blank i hi j hj

/-- The tiles of the window show the last `H` rows of the text and nothing
else. -/
theorem text_shown {W H : ℕ} {d : Display} (h : Home W H d) {text : List UInt8}
    (ht : ∀ b ∈ text, b = 10 ∨ 32 ≤ b) :
    ∀ i < H, ∀ j < W, Shows (consoleWrite text d) i j
      ((lastRows H (rows 10 W text))[i]?.bind (fun r => r[j]?)) := by
  have hshow := write_showing h.showing ht
  intro i hi j hj
  have htile := hshow.tiles i hi j hj
  rw [write_rows h.sized.wide.1] at htile
  exact htile

def smallWindow : Display := ⟨Terminal.setWindow 4 5 3 2 (Terminal.init 640 480),fun _ _ => .blank⟩

/-- `ABCD`, a line end and `E` in the small window: the first row has gone. -/
theorem text_shown_small : Home 3 2 smallWindow ∧
    lastRows 2 (rows 10 3 [65, 66, 67, 68, 10, 69]) = [[68],[69]] ∧
    ∀ i < 2, ∀ j < 3, Shows (consoleWrite [65, 66, 67, 68, 10, 69] smallWindow) i j
      ((lastRows 2 (rows 10 3 [65, 66, 67, 68, 10, 69]))[i]?.bind (fun r => r[j]?)) := by
  have hhome : Home 3 2 smallWindow :=
    ⟨⟨by decide +kernel,by decide +kernel,by decide,by decide⟩,by decide +kernel,by decide +kernel,
      fun _ _ _ _ _ _ => rfl⟩
  refine ⟨hhome,?_,text_shown hhome (by decide +kernel)⟩
  decide +kernel

end Libogc.ConsoleLayout
