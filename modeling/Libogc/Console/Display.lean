import Libogc.Console.Terminal

/-!
# What the console shows

The frame buffer under the terminal, line of pixels by line of pixels. A strip
is the part of such a line that belongs to one tile: background, or one of the
sixteen lines of a glyph. Lines and columns of strips are counted from zero, the
tiles of the terminal from one.
-/

set_option autoImplicit false

namespace Libogc.ConsoleDisplay
open Terminal List

inductive Strip where
  | blank
  | glyph (ch : UInt8) (line : ℕ)
  deriving DecidableEq, Repr

/-- By line and column. -/
abbrev Frame := ℤ → ℤ → Strip

structure Display where
  term : Console
  frame : Frame

def windowLine (w : Rect) : ℤ := (w.y-1)*16

def windowColumn (w : Rect) : ℤ := w.x-1

def stripCount (bytes : ℤ) : ℤ := (uint32 bytes/16 : ℕ)

def drawFrame (ch : UInt8) (t : Console) (f : Frame) : Frame :=
  let line := windowLine t.window+(t.cursorY-1)*16
  fun p q => if q = windowColumn t.window+(t.cursorX-1) ∧ line ≤ p ∧ p < line+16
    then .glyph ch (p-line).toNat else f p q

def clearLineFrame (line first last : ℤ) (w : Rect) (f : Frame) : Frame :=
  let top := windowLine w+(line-1)*16
  let left := windowColumn w+(first-1)
  fun p q => if (top ≤ p ∧ p < top+16) ∧ left ≤ q ∧ q < left+stripCount ((last-first)*16)
    then .blank else f p q

def moveLine (w : Rect) (y : ℕ) (f : Frame) : Frame :=
  fun p q => if p = windowLine w+y ∧ windowColumn w ≤ q ∧ q < windowColumn w+stripCount (w.width*16)
    then f (p+16) q else f p q

def scroll (w : Rect) : ℕ → Frame → Frame
  | 0, f => f
  | n+1, f => moveLine w n (scroll w n f)

def newRowFrame (t : Console) (f : Frame) : Frame :=
  if t.window.height < int32 (t.cursorY+1) then
    clearLineFrame t.window.height 1 (t.window.width+1) t.window
      (scroll t.window (uint32 ((t.window.height-1)*16)) f)
  else f

def newRow (d : Display) : Display := ⟨Terminal.newRow d.term,newRowFrame d.term d.frame⟩

def drawc (ch : UInt8) (d : Display) : Display :=
  ⟨Terminal.drawc d.term,drawFrame ch d.term d.frame⟩

def toColumn (x : ℤ) (d : Display) : Display := { d with term := { d.term with cursorX := x } }

def printGlyph (ch : UInt8) (d : Display) : Display :=
  let d := if d.term.window.width < d.term.cursorX then newRow (toColumn 1 d) else d
  let d := drawc ch d
  toColumn (int32 (d.term.cursorX+1)) d

def printSpaces : ℕ → Display → Display
  | 0, d => d
  | n+1, d => printSpaces n (printGlyph 32 d)

def backspace (d : Display) : Display :=
  ⟨Terminal.backspace d.term,drawFrame 32 (Terminal.backspace d.term) d.frame⟩

def tab (d : Display) : Display := printSpaces (Terminal.tabSpaces d.term).toNat d

def consolePrintChar (b : UInt8) (d : Display) : Display :=
  if b = 0 then d
  else if b = 8 then backspace d
  else if b = 9 then tab d
  else if b = 10 then toColumn 1 (newRow d)
  else if b = 13 then toColumn 1 d
  else printGlyph b d

def consoleWrite (text : List UInt8) (d : Display) : Display :=
  text.foldl (fun d b => consolePrintChar b d) d

/-! The cursor is that of the terminal. -/

theorem printGlyph_term (ch : UInt8) (d : Display) :
    (printGlyph ch d).term = Terminal.printGlyph d.term := by
  unfold printGlyph Terminal.printGlyph
  by_cases h : d.term.window.width < d.term.cursorX
  · simp only [if_pos h]
    rfl
  · simp only [if_neg h]
    rfl

theorem printSpaces_term (n : ℕ) (d : Display) :
    (printSpaces n d).term = Terminal.printGlyphs n d.term := by
  induction n generalizing d with
  | zero => rfl
  | succ n ih => rw [printSpaces, ih, printGlyph_term, Terminal.printGlyphs]

theorem consolePrintChar_term (b : UInt8) (d : Display) :
    (consolePrintChar b d).term = Terminal.consolePrintChar b d.term := by
  unfold consolePrintChar Terminal.consolePrintChar
  split
  · rfl
  · split
    · rfl
    · split
      · exact printSpaces_term _ d
      · split
        · rfl
        · split
          · rfl
          · exact printGlyph_term b d

theorem newRow_state (t : Console) : (Terminal.newRow t).state = t.state := by
  unfold Terminal.newRow
  dsimp only
  split <;> rfl

theorem printGlyph_state (t : Console) : (Terminal.printGlyph t).state = t.state := by
  unfold Terminal.printGlyph
  dsimp only [paint]
  split
  · exact newRow_state _
  · rfl

theorem printGlyphs_state (n : ℕ) (t : Console) : (printGlyphs n t).state = t.state := by
  induction n generalizing t with
  | zero => rfl
  | succ n ih => rw [printGlyphs, ih, printGlyph_state]

theorem consolePrintChar_state (b : UInt8) (t : Console) :
    (Terminal.consolePrintChar b t).state = t.state := by
  unfold Terminal.consolePrintChar
  split
  · rfl
  · split
    · unfold Terminal.backspace
      dsimp only [paint]
      split
      · split <;> rfl
      · rfl
    · split
      · exact printGlyphs_state _ t
      · split
        · exact newRow_state t
        · split
          · rfl
          · exact printGlyph_state t

/-- By induction on the text: no byte of it begins an escape sequence. -/
theorem consoleWrite_term {text : List UInt8} {d : Display} (hs : d.term.state = .none)
    (hb : ∀ b ∈ text, b ≠ 27) :
    (consoleWrite text d).term = text.foldl (fun t b => writeByte b t) d.term := by
  induction text generalizing d with
  | nil => rfl
  | cons b text ih =>
    obtain ⟨hb,htext⟩ := forall_mem_cons.mp hb
    have hw : writeByte b d.term = (consolePrintChar b d).term := by
      rw [writeByte, hs, consolePrintChar_term]
      exact if_neg hb
    have hstate : (consolePrintChar b d).term.state = .none := by
      rw [consolePrintChar_term, consolePrintChar_state, hs]
    rw [consoleWrite, foldl_cons, foldl_cons, hw]
    exact ih hstate htext

end Libogc.ConsoleDisplay
