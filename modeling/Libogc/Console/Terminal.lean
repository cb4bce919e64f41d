import Mathlib.Data.Int.Notation
import Mathlib.Data.Nat.Notation
import Mathlib.Logic.Function.Basic

/-!
# The text console

The cursor, the window and the escape sequences of the console, with the
tiles that are drawn, cleared or moved. Colours and the shapes of the glyphs
are left out: they decide what is written to a tile and not which tile it is.
-/

set_option autoImplicit false

namespace Libogc.Terminal

/-- A value of type `int`. -/
def int32 (x : ℤ) : ℤ := (x+2147483648)%4294967296-2147483648

def uint32 (x : ℤ) : ℕ := (x%4294967296).toNat

/-- A block of tiles; tiles are numbered from one. -/
structure Rect where
  x : ℤ
  y : ℤ
  width : ℤ
  height : ℤ
  deriving DecidableEq

inductive Esc
  | none | start | building
  deriving DecidableEq

structure Console where
  cols : ℕ
  rows : ℕ
  window : Rect
  cursorX : ℤ
  cursorY : ℤ
  prevCursorX : ℤ
  prevCursorY : ℤ
  tabSize : ℤ
  state : Esc
  args : ℕ → ℤ
  argIdx : ℕ
  hasArg : Bool
  /-- The tiles written so far, each block with the window it was meant for. -/
  painted : List (Rect × Rect)

def paint (r : Rect) (c : Console) : Console := { c with painted := (r,c.window)::c.painted }

def drawc (c : Console) : Console :=
  paint ⟨c.window.x+c.cursorX-1,c.window.y+c.cursorY-1,1,1⟩ c

/-- The tiles from `first` up to `last`, of 16 bytes each in a line of pixels. -/
def clearLine (line first last : ℤ) (c : Console) : Console :=
  paint ⟨c.window.x+first-1,c.window.y+line-1,uint32 ((last-first)*16)/16,1⟩ c

def clear (c : Console) : Console :=
  { paint c.window c with cursorX := 1, cursorY := 1, prevCursorX := 1, prevCursorY := 1 }

def clearDown : ℕ → ℤ → Console → Console
  | 0, _, c => c
  | n+1, line, c => clearDown n (line+1) (clearLine line 1 (c.window.width+1) c)

def clearFromCursor (c : Console) : Console :=
  clearDown (c.window.height-c.cursorY).toNat (c.cursorY+1)
    (clearLine c.cursorY c.cursorX (c.window.width+1) c)

/-- Whole lines upwards until `--cur_row` gives zero. -/
def clearUp : ℕ → ℤ → Console → Console
  | 0, _, c => c
  | n+1, line, c => clearUp n (int32 (line-1)) (clearLine line 1 (c.window.width+1) c)

def clearToCursor (c : Console) : Console :=
  clearUp (uint32 (c.cursorY-1)) (int32 (c.cursorY-1)) (clearLine c.cursorY 1 c.cursorX c)

def consoleClearLine (mode : ℤ) (c : Console) : Console :=
  if mode = 0 then clearLine c.cursorY c.cursorX (c.window.width+1) c
  else if mode = 1 then clearLine c.cursorY 1 c.cursorX c
  else if mode = 2 then clearLine c.cursorY 1 (c.window.width+1) c
  else c

def consoleCls (mode : ℤ) (c : Console) : Console :=
  if mode = 0 then clearFromCursor c
  else if mode = 1 then clearToCursor c
  else if mode = 2 ∨ mode = 3 then clear c
  else c

def consolePosition (x y : ℤ) (c : Console) : Console :=
  if x < 0 ∨ y < 0 then c
  else
    let x := if x < 1 then 1 else x
    let y := if y < 1 then 1 else y
    { c with
      cursorX := if c.window.width < x then c.window.width else x,
      cursorY := if c.window.height < y then c.window.height else y }

def newRow (c : Console) : Console :=
  let c := { c with cursorY := int32 (c.cursorY+1) }
  if c.window.height < c.cursorY then
    -- all rows but the first are moved up by one, and the last one is cleared
    let c := paint ⟨c.window.x,c.window.y+1,c.window.width,c.window.height-1⟩ c
    let c := paint ⟨c.window.x,c.window.y,c.window.width,c.window.height-1⟩ c
    let c := clearLine c.window.height 1 (c.window.width+1) c
    { c with cursorY := c.window.height }
  else c

/-- The default case of `consolePrintChar`. -/
def printGlyph (c : Console) : Console :=
  let c := if c.window.width < c.cursorX then newRow { c with cursorX := 1 } else c
  let c := drawc c
  { c with cursorX := int32 (c.cursorX+1) }

def printGlyphs : ℕ → Console → Console
  | 0, c => c
  | n+1, c => printGlyphs n (printGlyph c)

def backspace (c : Console) : Console :=
  let x := int32 (c.cursorX-1)
  let c := if x < 1 then
      if 1 < c.cursorY then { c with cursorX := c.window.width, cursorY := c.cursorY-1 }
      else { c with cursorX := 1 }
    else { c with cursorX := x }
  drawc c

def tabSpaces (c : Console) : ℤ :=
  let spaces := c.tabSize-Int.tmod (c.cursorX-1) c.tabSize
  if c.window.width < c.cursorX+spaces then c.window.width-c.cursorX else spaces

def tab (c : Console) : Console := printGlyphs (tabSpaces c).toNat c

def consolePrintChar (b : UInt8) (c : Console) : Console :=
  if b = 0 then c
  else if b = 8 then backspace c
  else if b = 9 then tab c
  else if b = 10 then { newRow c with cursorX := 1 }
  else if b = 13 then { c with cursorX := 1 }
  else printGlyph c

/-- The first argument, which is one if none has been given. -/
def steps (c : Console) : ℤ := if !c.hasArg && c.argIdx == 0 then 1 else c.args 0

def cursorUp (c : Console) : Console :=
  let y := int32 (c.cursorY-steps c)
  { c with cursorY := if y < 1 then 1 else y }

def cursorDown (c : Console) : Console :=
  let y := int32 (c.cursorY+steps c)
  { c with cursorY := if c.window.height < y then c.window.height else y }

def cursorRight (c : Console) : Console :=
  let x := int32 (c.cursorX+steps c)
  { c with cursorX := if c.window.width < x then c.window.width else x }

def cursorLeft (c : Console) : Console :=
  let x := int32 (c.cursorX-steps c)
  { c with cursorX := if x < 1 then 1 else x }

/-- The argument of a command that clears: zero if none has been given. -/
def mode (c : Console) : ℤ := if c.argIdx == 0 && !c.hasArg then 0 else c.args 0

/-- A digit may be stored behind the last argument, where nothing reads it as one. -/
def digit (b : UInt8) (c : Console) : Console :=
  { c with
    hasArg := true,
    args := Function.update c.args c.argIdx (int32 (c.args c.argIdx*10+(b.toNat-48))) }

def separator (c : Console) : Console :=
  { c with
    argIdx := if c.hasArg && decide (c.argIdx < 16) then c.argIdx+1 else c.argIdx,
    hasArg := false }

def command (b : UInt8) (c : Console) : Console :=
  if b = 65 then cursorUp c
  else if b = 66 then cursorDown c
  else if b = 67 then cursorRight c
  else if b = 68 then cursorLeft c
  else if b = 72 ∨ b = 102 then consolePosition (c.args 1) (c.args 0) c
  else if b = 74 then consoleCls (mode c) c
  else if b = 75 then consoleClearLine (mode c) c
  else if b = 115 then { c with prevCursorX := c.cursorX, prevCursorY := c.cursorY }
  else if b = 117 then { c with cursorX := c.prevCursorX, cursorY := c.prevCursorY }
  -- colours
  else if b = 109 then { c with argIdx := 0 }
  else c

/-- One turn of the loop of `__console_write`. -/
def writeByte (b : UInt8) (c : Console) : Console :=
  match c.state with
  | .none => if b = 27 then { c with state := .start } else consolePrintChar b c
  | .start =>
    if b = 91 then { c with state := .building, hasArg := false, args := fun _ => 0, argIdx := 0 }
    else { consolePrintChar b (consolePrintChar 27 c) with state := .none }
  | .building =>
    if 48 ≤ b ∧ b ≤ 57 then digit b c
    else if b = 59 then separator c
    else { command b c with state := .none }

def setWindow (x y width height : UInt32) (c : Console) : Console :=
  let x := if x.toNat = 0 then 1 else x.toNat
  let y := if y.toNat = 0 then 1 else y.toNat
  if c.cols ≤ x then c
  else if c.rows ≤ y then c
  else
    let width := if c.cols+1 < (x+width.toNat)%4294967296 then c.cols+1-x else width.toNat
    let height := if c.rows+1 < (y+height.toNat)%4294967296 then c.rows+1-y else height.toNat
    { c with window := ⟨x,y,int32 width,int32 height⟩, cursorX := 1, cursorY := 1 }

inductive Event
  | byte (b : UInt8)
  | window (x y width height : UInt32)

def step : Event → Console → Option Console
  | .byte b, c => some (writeByte b c)
  | .window x y width height, c => some (setWindow x y width height c)

/-- `__set_default_console` on a buffer of so many pixels. -/
def init (xres yres : ℕ) : Console :=
  clear {
    cols := xres/8, rows := yres/16, window := ⟨1,1,(xres/8 : ℕ),(yres/16 : ℕ)⟩,
    cursorX := 1, cursorY := 1, prevCursorX := 1, prevCursorY := 1, tabSize := 3,
    state := .none, args := fun _ => 0, argIdx := 0, hasArg := false, painted := [] }

end Libogc.Terminal
