import Libogc.Console.Terminal

/-!
# Colours of the text console

The colour arguments of escape sequences over the terminal. A colour is an
index into a table of 24 or a converted RGB colour, and a flag tells which.
Recorded are the indices at which the arguments of a sequence and of a colour
are stored and those at which the table is read. `colorArgCount` is the `int`
behind the sixteen arguments, so an argument stored behind the last one is
stored there. Flags that no table lookup depends on are left out.
-/

set_option autoImplicit false

namespace Libogc.ConsoleColors
open Function Terminal

def clamp (x : ℕ) : ℕ := min 240 (max 16 x)

def byte (x : ℤ) : ℕ := (x%256).toNat

def singleRgb8ToYCbCr (r g b : ℕ) : ℕ :=
  let y := byte ((77*clamp r+150*clamp g+29*clamp b)/256)
  let cb := byte (Int.tdiv (224*(clamp b : ℤ)-148*clamp g-76*clamp r) 512+128)
  let cr := byte (Int.tdiv (224*(clamp r : ℤ)-188*clamp g-36*clamp b) 512+128)
  y*16777216+cb*65536+y*256+cr

/-- A stored colour: what was stored as an index, or what was converted. -/
inductive Shade where
  | index (n : ℕ)
  | rgb (r g b : ℕ)
  deriving DecidableEq, Repr

def Shade.value : Shade → ℕ
  | .index n => n
  | .rgb r g b => singleRgb8ToYCbCr r g b

def Shade.converted : Shade → Bool
  | .index _ => false
  | .rgb _ _ _ => true

inductive Side where
  | fg
  | bg
  deriving DecidableEq, Repr

structure Colors where
  fg : Shade
  bg : Shade
  bold : Bool
  faint : Bool
  fgBright : Bool
  bgBright : Bool
  fgCustom : Bool
  bgCustom : Bool
  deriving DecidableEq

def reset : Colors := ⟨.index 7,.index 0,false,false,false,false,false,false⟩

def put (side : Side) (x : Shade) (custom : Bool) (c : Colors) : Colors :=
  match side with
  | .fg => { c with fg := x, fgCustom := custom }
  | .bg => { c with bg := x, bgCustom := custom }

/-! Lookups in the table. -/

/-- An index that is used; for the table also the stored colour it is computed
from. -/
inductive Access where
  | args (i : ℕ)
  | colorArgs (i : ℤ)
  | table (stored index : ℕ)
  deriving DecidableEq, Repr

def fgIndex (c : Colors) : ℕ :=
  if c.bold || c.fgBright then (c.fg.value+8)%4294967296
  else if c.faint then (c.fg.value+16)%4294967296
  else c.fg.value

def bgIndex (c : Colors) : ℕ :=
  if c.bgBright then (c.bg.value+8)%4294967296 else c.bg.value

/-- Of `__console_drawc`. -/
def drawLookups (c : Colors) : List Access :=
  (if c.fgCustom then [] else [.table c.fg.value (fgIndex c)]) ++
    if c.bgCustom then [] else [.table c.bg.value (bgIndex c)]

/-- Of `__console_clear_line` and `__console_clear`. -/
def clearLookups (c : Colors) : List Access :=
  if c.bgCustom then [] else [.table c.bg.value c.bg.value]

def newRowLookups (t : Console) (c : Colors) : List Access :=
  if t.window.height < int32 (t.cursorY+1) then clearLookups c else []

def printLookups (b : UInt8) (t : Console) (c : Colors) : List Access :=
  if b = 0 then []
  else if b = 8 then drawLookups c
  else if b = 9 then if 0 < tabSpaces t then drawLookups c else []
  else if b = 10 then newRowLookups t c
  else if b = 13 then []
  else (if t.window.width < t.cursorX then newRowLookups t c else []) ++ drawLookups c

def commandLookups (b : UInt8) (t : Console) (c : Colors) : List Access :=
  if b = 74 then if 0 ≤ mode t ∧ mode t ≤ 3 then clearLookups c else []
  else if b = 75 then if 0 ≤ mode t ∧ mode t ≤ 2 then clearLookups c else []
  else []

/-! The arguments of a colour sequence. -/

inductive Format where
  | unknown
  | format (side : Side)
  | nonRgb (side : Side)
  | rgb (side : Side)
  deriving DecidableEq

structure Scan where
  format : Format
  colors : Colors
  args : ℕ → ℤ
  colorArgs : ℤ → ℕ
  log : List Access

/-- `38` and `48`. -/
def custom (side : Side) (w : Scan) : Scan :=
  { w with format := .format side, args := update w.args 16 0 }

def setColors (code : ℤ) (c : Colors) : Colors :=
  if code = 0 then reset
  else if code = 1 then { c with faint := false, bold := true }
  else if code = 2 then { c with bold := false, faint := true }
  else if code = 21 then { c with bold := false }
  else if code = 22 then { c with bold := false, faint := false }
  else if 30 ≤ code ∧ code ≤ 37 then put .fg (.index (code-30).toNat) false c
  else if code = 39 then put .fg (.index 7) false c
  else if 40 ≤ code ∧ code ≤ 47 then put .bg (.index (code-40).toNat) false c
  else if code = 49 then put .bg (.index 0) false c
  -- the flag that is cleared is that of the background
  else if 90 ≤ code ∧ code ≤ 97 then
    { c with faint := false, fgBright := true, bgCustom := false, fg := .index (code-90).toNat }
  else if 100 ≤ code ∧ code ≤ 107 then
    { put .bg (.index (code-100).toNat) false c with faint := false, bgBright := true }
  else c

def consoleSetColorState (code : ℤ) (w : Scan) : Scan :=
  if code = 38 then custom .fg w
  else if code = 48 then custom .bg w
  else { w with colors := setColors code w.colors }

def colorCube (i : ℤ) : ℕ := [0x00, 0x5f, 0x87, 0xaf, 0xd7, 0xff].getD i.toNat 0

def grayScale (i : ℤ) : ℕ :=
  [0x08, 0x12, 0x1c, 0x26, 0x30, 0x3a, 0x44, 0x4e, 0x58, 0x62, 0x6c, 0x76,
    0x80, 0x8a, 0x94, 0x9e, 0xa8, 0xb2, 0xbc, 0xc6, 0xd0, 0xda, 0xe4, 0xee].getD i.toNat 0

def nonRgb (side : Side) (code : ℤ) (c : Colors) : Colors :=
  if code ≤ 15 then put side (.index (uint32 code)) false c
  else if code ≤ 231 then
    let r := (code-16)/36
    let g := (code-16-r*36)/6
    let b := code-16-r*36-g*6
    put side (.rgb (colorCube r) (colorCube g) (colorCube b)) true c
  else if code ≤ 255 then
    let x := grayScale (code-232)
    put side (.rgb x x x) true c
  else c

def rgbArg (side : Side) (code : ℤ) (w : Scan) : Scan :=
  let n := w.args 16
  let colorArgs := update w.colorArgs n (uint32 code)
  let w := { w with
    colorArgs := colorArgs, args := update w.args 16 (int32 (n+1)),
    log := .colorArgs n::w.log }
  if w.args 16 = 3 then
    { w with
      colors := put side (.rgb (colorArgs 0%256) (colorArgs 1%256) (colorArgs 2%256)) true w.colors,
      format := .unknown }
  else w

/-- One turn of the loop of `consoleHandleColorEsc`. -/
def turn (code : ℤ) (w : Scan) : Scan :=
  match w.format with
  | .unknown => consoleSetColorState code w
  | .format side => { w with
      format := if code = 5 then .nonRgb side else if code = 2 then .rgb side else .unknown }
  | .nonRgb side => { w with colors := nonRgb side code w.colors, format := .unknown }
  | .rgb side => rgbArg side code w

def turns : ℕ → Scan → Scan
  | 0, w => w
  | n+1, w => turn ((turns n w).args n) (turns n w)

/-! The console. -/

structure Shaded where
  term : Console
  colors : Colors
  colorArgs : ℤ → ℕ
  log : List Access

def argCount (t : Console) : ℕ :=
  if t.argIdx == 0 && !t.hasArg then 1 else if t.hasArg then t.argIdx+1 else t.argIdx

/-- The arguments of the command `m`; without any there is one, which is zero. -/
def scanStart (s : Shaded) : Scan :=
  if s.term.argIdx == 0 && !s.term.hasArg then
    ⟨.unknown,s.colors,update s.term.args 0 0,s.colorArgs,.args 0::s.log⟩
  else ⟨.unknown,s.colors,s.term.args,s.colorArgs,s.log⟩

def colorCommand (s : Shaded) : Shaded :=
  let w := turns (argCount s.term) (scanStart s)
  { term := { writeByte 109 s.term with args := w.args },
    colors := w.colors, colorArgs := w.colorArgs, log := w.log }

def passed (b : UInt8) (as : List Access) (s : Shaded) : Shaded :=
  { s with term := writeByte b s.term, log := as ++ s.log }

/-- `memset` clears the sixteen arguments. -/
def begun (s : Shaded) : Shaded :=
  { s with term := { writeByte 91 s.term with
      args := update (fun _ => 0) 16 (s.term.args 16) } }

/-- One turn of the loop of `__console_write`. -/
def consoleWrite (b : UInt8) (s : Shaded) : Shaded :=
  match s.term.state with
  | .none => passed b (if b = 27 then [] else printLookups b s.term s.colors) s
  | .start =>
    if b = 91 then begun s
    else passed b (printLookups 27 s.term s.colors ++
      printLookups b (consolePrintChar 27 s.term) s.colors) s
  | .building =>
    if 48 ≤ b ∧ b ≤ 57 then passed b [.args s.term.argIdx] s
    else if b = 109 then colorCommand s
    else passed b (commandLookups b s.term s.colors) s

def colorStep (b : UInt8) (s : Shaded) : Option Shaded := some (consoleWrite b s)

def colorInit (xres yres : ℕ) : Shaded := ⟨init xres yres,reset,fun _ => 0,clearLookups reset⟩

end Libogc.ConsoleColors
