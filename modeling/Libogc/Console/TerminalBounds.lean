import Libogc.Console.Terminal
import Libogc.Library.GuardedReach
import Mathlib.Tactic.SplitIfs

/-!
# The console stays inside its window

Every routine that moves the cursor or writes tiles keeps the cursor in the
window and the tiles inside it. Two kinds of commands do so only under a
condition: a saved position has to belong to the window it is restored in, and
a number of steps must not have left the range of an `int`.
-/

set_option autoImplicit false

namespace Libogc.TerminalBounds
open Terminal GuardedReach Function

def Inside (r w : Rect) : Prop :=
  0 ≤ r.width ∧ 0 ≤ r.height ∧ w.x ≤ r.x ∧ r.x+r.width ≤ w.x+w.width ∧
    w.y ≤ r.y ∧ r.y+r.height ≤ w.y+w.height

instance (r w : Rect) : Decidable (Inside r w) := inferInstanceAs (Decidable (_ ∧ _))

def Confined (c : Console) : Prop :=
  (1 ≤ c.cursorX ∧ c.cursorX ≤ c.window.width+1 ∧ 1 ≤ c.cursorY ∧ c.cursorY ≤ c.window.height) ∧
    ∀ p ∈ c.painted, Inside p.1 p.2

instance (c : Console) : Decidable (Confined c) := inferInstanceAs (Decidable (_ ∧ _))

structure Good (c : Console) : Prop where
  wide : 1 ≤ c.window.width
  high : 1 ≤ c.window.height
  cols : c.window.width ≤ c.cols ∧ c.cols < 268435456
  rows : c.window.height ≤ c.rows ∧ c.rows < 4096
  cursorX : 1 ≤ c.cursorX ∧ c.cursorX ≤ c.window.width+1
  cursorY : 1 ≤ c.cursorY ∧ c.cursorY ≤ c.window.height
  tabSize : 1 ≤ c.tabSize ∧ c.tabSize < 4096
  args : ∀ i, c.args i < 2147483648
  painted : ∀ p ∈ c.painted, Inside p.1 p.2

theorem int32_of {x : ℤ} (h : -2147483648 ≤ x) (h' : x < 2147483648) : int32 x = x := by
  unfold int32
  omega

theorem uint32_of {x : ℤ} (h : 0 ≤ x) (h' : x < 4294967296) : (uint32 x : ℤ) = x := by
  unfold uint32
  omega

section Routines

variable {c : Console}

section

variable (hc : Good c)
include hc

theorem Good.paint {r : Rect} (hr : Inside r c.window) : Good (paint r c) := by
  have hpainted : ∀ p ∈ (r,c.window)::c.painted, Inside p.1 p.2 :=
    List.forall_mem_cons.mpr ⟨hr,hc.painted⟩
  exact { hc with painted := hpainted }

variable {x y line : ℤ}

theorem Good.moveTo (hx : 1 ≤ x ∧ x ≤ c.window.width+1)
    (hy : 1 ≤ y ∧ y ≤ c.window.height) : Good { c with cursorX := x, cursorY := y } :=
  { hc with cursorX := hx, cursorY := hy }

theorem Good.column (hx : 1 ≤ x ∧ x ≤ c.window.width+1) : Good { c with cursorX := x } :=
  hc.moveTo hx hc.cursorY

theorem Good.row (hy : 1 ≤ y ∧ y ≤ c.window.height) : Good { c with cursorY := y } :=
  hc.moveTo hc.cursorX hy

theorem Good.parsed (e : Esc) (args : ℕ → ℤ) (i : ℕ) (h : Bool) (ha : ∀ i, args i < 2147483648) :
    Good { c with state := e, args := args, argIdx := i, hasArg := h } :=
  { hc with args := ha }

theorem Good.saved (x y : ℤ) : Good { c with prevCursorX := x, prevCursorY := y } :=
  { hc with }

theorem drawc_good (hx : c.cursorX ≤ c.window.width) : Good (drawc c) := by
  have hl := hc.cursorX
  have hr := hc.cursorY
  apply hc.paint
  refine ⟨?_,?_,?_,?_,?_,?_⟩ <;> simp only [] <;> omega

theorem clearLine_good {first last : ℤ}
    (hl : 1 ≤ line ∧ line ≤ c.window.height) (hf : 1 ≤ first) (hfl : first ≤ last)
    (hw : last ≤ c.window.width+1) : Good (clearLine line first last c) := by
  have hs := hc.cols
  have hu : (uint32 ((last-first)*16) : ℤ) = (last-first)*16 := uint32_of (by omega) (by omega)
  apply hc.paint
  refine ⟨?_,?_,?_,?_,?_,?_⟩ <;> simp only [] <;> omega

theorem wholeLine_good (hl : 1 ≤ line ∧ line ≤ c.window.height) :
    Good (clearLine line 1 (c.window.width+1) c) :=
  clearLine_good hc hl (Int.le_refl _) (by have hw := hc.wide; omega) (Int.le_refl _)

theorem clear_good : Good (clear c) := by
  have hw := hc.wide
  have hh := hc.high
  have hp : Good (paint c.window c) :=
    hc.paint ⟨by omega,by omega,Int.le_refl _,Int.le_refl _,Int.le_refl _,Int.le_refl _⟩
  exact (hp.moveTo ⟨Int.le_refl _,Int.le_trans hp.cursorX.1 hp.cursorX.2⟩
    ⟨Int.le_refl _,hh⟩).saved 1 1

end

theorem clearDown_good (n : ℕ) (line : ℤ) (c : Console) (hc : Good c) (hl : 1 ≤ line)
    (hn : line+n ≤ c.window.height+1) : Good (clearDown n line c) := by
  induction n generalizing line c with
  | zero => exact hc
  | succ n ih => exact ih (line+1) _ (wholeLine_good hc (by omega)) (by omega) (by
      simp only [clearLine, Terminal.paint]; omega)

theorem clearUp_good (n : ℕ) (c : Console) (hc : Good c) (hn : n ≤ c.window.height) :
    Good (clearUp n n c) := by
  induction n generalizing c with
  | zero => exact hc
  | succ n ih =>
    have hr := hc.rows
    have hp : int32 ((n+1 : ℕ)-1 : ℤ) = n := by rw [int32_of] <;> omega
    rw [clearUp, hp]
    exact ih _ (wholeLine_good hc (by omega)) (by simp only [clearLine, Terminal.paint]; omega)

theorem clearFromCursor_good (hc : Good c) : Good (clearFromCursor c) := by
  have hy := hc.cursorY
  have hl : Good (clearLine c.cursorY c.cursorX (c.window.width+1) c) :=
    clearLine_good hc hy hc.cursorX.1 hc.cursorX.2 (Int.le_refl _)
  exact clearDown_good _ _ _ hl (by omega) (by simp only [clearLine, Terminal.paint]; omega)

theorem clearToCursor_good (hc : Good c) : Good (clearToCursor c) := by
  have hy := hc.cursorY
  have hr := hc.rows
  have hl : Good (clearLine c.cursorY 1 c.cursorX c) :=
    clearLine_good hc hy (Int.le_refl _) hc.cursorX.1 hc.cursorX.2
  have hn : (uint32 (c.cursorY-1) : ℤ) = c.cursorY-1 := uint32_of (by omega) (by omega)
  have hi : int32 (c.cursorY-1) = (uint32 (c.cursorY-1) : ℕ) := by
    rw [hn, int32_of] <;> omega
  rw [clearToCursor, hi]
  exact clearUp_good _ _ hl (by simp only [clearLine, Terminal.paint]; omega)

theorem consoleClearLine_good (mode : ℤ) (hc : Good c) : Good (consoleClearLine mode c) := by
  unfold consoleClearLine
  split_ifs
  · exact clearLine_good hc hc.cursorY hc.cursorX.1 hc.cursorX.2 (Int.le_refl _)
  · exact clearLine_good hc hc.cursorY (Int.le_refl _) hc.cursorX.1 hc.cursorX.2
  · exact wholeLine_good hc hc.cursorY
  · exact hc

theorem consoleCls_good (mode : ℤ) (hc : Good c) : Good (consoleCls mode c) := by
  unfold consoleCls
  split_ifs
  · exact clearFromCursor_good hc
  · exact clearToCursor_good hc
  · exact clear_good hc
  · exact hc

theorem consolePosition_good (x y : ℤ) (hc : Good c) : Good (consolePosition x y c) := by
  have hw := hc.wide
  have hh := hc.high
  unfold consolePosition
  split
  · exact hc
  · apply hc.moveTo
    · split_ifs <;> omega
    · split_ifs <;> omega

theorem newRow_good (hc : Good c) :
    Good (newRow c) ∧ (newRow c).cursorX = c.cursorX ∧ (newRow c).window = c.window := by
  have hw := hc.wide
  have hh := hc.high
  have hy := hc.cursorY
  have hr := hc.rows
  have hi : int32 (c.cursorY+1) = c.cursorY+1 := int32_of (by omega) (by omega)
  by_cases hlast : c.window.height < c.cursorY+1
  · have hscroll : Good (clearLine c.window.height 1 (c.window.width+1)
        (paint ⟨c.window.x,c.window.y,c.window.width,c.window.height-1⟩
          (paint ⟨c.window.x,c.window.y+1,c.window.width,c.window.height-1⟩ c))) := by
      apply wholeLine_good
      · apply Good.paint
        · apply hc.paint
          refine ⟨?_,?_,?_,?_,?_,?_⟩ <;> simp only [] <;> omega
        · refine ⟨?_,?_,?_,?_,?_,?_⟩ <;> simp only [Terminal.paint] <;> omega
      · exact ⟨hh,Int.le_refl _⟩
    have hgood := hscroll.row (y := c.window.height) ⟨hh,Int.le_refl _⟩
    simp only [newRow, hi, if_pos hlast]
    exact ⟨hgood,rfl,rfl⟩
  · simp only [newRow, hi, if_neg hlast]
    exact ⟨hc.row ⟨by omega,by omega⟩,trivial,trivial⟩

theorem printGlyph_good (hc : Good c) : Good (printGlyph c) := by
  have hw := hc.wide
  have hs := hc.cols
  have hx := hc.cursorX
  by_cases hwrap : c.window.width < c.cursorX
  · obtain ⟨hn,hnx,hnw⟩ := newRow_good (hc.column ⟨Int.le_refl _,by omega⟩)
    have hd : Good (drawc (newRow { c with cursorX := 1 })) :=
      drawc_good hn (by rw [hnx, hnw]; exact hw)
    have hm := hd.column (x := 2) ⟨by decide,by
      show 2 ≤ (newRow { c with cursorX := 1 }).window.width+1
      rw [hnw]
      show 2 ≤ c.window.width+1
      omega⟩
    have he : int32 ((drawc (newRow { c with cursorX := 1 })).cursorX+1) = 2 := by
      show int32 ((newRow { c with cursorX := 1 }).cursorX+1) = 2
      rw [hnx]
      rfl
    simp only [printGlyph, if_pos hwrap, he]
    exact hm
  · have hd : Good (drawc c) := drawc_good hc (by omega)
    have he : int32 ((drawc c).cursorX+1) = c.cursorX+1 := int32_of
      (by show -2147483648 ≤ c.cursorX+1; omega) (by show c.cursorX+1 < 2147483648; omega)
    have hm := hd.column (x := c.cursorX+1) ⟨by omega,by show c.cursorX+1 ≤ c.window.width+1; omega⟩
    simp only [printGlyph, if_neg hwrap, he]
    exact hm

theorem printGlyphs_good (n : ℕ) (c : Console) (hc : Good c) : Good (printGlyphs n c) := by
  induction n generalizing c with
  | zero => exact hc
  | succ n ih => exact ih _ (printGlyph_good hc)

theorem backspace_good (hc : Good c) : Good (backspace c) := by
  have hw := hc.wide
  have hs := hc.cols
  have hx := hc.cursorX
  have hy := hc.cursorY
  have hi : int32 (c.cursorX-1) = c.cursorX-1 := int32_of (by omega) (by omega)
  simp only [backspace]
  split
  · split
    · exact drawc_good (hc.moveTo ⟨by omega,by omega⟩ ⟨by omega,by omega⟩) (Int.le_refl _)
    · exact drawc_good (hc.column ⟨by omega,by omega⟩) hw
  · exact drawc_good (hc.column ⟨by omega,by omega⟩) (by simp only []; omega)

theorem consolePrintChar_good (b : UInt8) (hc : Good c) : Good (consolePrintChar b c) := by
  have hw := hc.wide
  unfold consolePrintChar
  split_ifs
  · exact hc
  · exact backspace_good hc
  · exact printGlyphs_good _ c hc
  · obtain ⟨hn,-,hnw⟩ := newRow_good hc
    exact hn.column ⟨Int.le_refl _,by rw [hnw]; omega⟩
  · exact hc.column ⟨Int.le_refl _,by omega⟩
  · exact printGlyph_good hc

end Routines

/-- The window that `consoleSetWindow` is asked for has a tile and lies in the console. -/
def Legal : Event → Console → Prop
  | .byte _, _ => True
  | .window x y width height, c => 1 ≤ width.toNat ∧ 1 ≤ height.toNat ∧
      max x.toNat 1+width.toNat ≤ c.cols+1 ∧ max y.toNat 1+height.toNat ≤ c.rows+1

instance (e : Event) (c : Console) : Decidable (Legal e c) :=
  match e with
  | .byte _ => inferInstanceAs (Decidable True)
  | .window _ _ _ _ => inferInstanceAs (Decidable (_ ∧ _))

def SavedFits (c : Console) : Prop :=
  (1 ≤ c.prevCursorX ∧ c.prevCursorX ≤ c.window.width+1) ∧
    1 ≤ c.prevCursorY ∧ c.prevCursorY ≤ c.window.height

instance (c : Console) : Decidable (SavedFits c) := inferInstanceAs (Decidable (_ ∧ _))

/-- What a command needs: a number of steps that is not negative and does not
carry the cursor over the largest `int`, and a saved position that fits. -/
def CommandSafe (b : UInt8) (c : Console) : Prop :=
  (b = 65 ∨ b = 68 → 0 ≤ steps c) ∧
  (b = 66 → 0 ≤ steps c ∧ c.cursorY+steps c < 2147483648) ∧
  (b = 67 → 0 ≤ steps c ∧ c.cursorX+steps c < 2147483648) ∧
  (b = 117 → SavedFits c)

instance (b : UInt8) (c : Console) : Decidable (CommandSafe b c) :=
  inferInstanceAs (Decidable (_ ∧ _))

def Safe : Event → Console → Prop
  | .byte b, c => c.state = .building → CommandSafe b c
  | .window _ _ _ _, _ => True

instance (e : Event) (c : Console) : Decidable (Safe e c) :=
  match e with
  | .byte _ => inferInstanceAs (Decidable (_ → _))
  | .window _ _ _ _ => inferInstanceAs (Decidable True)

section Commands

variable {c : Console}

theorem int32_lt (x : ℤ) : int32 x < 2147483648 := by
  unfold int32
  omega

theorem steps_lt (hc : Good c) : steps c < 2147483648 := by
  unfold steps
  split
  · decide
  · exact hc.args 0

variable {p n m : ℤ} {b : UInt8}

theorem back_within (hp : 1 ≤ p ∧ p ≤ m) (hm : m ≤ 268435456) (hn : 0 ≤ n) (h : n < 2147483648) :
    1 ≤ (if int32 (p-n) < 1 then 1 else int32 (p-n)) ∧
      (if int32 (p-n) < 1 then 1 else int32 (p-n)) ≤ m := by
  rw [int32_of (by omega) (by omega)]
  split <;> omega

theorem forward_within (hp : 1 ≤ p) (hm : 1 ≤ m) (hn : 0 ≤ n) (h : p+n < 2147483648) :
    1 ≤ (if m < int32 (p+n) then m else int32 (p+n)) ∧
      (if m < int32 (p+n) then m else int32 (p+n)) ≤ m := by
  rw [int32_of (by omega) (by omega)]
  split <;> omega

theorem command_good (hc : Good c) (hs : CommandSafe b c) : Good (command b c) := by
  have hw := hc.wide
  have hcols := hc.cols
  have hrows := hc.rows
  have hn := steps_lt hc
  obtain ⟨hback,hdown,hright,hload⟩ := hs
  unfold command
  split_ifs with hA hB hC hD hH hJ hK hs hu hm
  · exact hc.row (back_within hc.cursorY (by omega) (hback (.inl hA)) hn)
  · exact hc.row (forward_within hc.cursorY.1 hc.high (hdown hB).1 (hdown hB).2)
  · have hx := forward_within hc.cursorX.1 hw (hright hC).1 (hright hC).2
    exact hc.column ⟨hx.1,Int.le_trans hx.2 (by omega)⟩
  · exact hc.column (back_within hc.cursorX (by omega) (hback (.inr hD)) hn)
  · exact consolePosition_good _ _ hc
  · exact consoleCls_good _ hc
  · exact consoleClearLine_good _ hc
  · exact hc.saved _ _
  · exact hc.moveTo (hload hu).1 (hload hu).2
  · exact hc.parsed c.state c.args 0 c.hasArg hc.args
  · exact hc

theorem digit_good (b : UInt8) (hc : Good c) : Good (digit b c) := by
  apply hc.parsed c.state
  intro i
  by_cases hi : i = c.argIdx
  · rw [hi, update_self]
    exact int32_lt _
  · rw [update_of_ne hi]
    exact hc.args i

theorem writeByte_good (hc : Good c) (hs : Safe (.byte b) c) : Good (writeByte b c) := by
  unfold writeByte
  split
  · split
    · exact hc.parsed .start c.args c.argIdx c.hasArg hc.args
    · exact consolePrintChar_good b hc
  · split
    · exact hc.parsed .building (fun _ => 0) 0 false (fun _ => by decide)
    · have hp := consolePrintChar_good b (consolePrintChar_good 27 hc)
      exact hp.parsed .none _ _ _ hp.args
  · rename_i hstate
    split_ifs
    · exact digit_good b hc
    · exact hc.parsed c.state c.args _ false hc.args
    · have hd := command_good hc (hs hstate)
      exact hd.parsed .none _ _ _ hd.args

theorem setWindow_good {x y width height : UInt32} (hc : Good c)
    (hl : Legal (.window x y width height) c) : Good (setWindow x y width height c) := by
  have hcols := hc.cols
  have hrows := hc.rows
  obtain ⟨hw,hh,hx,hy⟩ := hl
  have hx0 : (if x.toNat = 0 then 1 else x.toNat) = max x.toNat 1 := by split <;> omega
  have hy0 : (if y.toNat = 0 then 1 else y.toNat) = max y.toNat 1 := by split <;> omega
  simp only [setWindow, hx0, hy0]
  split
  · exact hc
  · split
    · exact hc
    · -- the sums do not wrap, so nothing is cut off
      rw [if_neg (by omega), if_neg (by omega), int32_of (by omega) (by omega),
        int32_of (by omega) (by omega)]
      exact ⟨by simp only []; omega,by simp only []; omega,⟨by simp only []; omega,hcols.2⟩,
        ⟨by simp only []; omega,hrows.2⟩,⟨Int.le_refl _,by simp only []; omega⟩,
        ⟨Int.le_refl _,by simp only []; omega⟩,hc.tabSize,hc.args,hc.painted⟩

end Commands

theorem init_good {xres yres : ℕ} (hx : 8 ≤ xres ∧ xres < 2147483648)
    (hy : 16 ≤ yres ∧ yres < 65536) : Good (init xres yres) := by
  apply clear_good
  constructor <;> simp only [] <;> first | omega | exact fun _ => by decide | simp

theorem step_good (e : Event) (c c' : Console) (hc : Good c) (ho : Legal e c ∧ Safe e c)
    (h : step e c = some c') : Good c' := by
  cases e with
  | byte b =>
    obtain rfl : writeByte b c = c' := Option.some.inj h
    exact writeByte_good hc ho.2
  | window x y width height =>
    obtain rfl : setWindow x y width height c = c' := Option.some.inj h
    exact setWindow_good hc ho.1

/-- In every run of bytes and window changes whose steps meet the condition, the
cursor is in the window and all tiles were written inside the window of their time. -/
theorem console_confined {xres yres : ℕ} (hx : 8 ≤ xres ∧ xres < 2147483648)
    (hy : 16 ≤ yres ∧ yres < 65536) {c : Console}
    (h : Reach step (fun e c => Legal e c ∧ Safe e c) (init xres yres) c) : Confined c := by
  have hc : Good c := reach_invariant (init_good hx hy) step_good h
  exact ⟨⟨hc.cursorX.1,hc.cursorX.2,hc.cursorY.1,hc.cursorY.2⟩,hc.painted⟩

def bytes (l : List UInt8) : List Event := l.map .byte

/-- In a window of three columns and two rows a position is saved, the text wraps and
scrolls, and the position is restored. -/
theorem console_confined_small : ∃ c : Console,
    Reach step (fun e c => Legal e c ∧ Safe e c) (init 640 480) c ∧ Confined c ∧
      (c.cursorX,c.cursorY) = (2,1) := by
  have hrun : (runChecked step (fun e c => decide (Legal e c ∧ Safe e c))
      (.window 5 6 3 2::bytes [65,27,91,115,66,67,68,69,9,10,70,27,91,117]) (init 640 480)).any
        (fun c => decide ((c.cursorX,c.cursorY) = (2,1))) = true := by decide +kernel
  obtain ⟨c,hr,hd⟩ : ∃ c, Reach step (fun e c => Legal e c ∧ Safe e c) (init 640 480) c ∧ _ :=
    run_reaches (fun e c h => of_decide_eq_true h) hrun
  exact ⟨c,hr,console_confined (by decide) (by decide) hr,hd⟩

/-- A position saved in the full window is restored in a window of ten columns and five
rows, and a backspace then draws outside of it. -/
theorem saved_position_leaves_window : ∃ c : Console,
    Reach step Legal (init 640 480) c ∧ (c.cursorX,c.cursorY) = (79,30) ∧
      c.window = ⟨1,1,10,5⟩ ∧ c.painted.head? = some (⟨79,30,1,1⟩,⟨1,1,10,5⟩) ∧ ¬ Confined c := by
  have hrun : (runChecked step (fun e c => decide (Legal e c))
      (bytes [27,91,51,48,59,56,48,72,27,91,115]++.window 1 1 10 5::bytes [27,91,117,8])
      (init 640 480)).any
        (fun c => decide ((c.cursorX,c.cursorY) = (79,30) ∧ c.window = ⟨1,1,10,5⟩ ∧
          c.painted.head? = some (⟨79,30,1,1⟩,⟨1,1,10,5⟩) ∧ ¬ Confined c)) = true := by
    decide +kernel
  exact run_reaches (fun e c h => of_decide_eq_true h) hrun

end Libogc.TerminalBounds
