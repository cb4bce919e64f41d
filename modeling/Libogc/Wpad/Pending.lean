import Mathlib.Data.List.Chain

/-!
# The button reports of a Wii Remote

`WPAD_ReadPending` reads the events that wait on a channel and reports of each
button only the first change, so a button that has changed more than once is
reported in an old state.
-/

set_option autoImplicit false

namespace Libogc.WpadPending
open List

structure Buttons where
  btnsH : BitVec 32
  btnsL : BitVec 32
  btnsD : BitVec 32
  btnsU : BitVec 32
  deriving DecidableEq, Repr

structure Scan where
  btnsP : BitVec 32
  btnsNh : BitVec 32
  btnsEv : BitVec 32

/-- One event in the loop, of which only the held buttons count. -/
def turn (t : Scan) (btnsH : BitVec 32) : Scan :=
  let btnsCh := (btnsH ^^^ t.btnsP) &&& ~~~t.btnsEv
  ⟨btnsH,(t.btnsNh &&& ~~~btnsCh) ||| (btnsH &&& btnsCh),t.btnsEv ||| btnsCh⟩

/-- `WPAD_ReadPending`, with the held buttons of each event that
`WPAD_ReadEvent` returns before it fails. -/
def readPending (events : List (BitVec 32)) (s : Buttons) : Buttons :=
  let t := events.foldl turn ⟨s.btnsH,s.btnsH,0⟩
  ⟨t.btnsNh,s.btnsH,t.btnsNh &&& ~~~s.btnsH,~~~t.btnsNh &&& s.btnsH⟩

def reports : List (List (BitVec 32)) → Buttons → List Buttons
  | [], _ => []
  | events::batches, s => readPending events s::reports batches (readPending events s)

/-- What a report says of a button: down, up or nothing. -/
def change (i : ℕ) (s : Buttons) : Option Bool :=
  if s.btnsD.getLsbD i then some true else if s.btnsU.getLsbD i then some false else none

variable {l : BitVec 32} {t : Scan} {seen : Bool} {i : ℕ}

structure Scanned (l : BitVec 32) (i : ℕ) (seen : Bool) (t : Scan) : Prop where
  ev : t.btnsEv.getLsbD i = seen
  nh : t.btnsNh.getLsbD i = (l.getLsbD i ^^ seen)
  p : seen = false → t.btnsP.getLsbD i = l.getLsbD i

theorem turn_scanned (hi : i < 32) (h : Scanned l i seen t) (e : BitVec 32) :
    Scanned l i (seen || (e.getLsbD i ^^ l.getLsbD i)) (turn t e) := by
  cases seen with
  | false =>
    have hp := h.p rfl
    constructor <;> grind [turn, h.ev, h.nh]
  | true => constructor <;> grind [turn, h.ev, h.nh]

theorem turns_scanned (hi : i < 32) (events : List (BitVec 32)) (h : Scanned l i seen t) :
    Scanned l i (seen || events.any (fun e => e.getLsbD i ^^ l.getLsbD i))
      (events.foldl turn t) := by
  induction events generalizing seen t with
  | nil => simpa using h
  | cons e events ih => simpa [Bool.or_assoc] using ih (turn_scanned hi h e)

section Reports

variable (hi : i < 32) (s : Buttons)
include hi

theorem readPending_held (events : List (BitVec 32)) : (readPending events s).btnsH.getLsbD i =
    (s.btnsH.getLsbD i ^^ events.any (fun e => e.getLsbD i ^^ s.btnsH.getLsbD i)) := by
  have h : Scanned s.btnsH i false ⟨s.btnsH,s.btnsH,0⟩ := ⟨by simp,by simp,fun _ => rfl⟩
  have hn := (turns_scanned hi events h).nh
  rwa [Bool.false_or] at hn

theorem readPending_down (events : List (BitVec 32)) : (readPending events s).btnsD.getLsbD i =
    ((readPending events s).btnsH.getLsbD i && !s.btnsH.getLsbD i) := by
  simp [readPending, hi]

theorem readPending_up (events : List (BitVec 32)) : (readPending events s).btnsU.getLsbD i =
    (!(readPending events s).btnsH.getLsbD i && s.btnsH.getLsbD i) := by
  simp [readPending, hi]

theorem change_eq (events : List (BitVec 32)) : change i (readPending events s) =
    if (readPending events s).btnsH.getLsbD i = s.btnsH.getLsbD i then none
    else some ((readPending events s).btnsH.getLsbD i) := by
  rw [change, readPending_down hi, readPending_up hi]
  cases s.btnsH.getLsbD i <;> cases (readPending events s).btnsH.getLsbD i <;> rfl

theorem reports_alternate (batches : List (List (BitVec 32))) :
    ((reports batches s).filterMap (change i)).IsChain (· ≠ ·) ∧
      ∀ b ∈ ((reports batches s).filterMap (change i)).head?, s.btnsH.getLsbD i ≠ b := by
  induction batches generalizing s with
  | nil => simp [reports]
  | cons events batches ih =>
    obtain ⟨hchain,hhead⟩ := ih (readPending events s)
    rw [reports, filterMap_cons, change_eq hi]
    split_ifs with h
    · exact ⟨hchain,h ▸ hhead⟩
    · exact ⟨isChain_cons.mpr ⟨hhead,hchain⟩,by simpa using Ne.symm h⟩

end Reports

/-- A button is reported in another state exactly if an event of the batch has
it in that state, the masks say which way, and the reports alternate. -/
theorem first_change_reported (s : Buttons) (events : List (BitVec 32)) (i : Fin 32) :
    ((readPending events s).btnsH.getLsbD i ≠ s.btnsH.getLsbD i ↔
      ∃ e ∈ events, e.getLsbD i ≠ s.btnsH.getLsbD i) ∧
    ((readPending events s).btnsD.getLsbD i = true ↔
      (readPending events s).btnsH.getLsbD i = true ∧ s.btnsH.getLsbD i = false) ∧
    ((readPending events s).btnsU.getLsbD i = true ↔
      (readPending events s).btnsH.getLsbD i = false ∧ s.btnsH.getLsbD i = true) ∧
    ∀ batches, ((reports batches s).filterMap (change i)).IsChain (· ≠ ·) := by
  refine ⟨?_,?_,?_,fun batches => (reports_alternate i.isLt s batches).1⟩
  · rw [readPending_held i.isLt]
    cases s.btnsH.getLsbD i <;> simp
  · rw [readPending_down i.isLt, Bool.and_eq_true, Bool.not_eq_true']
  · rw [readPending_up i.isLt, Bool.and_eq_true, Bool.not_eq_true']

end Libogc.WpadPending
