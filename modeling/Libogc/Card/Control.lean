import Libogc.Card.Layout

/-!
# Control block and device commands

The control block of one slot with the EXI channel and the card behind it.
Callbacks are called last by every function that calls one, so they are kept
as a stack of calls to come. What the surroundings answer to a function is in
an environment that is supplied with each step.
-/

set_option autoImplicit false

namespace Libogc.CardControl
open ByteStore CardLayout

inductive Cb
  | user (n : ℕ) | default | sync | detach
  | write | erase | read | delete | format | blockWrite | blockRead
  | unlocked | fatWrite | dirWrite | fatErase | dirErase | createFat
  deriving DecidableEq

inductive Ptr
  | work (k o : ℕ)
  | user (a : ℕ)
  deriving DecidableEq

def Ptr.add (n : ℕ) : Ptr → Ptr
  | .work k o => .work k (o+n)
  | .user a => .user (a+n)

inductive Op
  | none | erase | page | segment
  deriving DecidableEq

structure Command where
  op : Op
  addr : ℕ
  deriving DecidableEq

structure CardFile where
  chn : ℤ
  filenum : ℤ
  offset : ℤ
  len : ℤ
  iblock : ℕ

inductive Holder
  | card | other
  deriving DecidableEq

/-- An entry of the channel's `lckd_dev` queue. Another user's callback takes
the channel at once, or leaves it. -/
inductive Waiter
  | card
  | other (takes : Bool)
  deriving DecidableEq

inductive Work
  | erase (addr : ℕ)
  | program (addr : ℕ) (data : Bytes)

structure Card where
  geo : Geometry
  attached : Bool
  result : ℤ
  work : ℕ → Bytes
  currDir : ℕ
  currFat : ℕ
  cmd : Command
  cmdBlckCnt : ℕ
  cmdSectorAddr : ℕ
  cmdUsrBuf : Ptr
  cmdRetries : ℕ
  formatStep : ℕ
  currFileblock : ℕ
  currFile : ℕ
  extCb : Option Cb
  txCb : Option Cb
  exiCb : Option Cb
  apiCb : Option Cb
  xferCb : Option Cb
  eraseCb : Option Cb
  unlockCb : Option Cb
  file : ℕ → CardFile
  mem : Bytes
  gamecode : Bytes
  company : Bytes
  lock : Option Holder
  waiters : List Waiter
  selected : Bool
  dma : Option (Command × Ptr)
  alarm : Bool
  exiHandler : Bool
  armed : Option Work
  flash : Bytes
  pending : List (Cb × ℤ)
  issued : List Command
  failed : Bool
  calls : List (ℕ × ℤ)

/-- Answers of the surroundings: `EXI_ImmEx` and `EXI_Dma` accept a transfer,
the probe line of the card, the same when a waiting handler is run, the time. -/
structure Env where
  imm : Bool
  dma : Bool
  probe : Bool
  woken : Bool
  now : ℕ

def fine (now : ℕ) : Env := ⟨true,true,true,true,now⟩

def setWork (k : ℕ) (b : Bytes) (s : Card) : Card :=
  { s with work := Function.update s.work k b }

def dir (s : Card) : Bytes := s.work s.currDir

def fat (s : Card) : Bytes := s.work s.currFat

def setDir (d : Bytes) (s : Card) : Card := setWork s.currDir d s

def setFat (f : Bytes) (s : Card) : Card := setWork s.currFat f s

def getBytes (s : Card) : Ptr → Bytes
  | .work k o => bytesAt (s.work k) o
  | .user a => bytesAt s.mem a

def putBytes (s : Card) (p : Ptr) (src : Bytes) (n : ℕ) : Card :=
  match p with
  | .work k o => setWork k (blit src 0 o n (s.work k)) s
  | .user a => { s with mem := blit src 0 a n s.mem }

def chnOk (chn : ℤ) : Bool := decide (0 ≤ chn ∧ chn < 2)

def putCntrlBlock (ret : ℤ) (s : Card) : Card :=
  if s.attached then { s with result := ret }
  else if s.result = errorBusy then { s with result := ret } else s

def getCntrlBlock (chn : ℤ) (s : Card) : ℤ × Card :=
  if !chnOk chn then (errorFatal, s)
  else if !s.attached then (errorNoCard, s)
  else if s.result ≠ errorBusy then (errorReady, { s with result := errorBusy, apiCb := none })
  else (errorBusy, s)

def taken (s : Card) : Card := { s with result := errorBusy, apiCb := none }

theorem getCntrlBlock_taken {chn : ℤ} {s : Card} (hc : chnOk chn = true) (hat : s.attached = true)
    (hr : s.result ≠ errorBusy) : getCntrlBlock chn s = (errorReady,taken s) := by
  rw [getCntrlBlock, if_neg (by simp [hc]), if_neg (by simp [hat]), if_pos hr]
  rfl

theorem getCntrlBlock_cases (chn : ℤ) (s : Card) : (∃ ret < 0, getCntrlBlock chn s = (ret,s)) ∨
      chnOk chn = true ∧ s.attached = true ∧ s.result ≠ errorBusy ∧
        getCntrlBlock chn s = (errorReady,taken s) := by
  unfold getCntrlBlock
  split
  · exact .inl ⟨errorFatal,by decide,rfl⟩
  · split
    · exact .inl ⟨errorNoCard,by decide,rfl⟩
    · split
      · rename_i h1 h2 h3
        exact .inr ⟨by simpa using h1,by simpa using h2,h3,rfl⟩
      · exact .inl ⟨errorBusy,by decide,rfl⟩

def later (cb : Option Cb) (ret : ℤ) (s : Card) : Card :=
  match cb with
  | none => s
  | some cb => { s with pending := s.pending++[(cb,ret)] }

def unlockedHandler (probe : Bool) (s : Card) : Card :=
  later s.unlockCb (if probe then errorReady else errorNoCard) { s with unlockCb := none }

/-- `EXI_Lock`, by a caller that wants to be told or by one that does not. -/
def exiLock (tell : Bool) (s : Card) : Bool × Card :=
  match s.lock with
  | none => (true, { s with lock := some .card })
  | some _ =>
    if tell && decide (s.waiters.length < 32) then
      (false, { s with waiters := s.waiters++[.card] })
    else (false, s)

def exiWake (probe : Bool) (s : Card) : Card :=
  match s.waiters with
  | [] => s
  | .other true::ws => { s with waiters := ws, lock := some .other }
  | .other false::ws => { s with waiters := ws }
  | .card::ws => unlockedHandler probe { s with waiters := ws }

def exiUnlock (probe : Bool) (s : Card) : Card :=
  match s.lock with
  | none => s
  | some _ => exiWake probe { s with lock := none }

def exiSelect (e : Env) (s : Card) : Option Card :=
  if s.selected then none
  else if !s.attached && !e.probe then none
  else some { s with selected := true }

/-- `EXI_Deselect` and `EXI_Unlock`. -/
def letGo (e : Env) (s : Card) : Card := exiUnlock e.woken { s with selected := false }

def setupTimeout (s : Card) : Card :=
  { s with alarm := decide (s.cmd.op = .erase ∨ s.cmd.op = .page) }

def issue (s : Card) : Card := { s with issued := s.issued++[s.cmd] }

def eraseIssued (s : Card) : Card := { issue s with armed := some (.erase s.cmd.addr) }

def dmaIssued (s : Card) : Card := { issue s with dma := some (s.cmd,s.cmdUsrBuf) }

def retry (e : Env) (s : Card) : ℤ × Card :=
  match exiSelect e s with
  | none => (errorNoCard, exiUnlock e.woken s)
  | some s =>
    let s := setupTimeout s
    if !e.imm then (errorNoCard, letGo e s)
    else if s.cmd.op = .erase then (errorReady, letGo e (eraseIssued s))
    else if !e.dma then (errorNoCard, letGo e s)
    else (errorReady, dmaIssued s)

def start (txCb exiCb : Option Cb) (e : Env) (s : Card) : ℤ × Card :=
  let s := { s with
    txCb := txCb.or s.txCb, exiCb := exiCb.or s.exiCb, unlockCb := some .unlocked }
  match exiLock true s with
  | (false, s) => (errorBusy, s)
  | (true, s) =>
    let s := { s with unlockCb := none }
    match exiSelect e s with
    | none => (errorNoCard, exiUnlock e.woken s)
    | some s => (errorReady, setupTimeout s)

/-- The ghost note that a command did not start. -/
def noted (r : ℤ × Card) : ℤ × Card :=
  if r.1 < 0 then (r.1, { r.2 with failed := true }) else r

def sectorEraseRaw (sector : ℕ) (cb : Cb) (e : Env) (s : Card) : ℤ × Card :=
  if sector%s.geo.sector ≠ 0 then (errorFatal, s)
  else
    match start none (some cb) e
      { s with cmd := ⟨.erase,sector/512*512%16777216⟩, cmdRetries := 3 } with
    | (ret, s) =>
      if ret < 0 then (ret, s)
      else if !e.imm then (errorNoCard, { s with exiCb := none })
      else (ret, letGo e (eraseIssued s))

def writePageRaw (cb : Cb) (e : Env) (s : Card) : ℤ × Card :=
  match start none (some cb) e
    { s with cmd := ⟨.page,s.cmdSectorAddr%16777216⟩, cmdRetries := 3 } with
  | (ret, s) =>
    if ret < 0 then (ret, s)
    else if e.imm && e.dma then (errorReady, dmaIssued s)
    else (errorNoCard, letGo e { s with exiCb := none })

def readSegmentRaw (cb : Cb) (e : Env) (s : Card) : ℤ × Card :=
  match start (some cb) none e
    { s with cmd := ⟨.segment,s.cmdSectorAddr%16777216⟩, cmdRetries := 0 } with
  | (ret, s) =>
    if ret < 0 then (ret, s)
    else if e.imm && e.dma then (errorReady, dmaIssued s)
    else (errorNoCard, letGo e { s with txCb := none })

def sectorErase (sector : ℕ) (cb : Cb) (e : Env) (s : Card) : ℤ × Card :=
  noted (sectorEraseRaw sector cb e s)

def writePage (cb : Cb) (e : Env) (s : Card) : ℤ × Card := noted (writePageRaw cb e s)

def readSegment (cb : Cb) (e : Env) (s : Card) : ℤ × Card := noted (readSegmentRaw cb e s)

def cardWrite (address len : ℕ) (buffer : Ptr) (cb : Cb) (e : Env) (s : Card) : ℤ × Card :=
  if !s.attached then (errorNoCard, s)
  else writePage .blockWrite e { s with
    cmdBlckCnt := len/128, cmdSectorAddr := address, cmdUsrBuf := buffer, xferCb := some cb }

def cardRead (address len : ℕ) (buffer : Ptr) (cb : Cb) (e : Env) (s : Card) : ℤ × Card :=
  readSegment .blockRead e { s with
    cmdSectorAddr := address, cmdBlckCnt := len/512, cmdUsrBuf := buffer, xferCb := some cb }

end Libogc.CardControl
