import Mathlib.Data.Int.Notation
import Mathlib.Data.Nat.Notation
import Mathlib.Logic.Function.Basic

/-!
# The DVD command machine

`dvd.c` runs one command block after the other through a set of state
functions that are called from the interrupt of the drive, from the timeout
alarm and from `__issuecommand`. A block is its address. A callback of a block
is a point at which the program runs: the machine stops there with the dummy
block as the executing one, and goes on when the callback returns. A call that
a state function makes last, through a pointer to a callback, is a step of its
own. `__dvd_canceling`, `__dvd_resumefromhere`, `__dvd_cancelcallback` and the
command list are never set, so what depends on them is left out. `issued`,
`started` and `called` record what happened; no function reads them.
-/

set_option autoImplicit false

namespace Libogc.DvdMachine
open Function

def diskIdSize : ℕ := 32

def u32 (n : ℕ) : ℕ := n % 4294967296

def sub32 (m n : ℕ) : ℕ := (BitVec.ofNat 32 m-BitVec.ofNat 32 n).toNat

def s32 (n : ℕ) : ℤ := (BitVec.ofNat 32 n).toInt

/-- The `dvdcallbacklow` functions. -/
inductive LowCb where
  | busy
  | retry
  | unrecoveredErrorRetry
  | unrecoveredError
  | error
  | gettingError
  | motorStopped
  | coverClosed
  | checkId1
  | gotoRetry
  | cntrlDrive
  | setGcmOffset
  | handleSpinup
  | fwPatch
  | checkAddons
  | spinupDrive
  | coverClosedSpinup
  | patchDrive
  | unlockDrive
  deriving DecidableEq, Repr

/-- The `dvdstatecb` functions that `__dvd_laststate` is set to. -/
inductive LastState where
  | busy
  | coverClosedCmd
  deriving DecidableEq, Repr

structure Block where
  cmd : ℕ
  state : ℤ
  offset : ℕ
  len : ℕ
  buf : ℕ
  currtxsize : ℕ
  txdsize : ℕ
  deriving DecidableEq, Repr

inductive Exec where
  | idle
  | dummy
  | block (b : ℕ)
  deriving DecidableEq, Repr

inductive DiKind where
  | sector
  | diskId
  | inquiry
  deriving DecidableEq, Repr

/-- A DMA command: the buffer of a block or one of the library, the offset in
words, the length. -/
structure Di where
  kind : DiKind
  target : Option ℕ
  word : ℕ
  len : ℕ
  deriving DecidableEq, Repr

/-- The date of the drive: one of those with patch code, one that leaves the
patch code as it was, or another one. -/
inductive Model where
  | known
  | kept
  | unknown
  deriving DecidableEq, Repr

/-- The result bits of an interrupt (completion, device error, cover, break),
the register with the answer, the bytes that were moved, whether the disk ID is
that of the mounted disk, and the drive's date as far as it was read. -/
structure Irq where
  tc : Bool
  de : Bool
  cvr : Bool
  brk : Bool
  imm : BitVec 32
  moved : ℕ
  same : Bool
  model : Model
  deriving DecidableEq, Repr

/-- `result==0x0001`. -/
def Irq.done (r : Irq) : Bool := r.tc && !r.de && !r.cvr && !r.brk

/-- `result==0x0002`. -/
def Irq.failed (r : Irq) : Bool := r.de && !r.tc && !r.cvr && !r.brk

/-- The argument of a direct call with `0x0001`. -/
def direct : Irq := ⟨true,false,false,false,0,0,true,.unknown⟩

structure Call where
  blk : ℕ
  result : ℤ
  state : ℤ
  deriving DecidableEq, Repr

structure Dvd where
  executing : Exec
  queue : ℕ → List ℕ
  blk : ℕ → Block
  callback : Option LowCb
  tail : Option LowCb
  currcmd : ℕ
  fatalerror : Bool
  lasterror : BitVec 32
  internalretries : ℕ
  autofinishing : Bool
  drivechecked : Bool
  chipPresent : Bool
  interoper : Bool
  driveReset : Bool
  laststate : Option LastState
  finalunlockcb : Option LowCb
  finalsudcb : Option LowCb
  finaladdoncb : Option LowCb
  finalpatchcb : Option LowCb
  finaloffsetcb : Option LowCb
  spinStep : ℕ
  patchStep : ℕ
  patchCode : Bool
  stage : ℕ
  nPos : ℕ
  alarm : Bool
  masked : Bool
  di : Option Di
  dmaLen : ℕ
  mem : ℕ → BitVec 8
  issued : List (ℕ × ℕ)
  started : List (ℕ × ℕ)
  called : List Call

/-! The commands of the drive. -/

section Low

def lowStart (cb : Option LowCb) (armed : Bool) (di : Option Di) (s : Dvd) : Dvd :=
  { s with
    callback := cb
    alarm := s.alarm || armed
    di := di
    dmaLen := (di.map Di.len).getD s.dmaLen }

def lowRead (buf len offset : ℕ) (cb : LowCb) : Dvd → Dvd :=
  lowStart (some cb) true (some ⟨.sector,some buf,u32 (offset/4),len⟩)

def lowReadId (buf : Option ℕ) (cb : LowCb) : Dvd → Dvd :=
  lowStart (some cb) true (some ⟨.diskId,buf,0,diskIdSize⟩)

def lowInquiry (buf : Option ℕ) (cb : LowCb) : Dvd → Dvd :=
  lowStart (some cb) true (some ⟨.inquiry,buf,0,32⟩)

/-- `DVD_LowSeek`, `DVD_LowRequestError`, `DVD_LowStopMotor`,
`DVD_LowAudioStream`, `DVD_LowAudioBufferConfig`, `DVD_LowRequestAudioStatus`. -/
def lowTimed (cb : LowCb) : Dvd → Dvd := lowStart (some cb) true none

/-- `DVD_LowSetOffset`, `DVD_LowFuncCall`, `DVD_LowSpinMotor`,
`DVD_LowEnableExtensions`, `DVD_LowSetStatus`, `DVD_LowWaitCoverClose`. -/
def lowPlain (cb : Option LowCb) : Dvd → Dvd := lowStart cb false none

def lowUnlockDrive (cb : LowCb) (s : Dvd) : Dvd :=
  lowPlain (some .unlockDrive) { s with finalunlockcb := some cb }

def lowControlMotor (cb : LowCb) (s : Dvd) : Dvd :=
  lowUnlockDrive .cntrlDrive { s with finalsudcb := some cb }

def lowSetGCMOffset (cb : LowCb) (s : Dvd) : Dvd :=
  lowUnlockDrive .setGcmOffset { s with finaloffsetcb := some cb }

def lowSpinUpDrive (cb : LowCb) (s : Dvd) : Dvd :=
  { s with finalsudcb := some cb, tail := some .spinupDrive }

/-- `DVD_Reset`, with or without `DVD_LowReset`. -/
def dvdReset (low : Bool) (s : Dvd) : Dvd :=
  { s with interoper := false, chipPresent := false, driveReset := low, internalretries := 0 }

end Low

/-! The states. -/

section States

def setBlk (b : ℕ) (k : Block) (s : Dvd) : Dvd := { s with blk := update s.blk b k }

def setState (b : ℕ) (x : ℤ) (s : Dvd) : Dvd := setBlk b { s.blk b with state := x } s

def setSize (b n : ℕ) (s : Dvd) : Dvd := setBlk b { s.blk b with currtxsize := n } s

def transfers (cmd : ℕ) : Bool := cmd == 1 || cmd == 4 || cmd == 5 || cmd == 14

def readChunk (b : ℕ) (s : Dvd) : Dvd :=
  let k := s.blk b
  let len := sub32 k.len k.txdsize
  let n := if len < 524288 then len else 524288
  lowRead (k.buf+k.txdsize) n (k.offset+k.txdsize) .busy (setSize b n s)

def stateBusy (b : ℕ) (s : Dvd) : Dvd :=
  let s := { s with laststate := some .busy }
  match (s.blk b).cmd with
  | 1 => readChunk b s
  | 4 => readChunk b s
  | 2 => lowTimed .busy s
  | 3 => lowTimed .busy s
  | 15 => lowTimed .busy s
  | 5 => lowReadId (some (s.blk b).buf) .busy (setSize b diskIdSize s)
  | 6 => lowTimed .busy (setSize b (if s.autofinishing then 0 else 1) s)
  | 7 => lowTimed .busy s
  | 8 => lowTimed .busy { s with autofinishing := true }
  | 9 => lowTimed .busy s
  | 10 => lowTimed .busy s
  | 11 => lowTimed .busy s
  | 12 => lowTimed .busy s
  | 13 => lowTimed .busy s
  | 14 => lowInquiry (some (s.blk b).buf) .busy (setSize b 32 s)
  | 16 => lowSpinUpDrive .busy { s with lasterror := 0 }
  | 17 => lowControlMotor .busy s
  | 18 => lowSetGCMOffset .busy s
  | _ => s

/-- The dummy block becomes the executing one and the callback is called. -/
def finish (b : ℕ) (result : ℤ) (s : Dvd) : Dvd :=
  { s with executing := .dummy, called := s.called ++ [⟨b,result,(s.blk b).state⟩] }

/-- `__dvd_popwaitingqueue`. -/
def nextPrio (s : Dvd) : Option ℕ := (List.range 4).find? (fun p => !(s.queue p).isEmpty)

def startBlock (b : ℕ) (s : Dvd) : Dvd :=
  if s.fatalerror then finish b (-1) (setState b (-1) s)
  else stateBusy b (setState b 1 { s with executing := .block b, currcmd := (s.blk b).cmd })

def stateReady (s : Dvd) : Dvd :=
  match nextPrio s with
  | none => { s with executing := .idle }
  | some p =>
    match s.queue p with
    | [] => s
    | b::rest => startBlock b { s with
      queue := update s.queue p rest
      started := s.started ++ [(b,p)] }

def stateCoverClosed (b : ℕ) (s : Dvd) : Dvd :=
  if s.currcmd == 4 || s.currcmd == 5 || s.currcmd == 13 || s.currcmd == 15 || s.currcmd == 16 then
    finish b (-4) { s with queue := fun _ => [] }
  else lowSpinUpDrive .coverClosedSpinup s

def stateCoverClosedCmd (s : Dvd) : Dvd := lowReadId none .coverClosed s

def stateMotorStopped (s : Dvd) : Dvd := lowPlain (some .motorStopped) s

def stateError (s : Dvd) : Dvd := lowTimed .error s

def stateGettingError (s : Dvd) : Dvd := lowTimed .gettingError s

def stateGotoRetry (s : Dvd) : Dvd := lowTimed .gotoRetry s

def errorCb (b : ℕ) (s : Dvd) : Dvd := finish b (-1) { s with fatalerror := true }

def stateTimeout (b : ℕ) (s : Dvd) : Dvd := errorCb b (dvdReset true s)

/-- A block with command 3 is not the dummy block. -/
def stateCheckId (b : ℕ) (r : Irq) (s : Dvd) : Dvd :=
  if s.currcmd == 3 then lowTimed .checkId1 s
  else if s.currcmd == 16 then finish b 0 (setState b 0 s)
  else if s.currcmd != 5 && !r.same then finish b (-1) (setState b (-1) s)
  else stateBusy b s

end States

/-! The callbacks of the low level. Without an argument they are called by the
timeout alarm. -/

section Callbacks

def timedOut (b : ℕ) (s : Dvd) : Dvd := stateTimeout b (setState b (-1) s)

def failState (b : ℕ) (s : Dvd) : Dvd := stateError (setState b (-1) s)

def retryCb (b : ℕ) (r : Irq) (s : Dvd) : Dvd :=
  if r.de then stateError s else if r.done then stateBusy b s else s

def unrecoveredErrorCb (r : Irq) (s : Dvd) : Dvd :=
  if r.tc then stateGotoRetry s
  else if r.failed then s
  else lowTimed .unrecoveredErrorRetry s

def statusOf (v : BitVec 32) : BitVec 32 := v >>> 24

def errorOf (v : BitVec 32) : BitVec 32 := v &&& 0xffffff

def unrecoverableRead : BitVec 32 := 0x031100

/-- `DVD_ERROR_MEDIUM_CHANGED`, `DVD_ERROR_MEDIUM_NOT_PRESENT`,
`DVD_ERROR_MEDIUM_CHANGE_REQ`, `0x043100`. -/
def mediumError (e : BitVec 32) : Bool :=
  e == 0x062800 || e == 0x023a00 || e == 0x0B5A01 || e == 0x043100

def categorizeError (b : ℕ) (v : BitVec 32) (s : Dvd) : ℕ × Dvd :=
  if v == 0x020400 then (1,{ s with lasterror := v })
  else if mediumError (errorOf v) then (0,s)
  else
    let n := s.internalretries+1
    let again := n == 2 && s.lasterror == errorOf v
    let s := { s with internalretries := n, lasterror := errorOf v }
    if again then (1,s)
    else if n != 2 && errorOf v != unrecoverableRead && (s.blk b).cmd != 5 then (3,s)
    else (2,s)

def mayRetry (v : BitVec 32) : Bool := statusOf v == 0 || statusOf v == 5

def retryCommand (b : ℕ) (v : BitVec 32) (s : Dvd) : Dvd :=
  if mayRetry v then
    if (s.blk b).cmd == 5 then lowSpinUpDrive .retry { s with lasterror := 0 } else stateBusy b s
  else stateGotoRetry s

def lastState (b : ℕ) (s : Dvd) : Option Dvd :=
  match s.laststate with
  | none => none
  | some .busy => some (stateBusy b s)
  | some .coverClosedCmd => some (stateCoverClosedCmd s)

def mediumState (b : ℕ) (v : BitVec 32) (s : Dvd) : Dvd :=
  if statusOf v == 1 then stateMotorStopped (setState b 5 s)
  else if statusOf v == 2 then stateCoverClosed b (setState b 3 s)
  else if statusOf v == 3 then stateMotorStopped (setState b 4 s)
  else failState b s

def handleError (b : ℕ) (v : BitVec 32) (s : Dvd) : Option Dvd :=
  let c := categorizeError b v s
  match c.1 with
  | 1 => some (failState b c.2)
  | 2 => some (retryCommand b v c.2)
  | 3 =>
    if errorOf v == unrecoverableRead then some (lowTimed .unrecoveredError c.2)
    else lastState b c.2
  | _ => some (mediumState b v c.2)

def gettingErrorCb (b : ℕ) (r : Irq) (s : Dvd) : Option Dvd :=
  if r.de then some (failState b s) else if r.done then handleError b r.imm s else some s

def account (b : ℕ) (s : Dvd) : Dvd :=
  let k := s.blk b
  if transfers s.currcmd then
    setBlk b { k with txdsize := u32 (k.txdsize+sub32 k.currtxsize s.dmaLen) } s
  else s

def busyDone (b : ℕ) (r : Irq) (s : Dvd) : Dvd :=
  let k := s.blk b
  if transfers s.currcmd then
    if k.txdsize != k.len then stateBusy b s else finish b (s32 k.txdsize) (setState b 0 s)
  else if s.currcmd == 9 || s.currcmd == 12 then finish b r.imm.toInt (setState b 0 s)
  else if s.currcmd == 10 || s.currcmd == 11 then finish b (r.imm <<< 2).toInt (setState b 0 s)
  else if s.currcmd == 6 && k.currtxsize == 0 then
    if r.imm.getLsbD 0 then finish b (-2) (setState b 9 s)
    else lowTimed .busy (setSize b 1 { s with autofinishing := false })
  else if s.currcmd == 16 && s.chipPresent then finish b (s32 diskIdSize) (setState b 0 s)
  else finish b 0 (setState b 0 s)

def busyAccounted (b : ℕ) (r : Irq) (s : Dvd) : Dvd :=
  if r.brk then finish b (-3) (setState b 10 s)
  else if r.tc then busyDone b r { s with internalretries := 0 }
  else if r.failed && s.currcmd == 14 then failState b s
  else if r.failed && transfers s.currcmd && (s.blk b).txdsize == (s.blk b).len then
    finish b (s32 (s.blk b).txdsize) (setState b 0 s)
  else stateGettingError s

def stopsMotor (cmd : ℕ) : Bool := cmd == 3 || cmd == 15

def busyCb (b : ℕ) (r : Irq) (s : Dvd) : Dvd :=
  if stopsMotor s.currcmd && r.de then failState b s
  else if stopsMotor s.currcmd && r.done then
    stateMotorStopped (setState b 7 { s with internalretries := 0 })
  else busyAccounted b r (account b s)

def coverClosedCb (b : ℕ) (r : Irq) (s : Dvd) : Dvd :=
  if !r.de && !r.cvr then stateCheckId b r { s with internalretries := 0 }
  else if r.failed then stateGettingError s
  else s

def gotoRetryCb (b : ℕ) (r : Irq) (s : Dvd) : Dvd :=
  if r.de then failState b s
  else if r.done then
    let s := { s with internalretries := 0 }
    if s.currcmd == 4 || s.currcmd == 5 || s.currcmd == 13 || s.currcmd == 15 then
      stateMotorStopped (setState b 11 s)
    else s
  else s

/-- `__dvd_cntrldrivecb` and `__dvd_setgcmoffsetcb` go on with a command whose
callback is that of the caller. -/
def unlockedCb (final : Option LowCb) (r : Irq) (s : Dvd) : Dvd :=
  if r.done then lowPlain final s else stateGettingError s

def callFinal (final : Option LowCb) (s : Dvd) : Option Dvd :=
  final.map (fun cb => { s with tail := some cb })

def handleSpinupCb (r : Irq) (s : Dvd) : Option Dvd :=
  if r.done && s.spinStep == 0 then some (lowPlain (some .handleSpinup) { s with spinStep := 1 })
  else if r.done && s.spinStep == 1
    then some (lowPlain (some .handleSpinup) { s with spinStep := 2 })
  else if r.done && s.spinStep == 2 then
    if s.lasterror == 0 then some (lowPlain s.finalsudcb { s with spinStep := 0 })
    else callFinal s.finalsudcb { s with spinStep := 0 }
  else some (stateGettingError { s with spinStep := 0 })

def patchDriveCb (s : Dvd) : Dvd :=
  if !s.patchCode then s
  else if s.stage == 0 then
    let nPos := min 448 (s.nPos+12)
    lowPlain (some .patchDrive) { s with nPos := nPos, stage := if 448 ≤ nPos then 2 else 1 }
  else if s.stage == 3 then
    lowPlain s.finalpatchcb { s with patchCode := false, interoper := true }
  else lowPlain (some .patchDrive) { s with stage := if s.stage == 1 then 0 else 3 }

def lowPatchDriveCode (m : Model) (s : Dvd) : Dvd :=
  patchDriveCb { s with
    patchCode := match m with
      | .known => true
      | .kept => s.patchCode
      | .unknown => false }

def fwPatchCb (r : Irq) (s : Dvd) : Dvd :=
  if r.done && s.patchStep == 0 then lowUnlockDrive .fwPatch { s with patchStep := 1 }
  else if r.done && s.patchStep == 1 then lowPatchDriveCode r.model { s with patchStep := 0 }
  else stateGettingError { s with patchStep := 0 }

/-- The disk ID was read as a check for a chip, and is read again if a part of
it is missing. -/
def checkAddonsCb (tc : Bool) (s : Dvd) : Dvd :=
  let s := { s with drivechecked := true }
  if tc && s.dmaLen != 0 then lowReadId none .checkAddons s
  else
    { s with
      chipPresent := s.chipPresent || tc
      tail := s.finaladdoncb
      finaladdoncb := none }

def spinupDriveCb (r : Irq) (s : Dvd) : Option Dvd :=
  if !r.done then some (stateGettingError s)
  else if !s.drivechecked then
    some (lowReadId none .checkAddons { s with finaladdoncb := some .spinupDrive })
  else if s.chipPresent then callFinal s.finalsudcb s
  else if s.interoper then some (lowUnlockDrive .handleSpinup s)
  else
    let s := if s.driveReset then s else dvdReset true s
    some (lowInquiry none .fwPatch { s with finalpatchcb := some .spinupDrive })

def lowTimeout (cb : LowCb) (b : ℕ) (s : Dvd) : Dvd :=
  match cb with
  | .busy => timedOut b s
  | .retry => timedOut b s
  | .unrecoveredErrorRetry => timedOut b s
  | .unrecoveredError => timedOut b s
  | .error => timedOut b s
  | .gettingError => timedOut b s
  | .motorStopped => stateCoverClosed b (setState b 3 s)
  | .coverClosed => timedOut b s
  | .checkId1 => s
  | .gotoRetry => timedOut b s
  | .cntrlDrive => stateTimeout b s
  | .setGcmOffset => stateTimeout b s
  | .handleSpinup => stateTimeout b s
  | .fwPatch => stateTimeout b s
  | .checkAddons => checkAddonsCb false s
  | .spinupDrive => stateTimeout b s
  | .coverClosedSpinup => stateCoverClosedCmd { s with laststate := some .coverClosedCmd }
  | .patchDrive => patchDriveCb s
  | .unlockDrive => lowPlain s.finalunlockcb s

def lowCall (cb : LowCb) (b : ℕ) (r : Irq) (s : Dvd) : Option Dvd :=
  match cb with
  | .busy => some (busyCb b r s)
  | .retry => some (retryCb b r s)
  | .unrecoveredErrorRetry => some (failState b s)
  | .unrecoveredError => some (unrecoveredErrorCb r s)
  | .error => some (errorCb b s)
  | .gettingError => gettingErrorCb b r s
  | .motorStopped => some (stateCoverClosed b (setState b 3 s))
  | .coverClosed => some (coverClosedCb b r s)
  | .checkId1 => some s
  | .gotoRetry => some (gotoRetryCb b r s)
  | .cntrlDrive => some (unlockedCb s.finalsudcb r s)
  | .setGcmOffset => some (unlockedCb s.finaloffsetcb r s)
  | .handleSpinup => handleSpinupCb r s
  | .fwPatch => some (fwPatchCb r s)
  | .checkAddons => some (checkAddonsCb r.tc s)
  | .spinupDrive => spinupDriveCb r s
  | .coverClosedSpinup => some (stateCoverClosedCmd { s with laststate := some .coverClosedCmd })
  | .patchDrive => some (patchDriveCb s)
  | .unlockDrive => some (lowPlain s.finalunlockcb s)

end Callbacks

/-! The program and the drive. -/

/-- What the program sets in a block before `__issuecommand`. -/
structure Cmd where
  cmd : ℕ
  offset : ℕ
  len : ℕ
  buf : ℕ
  deriving DecidableEq, Repr

def readDiskID (id : ℕ) : Cmd := ⟨5,0,diskIdSize,id⟩

def readAbsAsyncPrio (buf len offset : ℕ) : Cmd := ⟨1,offset,len,buf⟩

def readAbsAsyncForBS (buf len offset : ℕ) : Cmd := ⟨4,offset,len,buf⟩

def seekAbsAsyncPrio (offset : ℕ) : Cmd := ⟨2,offset,0,0⟩

def inquiryAsync (info : ℕ) : Cmd := ⟨14,0,32,info⟩

def stopStreamAtEndAsync : Cmd := ⟨8,0,0,0⟩

/-- `DVD_SpinUpDriveAsync`, after `DVD_Reset(DVD_RESETNONE)`. -/
def spinUpDriveAsync : Cmd := ⟨16,0,0,0⟩

def controlDriveAsync (cmd : ℕ) : Cmd := ⟨17,cmd,0,0⟩

def setGCMOffsetAsync (offset : ℕ) : Cmd := ⟨18,offset,0,0⟩

def audioBufferConfig (enable size : ℕ) : Cmd := ⟨13,enable,size,0⟩

def push (p b : ℕ) (c : Cmd) (s : Dvd) : Dvd :=
  { s with
    blk := update s.blk b
      ⟨c.cmd,2,c.offset,c.len,c.buf,(s.blk b).currtxsize,0⟩
    queue := update s.queue p (s.queue p ++ [b])
    issued := s.issued ++ [(b,p)] }

def issueCommand (p b : ℕ) (c : Cmd) (s : Dvd) : Dvd :=
  if s.executing = .idle then stateReady (push p b c s) else push p b c s

structure Media where
  disk : ℕ → BitVec 8
  id : ℕ → BitVec 8
  info : ℕ → BitVec 8

def Media.byte (m : Media) (d : Di) (i : ℕ) : BitVec 8 :=
  match d.kind with
  | .sector => m.disk (4*d.word+i)
  | .diskId => m.id i
  | .inquiry => m.info i

def moveData (m : Media) (n : ℕ) (s : Dvd) : Dvd :=
  match s.di with
  | none => s
  | some d =>
    { s with
      di := none
      dmaLen := s.dmaLen-n
      mem := match d.target with
        | none => s.mem
        | some t => fun a => if t ≤ a ∧ a < t+n then m.byte d (a-t) else s.mem a }

inductive Event where
  | issue (p b : ℕ) (c : Cmd)
  | irq (r : Irq)
  | timeout (moved : ℕ)
  | run
  | ret
  | reset (low : Bool)
  deriving DecidableEq, Repr

/-- `__DVDInterruptHandler` takes the callback and calls it. -/
def interrupt (m : Media) (r : Irq) (s : Dvd) : Option Dvd :=
  let s' := { moveData m r.moved s with alarm := false, callback := none }
  match s.callback, s.executing with
  | none, _ => some s'
  | some cb, .block b => lowCall cb b r s'
  | some _, _ => none

/-- `__dvd_timeouthandler` masks the interrupt of the drive for good. -/
def timeoutHandler (m : Media) (n : ℕ) (s : Dvd) : Option Dvd :=
  let s' := { moveData m n s with alarm := false, masked := true }
  match s.callback, s.executing with
  | none, _ => some s'
  | some cb, .block b => some (lowTimeout cb b s')
  | some _, _ => none

def runTail (s : Dvd) : Option Dvd :=
  match s.tail, s.executing with
  | some cb, .block b => lowCall cb b direct { s with tail := none }
  | _, _ => none

/-- A pointer to nothing is followed where the result is `none`. -/
def dvdStep (m : Media) : Event → Dvd → Option Dvd
  | .issue p b c, s => some (issueCommand p b c s)
  | .irq r, s => interrupt m r s
  | .timeout n, s => timeoutHandler m n s
  | .run, s => runTail s
  | .ret, s => some (stateReady s)
  | .reset low, s => some (dvdReset low s)

def waiting (s : Dvd) : List ℕ := s.queue 0 ++ s.queue 1 ++ s.queue 2 ++ s.queue 3

/-- A block is issued when it does not wait and is not executed. Interrupts
come when neither a state function nor a callback runs. -/
def Possible : Event → Dvd → Prop
  | .issue p b _, s => p < 4 ∧ b ∉ waiting s ∧ s.executing ≠ .block b ∧ s.tail = none
  | .irq r, s => s.executing ≠ .dummy ∧ s.tail = none ∧ s.masked = false ∧ r.moved ≤ s.dmaLen
  | .timeout n, s => s.executing ≠ .dummy ∧ s.tail = none ∧ s.alarm = true ∧ n ≤ s.dmaLen
  | .run, s => s.tail ≠ none
  | .ret, s => s.executing = .dummy
  | .reset _, s => s.tail = none

/-- The state after `DVD_Init`. The blocks and the memory hold anything. -/
def dvdInit (blk : ℕ → Block) (mem : ℕ → BitVec 8) : Dvd where
  executing := .idle
  queue _ := []
  blk := blk
  callback := none
  tail := none
  currcmd := 0
  fatalerror := false
  lasterror := 0
  internalretries := 0
  autofinishing := false
  drivechecked := false
  chipPresent := false
  interoper := false
  driveReset := false
  laststate := none
  finalunlockcb := none
  finalsudcb := none
  finaladdoncb := none
  finalpatchcb := none
  finaloffsetcb := none
  spinStep := 0
  patchStep := 0
  patchCode := false
  stage := 0
  nPos := 0
  alarm := false
  masked := false
  di := none
  dmaLen := 0
  mem := mem
  issued := []
  started := []
  called := []

instance (e : Event) (s : Dvd) : Decidable (Possible e s) :=
  match e with
  | .issue _ _ _ => inferInstanceAs (Decidable (_ ∧ _))
  | .irq _ => inferInstanceAs (Decidable (_ ∧ _))
  | .timeout _ => inferInstanceAs (Decidable (_ ∧ _))
  | .run => inferInstanceAs (Decidable (_ ≠ _))
  | .ret => inferInstanceAs (Decidable (_ = _))
  | .reset _ => inferInstanceAs (Decidable (_ = _))

end Libogc.DvdMachine
