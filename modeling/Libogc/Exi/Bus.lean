import Mathlib.Algebra.GroupWithZero.Nat
import Libogc.Tuxedo.InterruptLines
import Libogc.Library.GuardedReach

/-!
# The EXI bus

`exi.c` runs in sections with the interrupts disabled, and each function here
is one such section. What happens between the sections of `EXI_Probe`,
`EXI_GetID` and `EXI_Attach`, and in a callback, is steps of their own. A
channel that is released hands the bus to the first of those that wait for it
by calling back. The nodes of the pool of waiters are not told apart, so the
pool is the number of them. Of the transfers only what the other functions
need is kept.
-/

set_option autoImplicit false

namespace Libogc.ExiBus
open Interrupt InterruptLines

scoped instance threeChannels : NeZero 3 := ⟨by decide⟩

/-- The unlock callbacks: of `EXI_LockSync`, of `EXI_GetID`, and of others. -/
inductive UnlockCb where
  | lockSync
  | unlockedHandler
  | user (cb : ℕ)
  deriving DecidableEq, Repr

structure LckDev where
  dev : Fin 3
  unlockcb : UnlockCb
  deriving DecidableEq, Repr

/-- `present` is the line by which a device shows that it is plugged in. -/
structure Channel where
  select : Bool
  attach : Bool
  locked : Bool
  lockeddev : Fin 3
  callbackExi : Option ℕ
  callbackExt : Option ℕ
  exiId : ℕ
  exiIdtime : ℕ
  lastExiIdtime : ℕ
  lckdDev : List LckDev
  present : Bool
  deriving DecidableEq, Repr

structure Exi where
  chan : Fin 3 → Channel
  pool : ℕ
  debugger : Bool
  hw : Hw

def exiLockDevs : ℕ := 32

def setChan (c : Fin 3) (x : Channel) (s : Exi) : Exi :=
  { s with chan := Function.update s.chan c x }

/-! The control register of a channel. -/

def reg (c : Fin 3) (hw : Hw) : DevReg 32 :=
  match c with
  | 0 => hw.exi0
  | 1 => hw.exi5
  | 2 => hw.exi10

def setReg (c : Fin 3) (r : DevReg 32) (hw : Hw) : Hw :=
  match c with
  | 0 => { hw with exi0 := r }
  | 1 => { hw with exi5 := r }
  | 2 => { hw with exi10 := r }

def readReg (c : Fin 3) (s : Exi) : BitVec 32 := (reg c s.hw).read exiStatus

def writeReg (c : Fin 3) (v : BitVec 32) (s : Exi) : Exi :=
  { s with hw := setReg c ((reg c s.hw).write v) s.hw }

def exiExtIrq : BitVec 32 := 0x0800

def exiClearirqs (c : Fin 3) (exiIrq tcIrq extIrq : Bool) (s : Exi) : Exi :=
  writeReg c ((readReg c s &&& ~~~0x80a) ||| (if exiIrq then 0x2 else 0) |||
    (if tcIrq then 0x8 else 0) ||| (if extIrq then exiExtIrq else 0)) s

def irqEnable (wii : Bool) (mask : BitVec 32) (s : Exi) : Exi :=
  { s with hw := kIrqEnable wii mask s.hw }

def irqDisable (wii : Bool) (mask : BitVec 32) (s : Exi) : Exi :=
  { s with hw := kIrqDisable wii mask s.hw }

def exiSetinterrupts (wii : Bool) (c : Fin 3) (s : Exi) : Exi :=
  let x := s.chan c
  match c with
  | 0 =>
    if !x.locked ∧ (x.callbackExi ≠ none ∨ (s.chan 2).callbackExi ≠ none) then
      irqEnable wii (irqMask .exi0Exi ||| irqMask .exi2Exi) s
    else irqDisable wii (irqMask .exi0Exi ||| irqMask .exi2Exi) s
  | 1 =>
    if !x.locked ∧ x.callbackExi ≠ none then irqEnable wii (irqMask .exi1Exi) s
    else irqDisable wii (irqMask .exi1Exi) s
  | 2 =>
    if !x.locked ∧ s.debugger then irqEnable wii (irqMask .piDebug) s
    else irqDisable wii (irqMask .piDebug) s

/-! Probing. -/

/-- `PPCMsToTicks(300)` -/
def ms300 (wii : Bool) : ℕ := if wii then 18225000 else 12150000

def forgotten (x : Channel) : Channel := { x with exiIdtime := 0, lastExiIdtime := 0 }

def probeIrq (c : Fin 3) (s : Exi) : Exi :=
  if readReg c s &&& exiExtIrq ≠ 0 then
    setChan c (forgotten (s.chan c)) (exiClearirqs c false false true s)
  else s

def probeTime (c : Fin 3) (time : ℕ) (s : Exi) : Exi :=
  if (s.chan c).lastExiIdtime = 0 then
    setChan c { s.chan c with lastExiIdtime := if time = 0 then 1 else time } s
  else s

def exiProbe (wii : Bool) (c : Fin 3) (time : ℕ) (s : Exi) : Bool × Exi :=
  if c = 2 then (true, s)
  else if !(s.chan c).attach then
    let s := probeIrq c s
    if (s.chan c).present then
      let s := probeTime c time s
      (decide (ms300 wii ≤ (if time = 0 then 1 else time)-(s.chan c).lastExiIdtime), s)
    else (false, setChan c (forgotten (s.chan c)) s)
  else if !(s.chan c).present ∨ readReg c s &&& exiExtIrq ≠ 0 then
    (false, setChan c (forgotten (s.chan c)) s)
  else (true, s)

def exiAttachSection (wii : Bool) (c : Fin 3) (cb : Option ℕ) (time : ℕ) (s : Exi) : Bool × Exi :=
  if (s.chan c).attach then (false, s)
  else
    match exiProbe wii c time s with
    | (false, s) => (false, s)
    | (true, s) =>
      let s := exiClearirqs c true false false s
      let s := setChan c { s.chan c with callbackExt := cb } s
      let s := irqEnable wii (irqMask .exi0Ext >>> (c.val*3)) s
      (true, setChan c { s.chan c with attach := true } s)

/-- The last section of `EXI_Attach`. -/
def exiAttach (wii : Bool) (c : Fin 3) (cb : Option ℕ) (time : ℕ) (s : Exi) : Bool × Exi :=
  if (s.chan c).exiIdtime ≠ 0 then exiAttachSection wii c cb time s else (false, s)

/-! The lock. -/

/-- Whether the caller has the bus, and whether it has been put into the queue. -/
def exiLock (wii : Bool) (c dev : Fin 3) (cb : Option UnlockCb) (s : Exi) : Bool × Exi :=
  let x := s.chan c
  if x.locked then
    match cb with
    | none => (false, s)
    | some cb =>
      if s.pool = 0 then (false, s)
      else (false, setChan c { x with lckdDev := x.lckdDev ++ [⟨dev,cb⟩] }
        { s with pool := s.pool-1 })
  else (true, exiSetinterrupts wii c (setChan c { x with lockeddev := dev, locked := true } s))

/-- The waiter whose callback is to be called, if the channel was locked. -/
def exiUnlock (wii : Bool) (c : Fin 3) (s : Exi) : Bool × Option LckDev × Exi :=
  let x := s.chan c
  if !x.locked then (false, none, s)
  else
    let s := exiSetinterrupts wii c (setChan c { x with locked := false } s)
    match x.lckdDev with
    | [] => (true, none, s)
    | w::ws => (true, some w, setChan c { s.chan c with lckdDev := ws } { s with pool := s.pool+1 })

/-! Selection. -/

def maskExt (wii : Bool) (c : Fin 3) (s : Exi) : Exi :=
  if (s.chan c).attach then
    match c with
    | 0 => irqDisable wii (irqMask .exi0Ext) s
    | 1 => irqDisable wii (irqMask .exi1Ext) s
    | 2 => s
  else s

def unmaskExt (wii : Bool) (c : Fin 3) (s : Exi) : Exi :=
  if (s.chan c).attach then
    match c with
    | 0 => irqEnable wii (irqMask .exi0Ext) s
    | 1 => irqEnable wii (irqMask .exi1Ext) s
    | 2 => s
  else s

def selectWord (c : Fin 3) (cs : BitVec 32) (frq : Fin 8) (s : Exi) : BitVec 32 :=
  (readReg c s &&& 0x405) ||| cs ||| (BitVec.ofNat 32 frq.val <<< 4)

def selected (wii : Bool) (c : Fin 3) (cs : BitVec 32) (frq : Fin 8) (s : Exi) : Exi :=
  let s := setChan c { s.chan c with select := true } s
  maskExt wii c (writeReg c (selectWord c cs frq s) s)

def holdsBus (c dev : Fin 3) (s : Exi) : Bool :=
  (s.chan c).locked && decide ((s.chan c).lockeddev = dev)

def exiSelect (wii : Bool) (c dev : Fin 3) (frq : Fin 8) (time : ℕ) (s : Exi) : Bool × Exi :=
  if (s.chan c).select then (false, s)
  else if c = 2 then (true, selected wii c (0x80 <<< dev.val) frq s)
  else
    match if dev = 0 ∧ !(s.chan c).attach then exiProbe wii c time s else (true, s) with
    | (false, s) => (false, s)
    | (true, s) =>
      if holdsBus c dev s then (true, selected wii c (0x80 <<< dev.val) frq s) else (false, s)

/-- `EXI_SelectSD`, where `EXI_Probe` has been run before if it is needed and
has returned `probed`. -/
def exiSelectSD (wii : Bool) (c dev : Fin 3) (frq : Fin 8) (probed : Bool) (s : Exi) : Bool × Exi :=
  if (s.chan c).select then (false, s)
  else if c = 2 then (true, selected wii c 0 frq s)
  else if dev = 0 ∧ !(s.chan c).attach ∧ !probed then (false, s)
  else if holdsBus c dev s then (true, selected wii c 0 frq s)
  else (false, s)

def exiDeselect (wii : Bool) (c : Fin 3) (s : Exi) : Bool × Exi :=
  if !(s.chan c).select then (false, s)
  else
    let s := setChan c { s.chan c with select := false } s
    (true, unmaskExt wii c (writeReg c (readReg c s &&& 0x405) s))

def exiDetach (wii : Bool) (c : Fin 3) (s : Exi) : Bool × Exi :=
  let x := s.chan c
  if !x.attach then (true, s)
  else if x.locked ∧ x.lockeddev = 0 then (false, s)
  else (true, irqDisable wii ((irqMask .exi0Exi ||| irqMask .exi0Ext) >>> (c.val*3))
    (setChan c { x with attach := false } s))

def extIrq (c : Fin 3) : KIrqId := if c = 0 then .exi0Ext else .exi1Ext

/-- `__ext_irq_handler` up to the callback, which it returns. It shifts the mask
by the number of the interrupt; a shift by 32 bits or more gives 0. -/
def extIrqHandler (wii : Bool) (c : Fin 3) (s : Exi) : Option ℕ × Exi :=
  let s := irqDisable wii ((irqMask .exi0Exi ||| irqMask .exi0Ext) >>> ((extIrq c).num*3)) s
  let s := exiClearirqs c false false true s
  ((s.chan c).callbackExt, setChan c { s.chan c with attach := false, callbackExt := none } s)

/-- `EXI_GetID` between its locks, where the identification has been read. -/
def exiIdentified (c : Fin 3) (idtime id : ℕ) (s : Exi) : Bool × Exi :=
  let x := s.chan c
  if idtime ≠ x.lastExiIdtime then (false, s)
  else (true, setChan c { x with exiIdtime := idtime, exiId := id } s)

def blankChannel : Channel where
  select := false
  attach := false
  locked := false
  lockeddev := 0
  callbackExi := none
  callbackExt := none
  exiId := 0
  exiIdtime := 0
  lastExiIdtime := 0
  lckdDev := []
  present := false

/-- `__exi_init` up to `__exi_initmap`. -/
def exiInit (wii : Bool) (hw : Hw) : Exi :=
  let s : Exi := ⟨fun _ => blankChannel,exiLockDevs,false,hw⟩
  let s := irqDisable wii (imExi0 ||| imExi1 ||| imExi2) s
  writeReg 0 0x2000 (writeReg 2 0 (writeReg 1 0 (writeReg 0 0 s)))

end Libogc.ExiBus
