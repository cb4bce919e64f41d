import Libogc.Library.ByteStore
import Mathlib.Data.Int.Notation
import Mathlib.Logic.Function.Basic

/-!
# USB mass storage

The commands of `usbstorage.c`. A command is one or more cycles of a command
wrapper, the data in messages of bounded length, and a status wrapper. What
becomes of each message is up to the device and to IOS, so the answers are a
parameter, numbered in the order of the messages. The waits share one field for
the result of a message, so the answer of a message that has timed out can be
taken for that of a later one. The conversation of the last cycle is recorded.
-/

set_option autoImplicit false

namespace Libogc.UsbStorage
open ByteStore

def ipcEinval : ℤ := -4
def eSense : ℤ := -10001
def eShortWrite : ℤ := -10002
def eShortRead : ℤ := -10003
def eSignature : ℤ := -10004
def eTag : ℤ := -10005
def eStatus : ℤ := -10006
def eDataResidue : ℤ := -10007
def eTimedOut : ℤ := -10008
def eInit : ℤ := -10009
def processing : ℤ := -10010
def invalidLun : ℤ := -2

/-! Messages. -/

/-- A message is not accepted, its alarm goes off first, or a callback sets the
result, which may be that of an earlier message. -/
inductive Outcome where
  | refused (e : ℕ)
  | timeout
  | answered (retval : {r : ℤ // r ≠ processing}) (own : Bool)

/-- `landed` bytes have crossed the bus when the wait ends otherwise than by a
count of its own. -/
structure Reply where
  outcome : Outcome
  landed : ℕ
  data : Bytes

/-- The result of `__USB_BlkMsgTimeout` and `__USB_CtrlMsgTimeout`. -/
def Reply.retval (r : Reply) : ℤ :=
  match r.outcome with
  | .refused e => Int.negSucc e
  | .timeout => eTimedOut
  | .answered v _ => v.1

def Reply.moved (len : ℕ) (r : Reply) : ℕ :=
  match r.outcome with
  | .refused _ => 0
  | .timeout => min r.landed len
  | .answered v own => if own = true ∧ 0 ≤ v.1 then min v.1.toNat len else min r.landed len

def listOf (b : Bytes) (o n : ℕ) : List UInt8 := (List.range n).map (fun i => b (o+i))

structure Chunk where
  len : ℕ
  reply : Reply
  data : List UInt8

structure Talk where
  sent : List UInt8
  cbw : Reply
  chunks : List Chunk
  csw : Option Reply

/-- The handle, with the buffers that messages use; `next` is the number of the
next message. -/
structure Usb where
  next : ℕ
  tag : BitVec 32
  suspended : Bool
  maxLun : UInt8
  sectorSize : UInt8 → BitVec 32
  buffer : Bytes
  mem : Bytes
  talk : Option Talk

/-! The wrappers. -/

def le32 (v : BitVec 32) : List UInt8 :=
  [UInt8.ofNat v.toNat, UInt8.ofNat (v.toNat/0x100), UInt8.ofNat (v.toNat/0x10000),
    UInt8.ofNat (v.toNat/0x1000000)]

def lwbrx (b : Bytes) (o : ℕ) : BitVec 32 :=
  BitVec.ofNat 32 ((b o).toNat+(b (o+1)).toNat*0x100+(b (o+2)).toNat*0x10000+
    (b (o+3)).toNat*0x1000000)

def cbwBytes (tag len : BitVec 32) (flags lun : UInt8) (cb : List UInt8) : List UInt8 :=
  le32 0x43425355 ++ le32 tag ++ le32 len ++ [flags, lun, if cb.length > 6 then 10 else 6] ++ cb ++
    List.replicate (16-cb.length) 0

section Device

variable (dev : ℕ → Reply) (usb2 : Bool)

def sendCbw (lun : UInt8) (len : BitVec 32) (flags : UInt8) (cb : List UInt8) (s : Usb) :
    ℤ × Usb :=
  if cb.length = 0 ∨ 16 < cb.length then (ipcEinval, s)
  else
    let r := dev s.next
    (if r.retval = 31 then 0 else if 0 < r.retval then eShortWrite else r.retval,
      { s with
        next := s.next+1
        tag := s.tag+1
        suspended := false
        talk := some ⟨cbwBytes (s.tag+1) len flags lun cb,r,[],none⟩ })

def cswBuffer (r : Reply) : Bytes := fun i => if i < r.moved 13 then r.data i else 0

def cswSignature (r : Reply) : BitVec 32 := lwbrx (cswBuffer r) 0

def cswTag (r : Reply) : BitVec 32 := lwbrx (cswBuffer r) 4

def cswStatus (r : Reply) : UInt8 := cswBuffer r 12

/-- The result, and the status and the residue unless they are not set. -/
def readCsw (s : Usb) : ℤ × Option (UInt8 × BitVec 32) × Usb :=
  let r := dev s.next
  let s := { s with next := s.next+1, talk := s.talk.map (fun t => { t with csw := some r }) }
  if 0 < r.retval ∧ r.retval ≠ 13 then (eShortRead, none, s)
  else if r.retval < 0 then (r.retval, none, s)
  else if cswSignature r ≠ 0x53425355 then (eSignature, none, s)
  else (if cswTag r ≠ s.tag then eTag else 0, some (cswStatus r, lwbrx (cswBuffer r) 8), s)

/-! The data. -/

def direct (addr : ℕ) : Bool := decide (addr%32 = 0) && addr.testBit 28

def noteChunk (c : Chunk) (s : Usb) : Usb :=
  { s with
    next := s.next+1
    talk := s.talk.map (fun t => { t with chunks := t.chunks ++ [c] }) }

def dataMsg (write : Bool) (addr thisLen : ℕ) (s : Usb) : ℤ × Usb :=
  let r := dev s.next
  let n := r.moved thisLen
  if write then
    let b := if direct addr then s.buffer else blit s.mem addr 0 thisLen s.buffer
    let data := if direct addr then listOf s.mem addr n else listOf b 0 n
    (r.retval, noteChunk ⟨thisLen,r,data⟩ { s with buffer := b })
  else if direct addr then
    (r.retval, noteChunk ⟨thisLen,r,listOf r.data 0 n⟩ { s with mem := blit r.data 0 addr n s.mem })
  else
    let b := blit r.data 0 0 n s.buffer
    let m := if 0 < r.retval then blit b 0 addr r.retval.toNat s.mem else s.mem
    (r.retval, noteChunk ⟨thisLen,r,listOf r.data 0 n⟩ { s with buffer := b, mem := m })

def maxSize : ℕ := if usb2 then 16384 else 4096

def chunkLen (len : ℕ) : ℕ := if len > maxSize usb2 then maxSize usb2 else len

def dataLoop (write : Bool) : ℕ → ℕ → ℕ → ℤ → Usb → ℤ × Usb
  | 0, _, _, ret, s => (ret, s)
  | n+1, addr, len, ret, s =>
    if 0 < len ∧ 0 ≤ ret then
      let k := chunkLen usb2 len
      let r := dataMsg dev write addr k s
      if r.1 = k then dataLoop write n (addr+k) (len-k) r.1 r.2
      else if r.1 ≠ eTimedOut then (eDataResidue, r.2)
      else r
    else (ret, s)

/-! Cycles. -/

def usbstorageReset (s : Usb) : ℤ × Usb := ((dev s.next).retval, { s with next := s.next+1 })

def exchange (write : Bool) (lun : UInt8) (addr : ℕ) (len : BitVec 32) (cb : List UInt8)
    (st : UInt8 × BitVec 32) (s : Usb) : ℤ × (UInt8 × BitVec 32) × Usb :=
  let c := sendCbw dev lun len (if write then 0 else 0x80) cb s
  let d := dataLoop dev usb2 write len.toNat addr len.toNat c.1 c.2
  if 0 ≤ d.1 then
    let w := readCsw dev d.2
    (w.1, w.2.1.getD st, w.2.2)
  else (d.1, st, d.2)

def resetFailed (w : ℤ × (UInt8 × BitVec 32) × Usb) : ℤ × (UInt8 × BitVec 32) × Usb :=
  if w.1 < 0 then
    let r := usbstorageReset dev w.2.2
    (if r.1 = eTimedOut then eTimedOut else w.1, w.2.1, r.2)
  else w

def cycleLoop (write : Bool) (lun : UInt8) (addr : ℕ) (len : BitVec 32) (cb : List UInt8) :
    ℕ → ℤ → UInt8 × BitVec 32 → Usb → ℤ × (UInt8 × BitVec 32) × Usb
  | 0, ret, st, s => (ret, st, s)
  | retries+1, ret, st, s =>
    if ret = eTimedOut then (ret, st, s)
    else
      let a := resetFailed dev (exchange dev usb2 write lun addr len cb st s)
      if a.1 < 0 then cycleLoop write lun addr len cb retries a.1 a.2.1 a.2.2 else a

/-- `__cycle`, with `USBSTORAGE_CYCLE_RETRIES` of 3. -/
def cycle (write : Bool) (lun : UInt8) (addr : ℕ) (len : BitVec 32) (cb : List UInt8) (s : Usb) :
    ℤ × (UInt8 × BitVec 32) × Usb :=
  cycleLoop dev usb2 write lun addr len cb 4 0 (0, 0) s

/-! Mounting. -/

def cycleLocal (stack : Bytes) (lun : UInt8) (len : BitVec 32) (cb : List UInt8) (s : Usb) :
    ℤ × UInt8 × Bytes × Usb :=
  let c := cycle dev usb2 false lun 0 len cb { s with mem := stack }
  (c.1, c.2.1.1, c.2.2.mem, { c.2.2 with mem := s.mem })

def clearErrors (lun : UInt8) (s : Usb) : ℤ × Usb :=
  let c := cycleLocal dev usb2 (fun _ => 0) lun 0 [0x00] s
  if c.1 < 0 ∨ c.2.1 = 0 then (c.1, c.2.2.2)
  else
    let c := cycleLocal dev usb2 (fun _ => 0) lun 18 [0x03, lun <<< 5, 0, 0, 18, 0] c.2.2.2
    let key := c.2.2.1 2 &&& 0xf
    (if 0 ≤ c.1 ∧ key = 2 then eInit
      else if 0 ≤ c.1 ∧ (key = 3 ∨ key = 4) then eSense
      else c.1, c.2.2.2)

def inquiryOnce (lun : UInt8) (s : Usb) : ℤ × UInt8 × Bytes × Usb :=
  cycleLocal dev usb2 (fun _ => 0) lun 36 [0x12, lun <<< 5, 0, 0, 36, 0] s

def inquiry (lun : UInt8) (s : Usb) : ℤ × Usb :=
  let c := inquiryOnce dev usb2 lun s
  let c := if 0 ≤ c.1 then c else inquiryOnce dev usb2 lun c.2.2.2
  (if 0 ≤ c.1 then (c.2.2.1 0 &&& 31).toNat else c.1, c.2.2.2)

/-- The local array is not initialised. The sector count is returned too. -/
def readCapacity (stack : Bytes) (lun : UInt8) (s : Usb) : ℤ × ℕ × Usb :=
  let c := cycleLocal dev usb2 stack lun 8 [0x25, lun <<< 5, 0, 0, 0, 0, 0, 0, 0, 0] s
  if 0 ≤ c.1 then
    (0, word c.2.2.1 0, { c.2.2.2 with
      sectorSize := Function.update c.2.2.2.sectorSize lun (BitVec.ofNat 32 (word c.2.2.1 4)) })
  else (c.1, 0, c.2.2.2)

def mountLun (stack : Bytes) (lun : UInt8) (s : Usb) : ℤ × Usb :=
  if lun ≥ s.maxLun then (ipcEinval, s)
  else
    let e := clearErrors dev usb2 lun s
    let s := if e.1 < 0 then (clearErrors dev usb2 lun (usbstorageReset dev e.2).2).2 else e.2
    let c := readCapacity dev usb2 stack lun (inquiry dev usb2 lun s).2
    (if 0 ≤ c.1 ∧ ((c.2.2.sectorSize lun).toNat < 512 ∨ c.2.1 = 0) then invalidLun else c.1, c.2.2)

/-! Reading and writing. -/

/-- A call for sectors. `idle` says that the drive was last used more than a
minute ago. -/
structure Request where
  lun : UInt8
  sector : BitVec 32
  count : BitVec 16
  buffer : ℕ
  idle : Bool
  stack : Bytes

def command (op : UInt8) (q : Request) : List UInt8 :=
  [op, q.lun <<< 5, UInt8.ofNat (q.sector.toNat/0x1000000), UInt8.ofNat (q.sector.toNat/0x10000),
    UInt8.ofNat (q.sector.toNat/0x100), UInt8.ofNat q.sector.toNat, 0,
    UInt8.ofNat (q.count.toNat/0x100), UInt8.ofNat q.count.toNat, 0]

def awake (q : Request) (s : Usb) : Usb :=
  if q.idle then (mountLun dev usb2 q.stack q.lun s).2 else s

def transfer (write : Bool) (op : UInt8) (q : Request) (s : Usb) : ℤ × Usb :=
  let s := { s with talk := none }
  if q.lun ≥ s.maxLun ∨ s.sectorSize q.lun = 0 then (ipcEinval, s)
  else
    let s := awake dev usb2 q s
    let c := cycle dev usb2 write q.lun q.buffer (q.count.setWidth 32*s.sectorSize q.lun)
      (command op q) s
    (if 0 < c.1 ∧ c.2.1.1 ≠ 0 then eStatus else c.1, c.2.2)

def usbStorageRead : Request → Usb → ℤ × Usb := transfer dev usb2 false 0x28

def usbStorageWrite : Request → Usb → ℤ × Usb := transfer dev usb2 true 0x2a

end Device

end Libogc.UsbStorage
