import Libogc.Ipc.Request
import Libogc.Library.ReleaseLog

/-!
# Formatted ioctlv requests

`IOS_IoctlvFormat` and `IOS_IoctlvFormatAsync` build the vector of an ioctlv
request from a format string. Every parameter but a plain pointer gets a buffer
on an ipc heap, and a table in the workspace heap has the buffers for the time
after the reply. What the heaps answer is supplied, one address for each
allocation, and 0 is NULL. The memory of the caller and the contents of the
buffers are apart; the addresses of the vector are not translated. The log
has the allocations, the frees and the reply.
-/

set_option autoImplicit false

namespace Libogc.IoctlvFormat
open IpcRequest ReleaseLog

inductive Pool where
  | wkspace
  | heap (hid : ℤ)
  deriving DecidableEq, Repr

structure Block where
  pool : Pool
  ptr : ℕ
  deriving DecidableEq, Repr

structure World where
  user : ℕ → ℕ
  buf : ℕ → List ℕ
  ipc : Ipc
  queueUsed : BitVec 64
  tried : ℕ
  log : List (Event Block)

def note (e : Event Block) (s : World) : World := { s with log := s.log ++ [e] }

def fill (p : ℕ) (bytes : List ℕ) (s : World) : World :=
  { s with buf := Function.update s.buf p bytes }

def bytesAt (user : ℕ → ℕ) (p : ℕ) : ℕ → List ℕ
  | 0 => []
  | n+1 => user p::bytesAt user (p+1) n

def storeBytes : ℕ → List ℕ → (ℕ → ℕ) → ℕ → ℕ
  | _, [], user => user
  | p, b::bs, user => storeBytes (p+1) bs (Function.update user p b)

def bigEndian : ℕ → ℕ → List ℕ
  | 0, _ => []
  | n+1, v => bigEndian n (v/256) ++ [v%256]

def strnlen (user : ℕ → ℕ) : ℕ → ℕ → ℕ
  | _, 0 => 0
  | p, n+1 => if user p = 0 then 0 else strnlen user (p+1) n+1

inductive IpcError where
  | einval
  | equeuefull
  | enomem
  deriving DecidableEq, Repr

def ipcOk : ℤ := 0

def IpcError.code : IpcError → ℤ
  | .einval => -4
  | .equeuefull => -8
  | .enomem => -22

def ipcHeap : ℤ := -1
def ipcNumheaps : ℤ := 16
def iosMaxfmtParams : ℕ := 32

structure Bufent where
  ipcBuf : ℕ
  ioBuf : ℕ
  copyLen : ℕ
  deriving DecidableEq, Repr

structure Ioctlv where
  data : ℕ
  len : ℕ
  deriving DecidableEq, Repr

/-- `struct _ioctlvfmt_cbdata`, with the table that `bufs` points to. -/
structure Cbdata where
  userCb : Option ℕ
  userData : ℕ
  hId : ℤ
  bufs : ℕ
  table : List Bufent
  deriving DecidableEq, Repr

inductive Param where
  | number (size : ℕ)
  | data
  | string
  deriving DecidableEq, Repr

def numberParam : Char → Option Param
  | 'b' => some (.number 1)
  | 'h' => some (.number 2)
  | 'i' => some (.number 4)
  | 'q' => some (.number 8)
  | 'd' => some .data
  | _ => none

def inParam (c : Char) : Option Param := if c = 's' then some .string else numberParam c

structure Parse where
  world : World
  args : List ℕ
  table : List Bufent
  argv : List Ioctlv
  cntIn : ℕ
  cntIo : ℕ

section Heap

variable (grant : ℕ → ℕ) (ipcHid : ℤ)

def heapAllocate (pool : Pool) (s : World) : ℕ × World :=
  if grant s.tried = 0 then (0, { s with tried := s.tried+1 })
  else (grant s.tried, note (.alloc ⟨pool,grant s.tried⟩) { s with tried := s.tried+1 })

def wkspaceAllocate (s : World) : ℕ × World := heapAllocate grant .wkspace s

def wkspaceFree (p : ℕ) (s : World) : World := note (.free ⟨.wkspace,p⟩) s

def iosAlloc (hid size : ℤ) (s : World) : ℕ × World :=
  if hid < 0 ∨ ipcNumheaps ≤ hid ∨ size ≤ 0 then (0, s) else heapAllocate grant (.heap hid) s

def iosFree (hid : ℤ) (p : ℕ) (s : World) : World :=
  if hid < 0 ∨ ipcNumheaps ≤ hid ∨ p = 0 then s else note (.free ⟨.heap hid,p⟩) s

/-! One parameter. -/

def allocParam (hid size : ℤ) (p : Parse) (f : ℕ → Parse → Parse) :
    Except (IpcError × Parse) Parse :=
  let a := iosAlloc grant hid size p.world
  if a.1 = 0 then .error (.enomem,{ p with world := a.2 })
  else .ok (f a.1 { p with world := a.2 })

def putNumber (size q : ℕ) (p : Parse) : Parse := { p with
  world := fill q (bigEndian size (p.args.headD 0)) p.world
  args := p.args.tail
  argv := p.argv ++ [⟨q,size⟩]
  table := p.table ++ [⟨q,0,0⟩]
  cntIn := p.cntIn+1 }

def putString (ps len q : ℕ) (p : Parse) : Parse := { p with
  world := fill q (bytesAt p.world.user ps (len+1)) p.world
  argv := p.argv ++ [⟨q,len+1⟩]
  table := p.table ++ [⟨q,0,0⟩]
  cntIn := p.cntIn+1 }

def putIo (size q : ℕ) (p : Parse) : Parse := { p with
  world := fill q (bytesAt p.world.user (p.args.headD 0) size) p.world
  args := p.args.tail
  argv := p.argv ++ [⟨q,size⟩]
  table := p.table ++ [⟨q,p.args.headD 0,size⟩]
  cntIo := p.cntIo+1 }

def putPointer (p : Parse) : Parse := { p with
  args := p.args.tail.tail
  argv := p.argv ++ [⟨p.args.headD 0,p.args.tail.headD 0⟩] }

def parseIn (hid : ℤ) (c : Char) (p : Parse) : Except (IpcError × Parse) Parse :=
  match inParam c with
  | some (.number size) => allocParam grant hid size p (putNumber size)
  | some .data => .ok { putPointer p with cntIn := p.cntIn+1 }
  | some .string =>
    let ps := p.args.headD 0
    let len := strnlen p.world.user ps 256
    let p := { p with args := p.args.tail }
    if 256 ≤ len then .error (.einval,p) else allocParam grant hid (len+1) p (putString ps len)
  | none => .error (.einval,p)

def parseIo (hid : ℤ) (c : Char) (p : Parse) : Except (IpcError × Parse) Parse :=
  match numberParam c with
  | some (.number size) => allocParam grant hid size p (putIo size)
  | some .data => .ok { putPointer p with cntIo := p.cntIo+1 }
  | _ => .error (.einval,p)

def parseIoParams (hid : ℤ) : List Char → Parse → Except (IpcError × Parse) Parse
  | [], p => .ok p
  | c::cs, p => (parseIo grant hid c.toLower p).bind (parseIoParams hid cs)

def parseParams (hid : ℤ) : List Char → Parse → Except (IpcError × Parse) Parse
  | [], p => .ok p
  | c::cs, p =>
    if c.toLower = ':' then parseIoParams grant hid cs p
    else (parseIn grant hid c.toLower p).bind (parseParams hid cs)

def freeTable (hid : ℤ) : List Bufent → World → World
  | [], s => s
  | e::es, s => freeTable hid es (if e.ipcBuf ≠ 0 then iosFree hid e.ipcBuf s else s)

structure Parsed where
  hId : ℤ
  bufs : ℕ
  table : List Bufent
  argv : List Ioctlv
  cntIn : ℕ
  cntIo : ℕ
  deriving DecidableEq, Repr

def effectiveHeap (hid : ℤ) : ℤ := if hid = ipcHeap then ipcHid else hid

def parseWith (hid : ℤ) (bufs argp : ℕ) (format : List Char) (args : List ℕ) (s : World) :
    Except IpcError Parsed × World :=
  match parseParams grant hid format ⟨s,args,[⟨argp,0,0⟩],[],0,0⟩ with
  | .ok p => (.ok ⟨hid,bufs,p.table,p.argv,p.cntIn,p.cntIo⟩,p.world)
  | .error (e,p) => (.error e,wkspaceFree bufs (freeTable hid p.table p.world))

def iosIoctlvformatParse (hid : ℤ) (format : List Char) (args : List ℕ) (s : World) :
    Except IpcError Parsed × World :=
  let hid := effectiveHeap ipcHid hid
  if hid < 0 then (.error .einval,s)
  else if iosMaxfmtParams ≤ format.length then (.error .einval,s)
  else
    let b := wkspaceAllocate grant s
    if b.1 = 0 then (.error .enomem,b.2)
    else
      let a := iosAlloc grant hid (8*(format.length+1)) b.2
      if a.1 = 0 then (.error .enomem,wkspaceFree b.1 a.2)
      else parseWith grant hid b.1 a.1 format args a.2

/-! The end of a request. -/

def copyBack (e : Bufent) (s : World) : World :=
  if e.ioBuf ≠ 0 ∧ e.copyLen ≠ 0 then
    { s with user := storeBytes e.ioBuf ((s.buf e.ipcBuf).take e.copyLen) s.user }
  else s

def returnTable (hid : ℤ) : List Bufent → World → World
  | [], s => s
  | e::es, s =>
    returnTable hid es (if e.ipcBuf ≠ 0 then iosFree hid e.ipcBuf (copyBack e s) else s)

/-- `__ioctlvfmtCB` up to the callback of the user. -/
def ioctlvfmtCB (cbdata : ℕ) (d : Cbdata) (s : World) : World :=
  wkspaceFree cbdata (wkspaceFree d.bufs (returnTable d.hId d.table s))

def ipcAllocreq (s : World) : ℕ × World := iosAlloc grant ipcHid 64 s

def ipcFreereq (p : ℕ) (s : World) : World := iosFree ipcHid p s

def lwpcAllocSlot (used : BitVec 64) : Option ℕ :=
  (List.range 64).find? (fun i => !used.getLsbD i)

/-- `LWP_InitQueue`; the queue 0 stands for `LWP_TQUEUE_NULL`. -/
def lwpInitQueue (s : World) : ℕ × World :=
  match lwpcAllocSlot s.queueUsed with
  | some i => (i+1, { s with queueUsed := s.queueUsed ||| BitVec.twoPow 64 i })
  | none => (0, s)

def lwpCloseQueue (q : ℕ) (s : World) : World :=
  if q = 0 then s else { s with queueUsed := s.queueUsed &&& ~~~BitVec.twoPow 64 (q-1) }

structure Reply where
  result : ℤ
  user : ℕ → ℕ
  buf : ℕ → List ℕ

def replied (r : Reply) (s : World) : World := note .answer { s with user := r.user, buf := r.buf }

def queueReq (p : ℕ) (r : IpcReq) (s : World) : Bool × World :=
  let o := ipcQueuerequest p (IpcRequest.setReq p r s.ipc)
  (o.1, { s with ipc := o.2 })

def kick (s : World) : World := { s with ipc := (ipcKick s.ipc).2 }

def fillIoctlv (cb : Option ℕ) (r : IpcReq) : IpcReq :=
  { r with reqCmd := .ioctlv, cb := cb, relaunch := false, background := false }

/-- `LWP_ThreadSleep` on no queue returns at once, and the result is what the
block of the request held before. -/
def ipcSyncrequest (r : Reply) (p : ℕ) (s : World) : ℤ × World :=
  let q := lwpInitQueue s
  let o := queueReq p { fillIoctlv none (s.ipc.mem p) with syncqueue := q.1 } q.2
  if o.1 then
    if q.1 = 0 then ((s.ipc.mem p).result,lwpCloseQueue q.1 (kick o.2))
    else (r.result,lwpCloseQueue q.1 (replied r (kick o.2)))
  else (IpcError.equeuefull.code,lwpCloseQueue q.1 o.2)

def iosIoctlv (r : Reply) (s : World) : ℤ × World :=
  let a := ipcAllocreq grant ipcHid s
  if a.1 = 0 then (IpcError.enomem.code,a.2)
  else
    let o := ipcSyncrequest r a.1 a.2
    (o.1,ipcFreereq ipcHid a.1 o.2)

/-- `IOS_IoctlvFormat` after the parser. -/
def submitFormat (cbdata : ℕ) (r : Reply) (p : Except IpcError Parsed × World) : ℤ × World :=
  match p.1 with
  | .error e => (e.code,wkspaceFree cbdata p.2)
  | .ok d =>
    let o := iosIoctlv grant ipcHid r p.2
    (o.1,ioctlvfmtCB cbdata ⟨none,0,d.hId,d.bufs,d.table⟩ o.2)

def iosIoctlvFormat (hid : ℤ) (format : List Char) (args : List ℕ) (r : Reply) (s : World) :
    ℤ × World :=
  let c := wkspaceAllocate grant s
  if c.1 = 0 then (IpcError.enomem.code,c.2)
  else submitFormat grant ipcHid c.1 r (iosIoctlvformatParse grant ipcHid hid format args c.2)

structure Pending where
  req : ℕ
  cbdata : ℕ
  data : Cbdata
  deriving DecidableEq, Repr

/-- `IOS_IoctlvAsync` with `__ioctlvfmtCB` for the callback; the address of the
request if it has been queued. -/
def iosIoctlvAsync (cbdata : ℕ) (s : World) : (ℤ × Option ℕ) × World :=
  let a := ipcAllocreq grant ipcHid s
  if a.1 = 0 then ((IpcError.enomem.code,none),a.2)
  else
    let o := queueReq a.1 (fillIoctlv (some cbdata) (a.2.ipc.mem a.1)) a.2
    if o.1 then ((ipcOk,some a.1),kick o.2)
    else ((IpcError.equeuefull.code,none),ipcFreereq ipcHid a.1 o.2)

/-- `IOS_IoctlvFormatAsync` after the parser. -/
def submitFormatAsync (cbdata : ℕ) (usrCb : Option ℕ) (usrData : ℕ)
    (p : Except IpcError Parsed × World) : (ℤ × Option Pending) × World :=
  match p.1 with
  | .error e => ((e.code,none),wkspaceFree cbdata p.2)
  | .ok d =>
    let o := iosIoctlvAsync grant ipcHid cbdata p.2
    ((o.1.1,o.1.2.map (fun q => ⟨q,cbdata,⟨usrCb,usrData,d.hId,d.bufs,d.table⟩⟩)),o.2)

def iosIoctlvFormatAsync (hid : ℤ) (usrCb : Option ℕ) (usrData : ℕ) (format : List Char)
    (args : List ℕ) (s : World) : (ℤ × Option Pending) × World :=
  let c := wkspaceAllocate grant s
  if c.1 = 0 then ((IpcError.enomem.code,none),c.2)
  else submitFormatAsync grant ipcHid c.1 usrCb usrData
    (iosIoctlvformatParse grant ipcHid hid format args c.2)

def userCall (result : ℤ) (d : Cbdata) : Option (ℕ × ℤ × ℕ) :=
  d.userCb.map (fun f => (f,result,d.userData))

/-- The reply handler for a request of `IOS_IoctlvFormatAsync`. -/
def replyPending (r : Reply) (d : Pending) (s : World) : Option (ℕ × ℤ × ℕ) × World :=
  (userCall r.result d.data,
    ipcFreereq ipcHid d.req (ioctlvfmtCB d.cbdata d.data (replied r s)))

end Heap

def atCall (user : ℕ → ℕ) (buf : ℕ → List ℕ) (ipc : Ipc) (queueUsed : BitVec 64) : World :=
  ⟨user,buf,ipc,queueUsed,0,[]⟩

end Libogc.IoctlvFormat
