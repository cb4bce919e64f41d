import Mathlib.Logic.Function.Basic
import Mathlib.Data.Int.Notation
import Mathlib.Data.Nat.Notation

/-!
# Requests to IOS

`ipc.c` keeps the requests that are not yet sent in a ring of 16 pointers and
counts in `_ipc_mailboxack` whether the mailbox may be written. Each function
here runs with the interrupts disabled. The address that `__ipc_sendrequest`
writes to the mailbox is a result, and so is what the handlers of the
interrupts do for the poster of a request. A request is the address of its
block; the fields of a block that only IOS reads are left out.
-/

set_option autoImplicit false

namespace Libogc.IpcRequest

inductive IosCmd where
  | open
  | close
  | read
  | write
  | seek
  | ioctl
  | ioctlv
  deriving DecidableEq, Repr

/-- `struct _ipcreq`. The bits of `relnch` are two fields, and `magic` says
whether the magic number of the driver is in the block. -/
structure IpcReq where
  reqCmd : IosCmd
  result : ℤ
  cb : Option ℕ
  relaunch : Bool
  background : Bool
  syncqueue : ℕ
  magic : Bool
  deriving DecidableEq, Repr

structure Ipc where
  mem : ℕ → IpcReq
  reqs : ℕ → ℕ
  cntSent : BitVec 32
  cntQueue : BitVec 32
  reqSendNo : ℕ
  reqQueueNo : ℕ
  mailboxack : ℤ
  relnchFl : Bool
  relnchRpc : ℕ

def ipcInit (mem : ℕ → IpcReq) : Ipc where
  mem := mem
  reqs _ := 0
  cntSent := 0
  cntQueue := 0
  reqSendNo := 0
  reqQueueNo := 0
  mailboxack := 1
  relnchFl := false
  relnchRpc := 0

def setReq (p : ℕ) (r : IpcReq) (s : Ipc) : Ipc := { s with mem := Function.update s.mem p r }

def outstanding (s : Ipc) : ℕ := (s.cntQueue-s.cntSent).toNat

/-- `__ipc_queuerequest` and `__ipc_syncqueuerequest`; whether the request has
been taken. -/
def ipcQueuerequest (p : ℕ) (s : Ipc) : Bool × Ipc :=
  if 16 ≤ outstanding s then (false, s)
  else (true, { s with
    reqs := Function.update s.reqs s.reqQueueNo p
    reqQueueNo := (s.reqQueueNo+1) &&& 0x0f
    cntQueue := s.cntQueue+1 })

/-- A relaunch that is not in the background takes the mailbox for longer. -/
def relaunchNote (p : ℕ) (s : Ipc) : Ipc :=
  if (s.mem p).relaunch then { s with
    relnchFl := true
    relnchRpc := p
    mailboxack := if (s.mem p).background then s.mailboxack else s.mailboxack-1 }
  else s

def ipcSendrequest (s : Ipc) : Option ℕ × Ipc :=
  if 0 < outstanding s then
    let p := s.reqs s.reqSendNo
    if p ≠ 0 then
      let s := relaunchNote p (setReq p { s.mem p with magic := true } s)
      (some p, { s with
        reqSendNo := (s.reqSendNo+1) &&& 0x0f
        cntSent := s.cntSent+1
        mailboxack := s.mailboxack-1 })
    else (none, s)
  else (none, s)

/-- The second section of `__ipc_asyncrequest`. -/
def ipcKick (s : Ipc) : Option ℕ × Ipc := if 0 < s.mailboxack then ipcSendrequest s else (none, s)

def raiseAck (s : Ipc) : Ipc :=
  { s with mailboxack := if s.mailboxack < 1 then s.mailboxack+1 else s.mailboxack }

/-- What a handler does for the poster: it calls back and frees the request, or
wakes the thread that sleeps in its queue. -/
inductive Answer where
  | callback (cb : ℕ) (result : ℤ)
  | signal (syncqueue : ℕ)
  deriving DecidableEq, Repr

def relaunchReply (p : ℕ) (s : Ipc) : Bool :=
  decide (p ≠ 0) && (s.mem p).magic && decide ((s.mem p).reqCmd = .ioctlv) && s.relnchFl &&
    decide (s.relnchRpc = p)

def ipcReplyhandler (p : ℕ) (s : Ipc) : Option Answer × Ipc :=
  if p = 0 then (none, s)
  else if (s.mem p).magic then
    (some (match (s.mem p).cb with
      | some cb => .callback cb (s.mem p).result
      | none => .signal (s.mem p).syncqueue),
      if relaunchReply p s then raiseAck { s with relnchFl := false } else s)
  else (none, s)

def ipcAckhandler (s : Ipc) : Option Answer × Option ℕ × Ipc :=
  let s := raiseAck s
  if 0 < s.mailboxack then
    if s.relnchFl then
      let r := s.mem s.relnchRpc
      (some (.signal r.syncqueue),
        ipcSendrequest { setReq s.relnchRpc { r with result := 0 } s with relnchFl := false })
    else (none, ipcSendrequest s)
  else (none, none, s)

end Libogc.IpcRequest
