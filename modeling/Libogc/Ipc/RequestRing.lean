import Libogc.Library.GuardedReach
import Libogc.Library.RingWindow
import Libogc.Ipc.Request

/-!
# The ring of requests

Requests are posted by threads and callbacks, and IOS acknowledges and answers
what it has got. `posted` and `sent` are the requests that have been taken into
the ring and those written to the mailbox, in this order, and `owed` is the
number of acknowledges that IOS has yet to give: one for each request, and one
more when it has been relaunched. No function of the driver reads them.
-/

set_option autoImplicit false

namespace Libogc.IpcRing
open Option GuardedReach RingWindow IpcRequest Function

structure Ring where
  ipc : Ipc
  posted : List ℕ
  sent : List ℕ
  owed : ℕ
  posting : ℕ

def ringInit (mem : ℕ → IpcReq) : Ring := ⟨ipcInit mem,[],[],0,0⟩

inductive Event where
  -- both sections of a post, with nothing in between
  | post (p : ℕ) (r : IpcReq)
  -- the first section of __ipc_asyncrequest, after which others run
  | queue (p : ℕ) (r : IpcReq)
  | kick
  -- an interrupt, where the acknowledge may come together with a reply
  | reply (p : ℕ) (reqCmd : IosCmd) (result : ℤ) (ack : Bool)
  | ack
  deriving DecidableEq, Repr

def acksFor (r : IpcReq) : ℕ := if r.relaunch && !r.background then 2 else 1

def handOver (o : Option ℕ × Ipc) (s : Ring) : Ring :=
  match o.1 with
  | none => { s with ipc := o.2 }
  | some p => { s with
    ipc := o.2
    sent := s.sent ++ [p]
    owed := s.owed+acksFor (s.ipc.mem p) }

def accept (p : ℕ) (r : IpcReq) (s : Ring) : Bool × Ring :=
  let q := ipcQueuerequest p (setReq p r s.ipc)
  (q.1, { s with ipc := q.2, posted := if q.1 then s.posted ++ [p] else s.posted })

def kick (s : Ring) : Ring := handOver (ipcKick s.ipc) s

def postRequest (p : ℕ) (r : IpcReq) (s : Ring) : Ring :=
  let a := accept p r s
  if a.1 then kick a.2 else a.2

def queueRequest (p : ℕ) (r : IpcReq) (s : Ring) : Ring :=
  let a := accept p r s
  if a.1 then { a.2 with posting := a.2.posting+1 } else a.2

def answered (p : ℕ) (reqCmd : IosCmd) (result : ℤ) (s : Ring) : Ring :=
  { s with ipc := setReq p { s.ipc.mem p with reqCmd := reqCmd, result := result } s.ipc }

def replied (p : ℕ) (s : Ring) : Ring :=
  { s with
    ipc := (ipcReplyhandler p s.ipc).2
    owed := if relaunchReply p s.ipc then s.owed-(acksFor (s.ipc.mem p)-1) else s.owed }

def acknowledged (s : Ring) : Ring :=
  handOver (ipcAckhandler s.ipc).2 { s with owed := s.owed-1 }

def ringStep (a : Event) (s : Ring) : Option Ring :=
  match a with
  | .post p r => some (postRequest p r s)
  | .queue p r => some (queueRequest p r s)
  | .kick => if s.posting = 0 then none else some (kick { s with posting := s.posting-1 })
  | .reply p reqCmd result ack =>
    let s := replied p (answered p reqCmd result s)
    some (if ack then acknowledged s else s)
  | .ack => some (acknowledged s)

/-! The requests in the ring. -/

def unsent (s : Ipc) : List ℕ := window s.reqs 16 s.reqSendNo (outstanding s)

structure RingOk (s : Ipc) : Prop where
  send : s.reqSendNo < 16
  bound : outstanding s ≤ 16
  last : s.reqQueueNo = wrap 16 (s.reqSendNo+outstanding s)
  nonnull : ∀ p ∈ unsent s, p ≠ 0

structure SameRing (s t : Ipc) : Prop where
  reqs : t.reqs = s.reqs
  send : t.reqSendNo = s.reqSendNo
  last : t.reqQueueNo = s.reqQueueNo
  count : outstanding t = outstanding s

theorem unsent_length (s : Ipc) : (unsent s).length = outstanding s := by
  simp [unsent, window]

theorem masked_next {n : ℕ} (h : n < 16) : (n+1) &&& 0x0f = wrap 16 (n+1) := by
  have hall : ∀ n : Fin 16, (n.val+1) &&& 0x0f = wrap 16 (n.val+1) := by decide
  exact hall ⟨n,h⟩

variable {t : Ipc} (r : IpcReq) (mem : ℕ → IpcReq)

section Sections

variable {s : Ipc} {p : ℕ}

theorem RingOk.congr (h : RingOk s) (ht : SameRing s t) : RingOk t ∧ unsent t = unsent s := by
  have hu : unsent t = unsent s := by
    unfold unsent
    rw [ht.reqs, ht.send, ht.count]
  exact ⟨⟨ht.send ▸ h.send,ht.count ▸ h.bound,by rw [ht.last, ht.send, ht.count, h.last],
    hu ▸ h.nonnull⟩,hu⟩

theorem queue_full (h : outstanding s = 16) (p : ℕ) : ipcQueuerequest p s = (false, s) :=
  if_pos h.ge

theorem queue_taken (h : RingOk s) (hlt : outstanding s < 16) (hp : p ≠ 0) :
    (ipcQueuerequest p s).1 = true ∧ RingOk (ipcQueuerequest p s).2 ∧
      unsent (ipcQueuerequest p s).2 = unsent s ++ [p] := by
  have hq : ipcQueuerequest p s = (true, { s with
      reqs := update s.reqs s.reqQueueNo p
      reqQueueNo := (s.reqQueueNo+1) &&& 0x0f
      cntQueue := s.cntQueue+1 }) := if_neg (by omega)
  rw [hq]
  have hlast : s.reqQueueNo < 16 := by
    rw [h.last]
    exact wrap_lt h.send h.bound
  have hcount : (s.cntQueue+1-s.cntSent).toNat = outstanding s+1 := by
    unfold outstanding at hlt ⊢
    bv_omega
  have hunsent : window (update s.reqs s.reqQueueNo p) 16 s.reqSendNo
      (s.cntQueue+1-s.cntSent).toNat = unsent s ++ [p] := by
    rw [hcount, h.last, window_push s.reqs hlt p]
    rfl
  refine ⟨rfl,⟨h.send,?_,?_,?_⟩,hunsent⟩
  · change (s.cntQueue+1-s.cntSent).toNat ≤ 16
    omega
  · change (s.reqQueueNo+1) &&& 0x0f = wrap 16 (s.reqSendNo+(s.cntQueue+1-s.cntSent).toNat)
    rw [masked_next hlast, h.last]
    have hsend := h.send
    unfold wrap
    split_ifs <;> omega
  · intro q hq
    change q ∈ window _ 16 s.reqSendNo (s.cntQueue+1-s.cntSent).toNat at hq
    rw [hunsent, List.mem_append, List.mem_singleton] at hq
    rcases hq with hq | rfl
    · exact h.nonnull q hq
    · exact hp

theorem relaunchNote_ring (p : ℕ) (s : Ipc) :
    (relaunchNote p s).reqs = s.reqs ∧ (relaunchNote p s).reqSendNo = s.reqSendNo ∧
      (relaunchNote p s).reqQueueNo = s.reqQueueNo ∧ (relaunchNote p s).cntSent = s.cntSent ∧
        (relaunchNote p s).cntQueue = s.cntQueue := by
  unfold relaunchNote
  split <;> exact ⟨rfl,rfl,rfl,rfl,rfl⟩

theorem relaunchNote_ack (p : ℕ) (s : Ipc) :
    (relaunchNote p s).mailboxack = s.mailboxack-(acksFor (s.mem p)-1 : ℕ) := by
  unfold relaunchNote acksFor
  cases (s.mem p).relaunch <;> cases (s.mem p).background <;> simp

theorem acksFor_pos : 1 ≤ acksFor r := by
  unfold acksFor
  split <;> omega

theorem acksFor_setReq {q : ℕ} {r : IpcReq} (h : acksFor r = acksFor (s.mem q)) (p : ℕ) :
    acksFor ((setReq q r s).mem p) = acksFor (s.mem p) := by
  unfold setReq
  by_cases hpq : p = q
  · subst hpq
    simpa using h
  · simp [hpq]

theorem send_empty (h : unsent s = []) : ipcSendrequest s = (none, s) := by
  have h0 : outstanding s = 0 := by rw [← unsent_length, h, List.length_nil]
  exact if_neg (by omega)

theorem send_first (h : RingOk s) {rest : List ℕ} (hu : unsent s = p::rest) :
    (ipcSendrequest s).1 = some p ∧ RingOk (ipcSendrequest s).2 ∧
      unsent (ipcSendrequest s).2 = rest ∧
      (ipcSendrequest s).2.mailboxack = s.mailboxack-acksFor (s.mem p) := by
  have hlen : outstanding s = rest.length+1 := by rw [← unsent_length, hu, List.length_cons]
  have hle : rest.length+1 ≤ 16 := hlen ▸ h.bound
  have hpop : s.reqs s.reqSendNo = p ∧
      window s.reqs 16 (wrap 16 (s.reqSendNo+1)) rest.length = rest := by
    have hw := hu
    rw [unsent, hlen, window_pop s.reqs h.send hle] at hw
    exact List.cons.inj hw
  have hp : p ≠ 0 := h.nonnull p (by rw [hu]; exact List.mem_cons_self)
  have hsend : ipcSendrequest s = (some p, {
      relaunchNote p (setReq p { s.mem p with magic := true } s) with
      reqSendNo := (s.reqSendNo+1) &&& 0x0f
      cntSent := s.cntSent+1
      mailboxack :=
        (relaunchNote p (setReq p { s.mem p with magic := true } s)).mailboxack-1 }) := by
    obtain ⟨-,hno,-,hsent,-⟩ := relaunchNote_ring p (setReq p { s.mem p with magic := true } s)
    unfold ipcSendrequest
    rw [if_pos (by omega)]
    dsimp only
    rw [hpop.1, if_pos hp, hno, hsent]
    rfl
  obtain ⟨hreqs,-,hqueue,-,hcnt⟩ := relaunchNote_ring p (setReq p { s.mem p with magic := true } s)
  rw [hsend]
  have hcount : ((relaunchNote p (setReq p { s.mem p with magic := true } s)).cntQueue-
      (s.cntSent+1)).toNat = rest.length := by
    rw [hcnt]
    change (s.cntQueue-(s.cntSent+1)).toNat = rest.length
    unfold outstanding at hlen
    bv_omega
  have hunsent : window (relaunchNote p (setReq p { s.mem p with magic := true } s)).reqs 16
      ((s.reqSendNo+1) &&& 0x0f) rest.length = rest := by
    rw [hreqs, masked_next h.send]
    exact hpop.2
  refine ⟨rfl,⟨?_,?_,?_,?_⟩,?_,?_⟩
  · change ((s.reqSendNo+1) &&& 0x0f) < 16
    rw [masked_next h.send]
    exact wrap_lt h.send (by omega)
  · exact hcount.le.trans (by omega)
  · refine hqueue.trans ?_
    change s.reqQueueNo = wrap 16 (((s.reqSendNo+1) &&& 0x0f)+(_ : BitVec 32).toNat)
    rw [hcount, masked_next h.send, wrap_succ h.send hle, ← hlen]
    exact h.last
  · intro q hq
    refine h.nonnull q ?_
    change q ∈ window _ 16 _ (_ : BitVec 32).toNat at hq
    rw [hcount, hunsent] at hq
    exact hu ▸ List.mem_cons_of_mem p hq
  · change window _ 16 _ (_ : BitVec 32).toNat = rest
    rw [hcount, hunsent]
  · have hacks : acksFor ((setReq p { s.mem p with magic := true } s).mem p) = acksFor (s.mem p) :=
      acksFor_setReq (r := { s.mem p with magic := true }) rfl p
    have hpos := acksFor_pos (s.mem p)
    rw [relaunchNote_ack]
    change s.mailboxack-_-1 = _
    omega

end Sections

/-! Runs. -/

/-- The requests are sent in the order in which they have been posted, each
once, and none of those that wait is lost. -/
structure Ordered (s : Ring) : Prop where
  ring : RingOk s.ipc
  order : s.posted = s.sent ++ unsent s.ipc

structure Credit (s : Ring) : Prop where
  most : s.ipc.mailboxack ≤ 1
  waits : unsent s.ipc ≠ [] → s.ipc.mailboxack ≤ 0

def Owing (s : Ring) : Prop := 1 ≤ s.owed+s.ipc.mailboxack

section Steps

variable {s : Ring}

section

variable (h : Ordered s)
include h

theorem handOver_none (ht : SameRing s.ipc t) : Ordered (handOver (none, t) s) :=
  ⟨(h.ring.congr ht).1,h.order.trans (congrArg (s.sent ++ ·) (h.ring.congr ht).2.symm)⟩

theorem sent_ordered (ht : SameRing s.ipc t) : Ordered (handOver (ipcSendrequest t) s) := by
  obtain ⟨hok,hun⟩ := h.ring.congr ht
  cases hu : unsent t with
  | nil =>
    rw [send_empty hu]
    exact handOver_none h ht
  | cons p rest =>
    obtain ⟨h1,h2,h3,-⟩ := send_first hok hu
    rw [handOver, h1]
    refine ⟨h2,?_⟩
    rw [h.order, ← hun, hu, h3, List.append_assoc]
    rfl

theorem kick_ordered : Ordered (kick s) := by
  unfold kick ipcKick
  split
  · exact sent_ordered h ⟨rfl,rfl,rfl,rfl⟩
  · exact handOver_none h ⟨rfl,rfl,rfl,rfl⟩

theorem accept_ordered {p : ℕ} (hp : p ≠ 0) (r : IpcReq) : Ordered (accept p r s).2 := by
  obtain ⟨hok,hun⟩ := h.ring.congr (t := setReq p r s.ipc) ⟨rfl,rfl,rfl,rfl⟩
  rcases Nat.lt_or_ge (outstanding (setReq p r s.ipc)) 16 with hlt | hge
  · obtain ⟨h1,h2,h3⟩ := queue_taken hok hlt hp
    refine ⟨h2,?_⟩
    change (if (ipcQueuerequest p (setReq p r s.ipc)).1 then s.posted ++ [p] else s.posted) =
      s.sent ++ unsent (ipcQueuerequest p (setReq p r s.ipc)).2
    rw [h1, if_pos rfl, h3, hun, h.order, List.append_assoc]
  · have hfull : outstanding (setReq p r s.ipc) = 16 := le_antisymm hok.bound hge
    unfold accept
    rw [queue_full hfull]
    exact handOver_none h ⟨rfl,rfl,rfl,rfl⟩

theorem post_ordered {p : ℕ} (hp : p ≠ 0) (r : IpcReq) : Ordered (postRequest p r s) := by
  have ha := accept_ordered h hp r
  unfold postRequest
  dsimp only
  split
  · exact kick_ordered ha
  · exact ha

theorem queue_ordered {p : ℕ} (hp : p ≠ 0) (r : IpcReq) : Ordered (queueRequest p r s) := by
  have ha := accept_ordered h hp r
  unfold queueRequest
  dsimp only
  split
  · exact ⟨ha.ring,ha.order⟩
  · exact ha

end

theorem reply_same (p : ℕ) (t : Ipc) : SameRing t (ipcReplyhandler p t).2 := by
  unfold ipcReplyhandler
  split
  · exact ⟨rfl,rfl,rfl,rfl⟩
  split
  · dsimp only
    split <;> exact ⟨rfl,rfl,rfl,rfl⟩
  · exact ⟨rfl,rfl,rfl,rfl⟩

theorem replied_ordered (h : Ordered s) (p : ℕ) (reqCmd : IosCmd) (result : ℤ) :
    Ordered (replied p (answered p reqCmd result s)) := by
  have ha : Ordered (answered p reqCmd result s) := handOver_none h ⟨rfl,rfl,rfl,rfl⟩
  have hr := ha.ring.congr (reply_same p (answered p reqCmd result s).ipc)
  exact ⟨hr.1,ha.order.trans (congrArg _ hr.2.symm)⟩

theorem acknowledged_ordered (h : Ordered s) : Ordered (acknowledged s) := by
  have h' : Ordered { s with owed := s.owed-1 } := ⟨h.ring,h.order⟩
  unfold acknowledged ipcAckhandler
  dsimp only
  split
  · split
    · exact sent_ordered h' ⟨rfl,rfl,rfl,rfl⟩
    · exact sent_ordered h' ⟨rfl,rfl,rfl,rfl⟩
  · exact handOver_none h' ⟨rfl,rfl,rfl,rfl⟩

/-! The credit. -/

theorem sent_credit (h : Ordered s) (ht : SameRing s.ipc t) (hm : t.mailboxack ≤ 1) :
    Credit (handOver (ipcSendrequest t) s) := by
  cases hu : unsent t with
  | nil =>
    rw [send_empty hu]
    exact ⟨hm,fun hne => absurd hu hne⟩
  | cons p rest =>
    obtain ⟨h1,-,-,h4⟩ := send_first (h.ring.congr ht).1 hu
    have hpos := acksFor_pos (t.mem p)
    have hack : (handOver (ipcSendrequest t) s).ipc.mailboxack ≤ 0 := by
      rw [handOver, h1]
      change (ipcSendrequest t).2.mailboxack ≤ 0
      omega
    exact ⟨by omega,fun _ => hack⟩

theorem kick_credit (h : Ordered s) (hm : s.ipc.mailboxack ≤ 1) : Credit (kick s) := by
  unfold kick ipcKick
  split
  · exact sent_credit h ⟨rfl,rfl,rfl,rfl⟩ hm
  · rename_i hle
    have hle' : s.ipc.mailboxack ≤ 0 := by omega
    exact ⟨hm,fun _ => hle'⟩

theorem queue_ack (p : ℕ) (t : Ipc) : (ipcQueuerequest p t).2.mailboxack = t.mailboxack := by
  unfold ipcQueuerequest
  split <;> rfl

theorem accept_refused (h : Credit s) {p : ℕ} {r : IpcReq} (hr : (accept p r s).1 = false) :
    Credit (accept p r s).2 := by
  have hq : ipcQueuerequest p (setReq p r s.ipc) = (false, setReq p r s.ipc) := by
    change (ipcQueuerequest p (setReq p r s.ipc)).1 = false at hr
    unfold ipcQueuerequest at hr ⊢
    split
    · rfl
    · rename_i hlt
      rw [if_neg hlt] at hr
      cases hr
  unfold accept
  rw [hq]
  exact ⟨h.most,h.waits⟩

theorem post_credit (h : Ordered s) (hc : Credit s) {p : ℕ} (hp : p ≠ 0) (r : IpcReq) :
    Credit (postRequest p r s) := by
  unfold postRequest
  dsimp only
  split
  · exact kick_credit (accept_ordered h hp r) (by rw [accept, queue_ack]; exact hc.most)
  · rename_i hr
    exact accept_refused hc (Bool.eq_false_iff.mpr hr)

theorem queue_credit {p : ℕ} (hle : s.ipc.mailboxack ≤ 0) : Credit (queueRequest p r s) := by
  have hack : (accept p r s).2.ipc.mailboxack ≤ 0 := by
    rw [accept, queue_ack]
    exact hle
  unfold queueRequest
  dsimp only
  split
  · exact ⟨by change (accept p r s).2.ipc.mailboxack ≤ 1; omega,fun _ => hack⟩
  · exact ⟨by omega,fun _ => hack⟩

theorem raiseAck_le (h : t.mailboxack ≤ 1) : (raiseAck t).mailboxack ≤ 1 := by
  unfold raiseAck
  dsimp only
  split <;> omega

theorem acknowledged_credit (h : Ordered s) (hm : s.ipc.mailboxack ≤ 1) :
    Credit (acknowledged s) := by
  have h' : Ordered { s with owed := s.owed-1 } := ⟨h.ring,h.order⟩
  have hle := raiseAck_le hm
  unfold acknowledged ipcAckhandler
  dsimp only
  split
  · split
    · exact sent_credit h' ⟨rfl,rfl,rfl,rfl⟩ hle
    · exact sent_credit h' ⟨rfl,rfl,rfl,rfl⟩ hle
  · rename_i hn
    have hle' : (raiseAck s.ipc).mailboxack ≤ 0 := by omega
    exact ⟨hle,fun _ => hle'⟩

theorem reply_ack (p : ℕ) (t : Ipc) : (ipcReplyhandler p t).2.mailboxack =
    if relaunchReply p t then (raiseAck t).mailboxack else t.mailboxack := by
  unfold ipcReplyhandler
  split
  · rename_i h0
    simp [relaunchReply, h0]
  split
  · dsimp only
    split <;> rfl
  · rename_i hm
    simp [relaunchReply, hm]

theorem replied_most (hm : s.ipc.mailboxack ≤ 1) (p : ℕ) : (replied p s).ipc.mailboxack ≤ 1 := by
  rw [replied, reply_ack]
  split
  · exact raiseAck_le hm
  · exact hm

theorem replied_credit (h : Ordered s) (hc : Credit s) (p : ℕ)
    (hd : relaunchReply p s.ipc = true → unsent s.ipc = [] ∨ s.ipc.mailboxack < 0) :
    Credit (replied p s) := by
  refine ⟨replied_most hc.most p,fun hne => ?_⟩
  have hne' : unsent s.ipc ≠ [] := (h.ring.congr (reply_same p s.ipc)).2 ▸ hne
  have hle := hc.waits hne'
  rw [replied, reply_ack]
  split
  · rename_i hr
    have hlt := (hd hr).resolve_left hne'
    unfold raiseAck
    dsimp only
    split <;> omega
  · exact hle

/-! The acknowledges that IOS owes. -/

theorem sent_owing (h : Ordered s) (ht : SameRing s.ipc t)
    (hacks : ∀ p, acksFor (t.mem p) = acksFor (s.ipc.mem p)) (ho : 1 ≤ s.owed+t.mailboxack) :
    Owing (handOver (ipcSendrequest t) s) := by
  cases hu : unsent t with
  | nil =>
    rw [send_empty hu]
    exact ho
  | cons p rest =>
    obtain ⟨h1,-,-,h4⟩ := send_first (h.ring.congr ht).1 hu
    rw [handOver, h1]
    change (1 : ℤ) ≤ (s.owed+acksFor (s.ipc.mem p) : ℕ)+(ipcSendrequest t).2.mailboxack
    rw [h4, hacks p]
    omega

theorem kick_owing (h : Ordered s) (ho : Owing s) : Owing (kick s) := by
  unfold kick ipcKick
  split
  · exact sent_owing h ⟨rfl,rfl,rfl,rfl⟩ (fun _ => rfl) ho
  · exact ho

theorem accept_owing (ho : Owing s) (p : ℕ) (r : IpcReq) : Owing (accept p r s).2 := by
  unfold Owing
  rw [accept, queue_ack]
  exact ho

theorem raiseAck_owing {n : ℕ} (h : 1 ≤ n+t.mailboxack) :
    1 ≤ ((n-1 : ℕ) : ℤ)+(raiseAck t).mailboxack ∨ n = 0 := by
  unfold raiseAck
  dsimp only
  split <;> omega

theorem acknowledged_owing (h : Ordered s) (ho : Owing s) (hpos : 0 < s.owed) :
    Owing (acknowledged s) := by
  have h' : Ordered { s with owed := s.owed-1 } := ⟨h.ring,h.order⟩
  have hraise := (raiseAck_owing ho).resolve_right (by omega)
  unfold acknowledged ipcAckhandler
  dsimp only
  split
  · split
    · refine sent_owing h' ⟨rfl,rfl,rfl,rfl⟩ (fun p => ?_) hraise
      exact acksFor_setReq
        (r := { (raiseAck s.ipc).mem (raiseAck s.ipc).relnchRpc with result := 0 }) rfl p
    · exact sent_owing h' ⟨rfl,rfl,rfl,rfl⟩ (fun _ => rfl) hraise
  · exact hraise

theorem replied_owing (ho : Owing s) (p : ℕ) : Owing (replied p s) := by
  have hle : acksFor (s.ipc.mem p) ≤ 2 := by
    unfold acksFor
    split <;> omega
  unfold Owing at ho ⊢
  rw [replied, reply_ack]
  split
  · unfold raiseAck
    dsimp only
    split <;> omega
  · exact ho

end Steps

/-! Whole runs. -/

def possible (a : Event) (_ : Ring) : Prop := ∀ r, a ≠ .post 0 r ∧ a ≠ .queue 0 r

/-- Nothing comes between the sections of an asynchronous post while the mailbox
may be written, and IOS does not answer a relaunch while requests wait and one
acknowledge is owed, unless it comes together with the answer. -/
def drains (a : Event) (s : Ring) : Bool :=
  match a with
  | .queue _ _ => decide (s.ipc.mailboxack ≤ 0)
  | .reply p reqCmd result false =>
    !relaunchReply p (answered p reqCmd result s).ipc || (unsent s.ipc).isEmpty ||
      decide (s.ipc.mailboxack < 0)
  | _ => true

def acksDue (a : Event) (s : Ring) : Bool :=
  match a with
  | .ack => decide (0 < s.owed)
  | .reply p reqCmd result true => decide (0 < (replied p (answered p reqCmd result s)).owed)
  | _ => true

section Run

variable {a : Event} {s s' : Ring}

theorem posted_nonnull (hp : possible a s) {p : ℕ} {r : IpcReq}
    (ha : a = .post p r ∨ a = .queue p r) :
    p ≠ 0 := by
  rintro rfl
  rcases ha with ha | ha
  · exact (hp r).1 ha
  · exact (hp r).2 ha

theorem step_ordered (h : Ordered s) (hp : possible a s) (hs : ringStep a s = some s') :
    Ordered s' := by
  cases a with
  | post p r =>
    cases hs
    exact post_ordered h (posted_nonnull hp (.inl rfl)) r
  | queue p r =>
    cases hs
    exact queue_ordered h (posted_nonnull hp (.inr rfl)) r
  | kick =>
    rw [ringStep] at hs
    split at hs
    · cases hs
    · cases hs
      exact kick_ordered ⟨h.ring,h.order⟩
  | reply p reqCmd result ack =>
    cases hs
    have hr := replied_ordered h p reqCmd result
    cases ack with
    | false => exact hr
    | true => exact acknowledged_ordered hr
  | ack =>
    cases hs
    exact acknowledged_ordered h

theorem step_credit (h : Ordered s) (hc : Credit s) (hp : possible a s) (hd : drains a s = true)
    (hs : ringStep a s = some s') : Credit s' := by
  cases a with
  | post p r =>
    cases hs
    exact post_credit h hc (posted_nonnull hp (.inl rfl)) r
  | queue p r =>
    cases hs
    exact queue_credit r (of_decide_eq_true hd)
  | kick =>
    rw [ringStep] at hs
    split at hs
    · cases hs
    · cases hs
      exact kick_credit ⟨h.ring,h.order⟩ hc.most
  | reply p reqCmd result ack =>
    cases hs
    have ha : Ordered (answered p reqCmd result s) := handOver_none h ⟨rfl,rfl,rfl,rfl⟩
    cases ack with
    | false =>
      refine replied_credit ha ⟨hc.most,hc.waits⟩ p (fun hr => ?_)
      rw [drains, hr, Bool.not_true, Bool.false_or, Bool.or_eq_true, List.isEmpty_iff,
        decide_eq_true_eq] at hd
      exact hd
    | true =>
      exact acknowledged_credit (replied_ordered h p reqCmd result)
        (replied_most (s := answered p reqCmd result s) hc.most p)
  | ack =>
    cases hs
    exact acknowledged_credit h hc.most

theorem step_owing (h : Ordered s) (ho : Owing s) (hp : possible a s) (hd : acksDue a s = true)
    (hs : ringStep a s = some s') : Owing s' := by
  cases a with
  | post p r =>
    cases hs
    unfold postRequest
    dsimp only
    split
    · exact kick_owing (accept_ordered h (posted_nonnull hp (.inl rfl)) r) (accept_owing ho p r)
    · exact accept_owing ho p r
  | queue p r =>
    cases hs
    unfold queueRequest
    dsimp only
    split
    · exact accept_owing ho p r
    · exact accept_owing ho p r
  | kick =>
    rw [ringStep] at hs
    split at hs
    · cases hs
    · cases hs
      exact kick_owing ⟨h.ring,h.order⟩ ho
  | reply p reqCmd result ack =>
    cases hs
    have hr : Owing (replied p (answered p reqCmd result s)) :=
      replied_owing (s := answered p reqCmd result s) ho p
    cases ack with
    | false => exact hr
    | true => exact acknowledged_owing (replied_ordered h p reqCmd result) hr (of_decide_eq_true hd)
  | ack =>
    cases hs
    exact acknowledged_owing h ho (of_decide_eq_true hd)

theorem init_unsent : outstanding (ringInit mem).ipc = 0 ∧ unsent (ringInit mem).ipc = [] := by
  have h0 : outstanding (ringInit mem).ipc = 0 := by
    change ((0 : BitVec 32)-0).toNat = 0
    decide
  exact ⟨h0,by rw [← List.length_eq_zero_iff, unsent_length, h0]⟩

theorem init_ordered : Ordered (ringInit mem) := by
  obtain ⟨h0,hu⟩ := init_unsent mem
  refine ⟨⟨Nat.succ_pos 15,by omega,?_,?_⟩,?_⟩
  · rw [h0]
    rfl
  · rw [hu]
    exact fun _ hq => absurd hq List.not_mem_nil
  · rw [hu]
    rfl

theorem init_credit : Credit (ringInit mem) where
  most := Int.le_refl 1
  waits hne := absurd (init_unsent mem).2 hne

end Run

def TakesUpTo16 (s : Ipc) : Prop :=
  (unsent s).length ≤ 16 ∧ ∀ p, p ≠ 0 →
    if (unsent s).length = 16 then ipcQueuerequest p s = (false, s)
    else (ipcQueuerequest p s).1 = true ∧ unsent (ipcQueuerequest p s).2 = unsent s ++ [p]

theorem ordered_takes {s : Ring} (h : Ordered s) : TakesUpTo16 s.ipc := by
  refine ⟨(unsent_length s.ipc).le.trans h.ring.bound,fun p hp => ?_⟩
  rw [unsent_length]
  split
  · rename_i hfull
    exact queue_full hfull p
  · rename_i hne
    obtain ⟨h1,-,h3⟩ := queue_taken h.ring (lt_of_le_of_ne h.ring.bound hne) hp
    exact ⟨h1,h3⟩

/-- In every run the requests are sent in order, each once. In runs that drain
the ring a request that waits has an acknowledge ahead of it. -/
theorem requests_never_stick (mem : ℕ → IpcReq) :
    (∀ s, Reach ringStep possible (ringInit mem) s →
      s.posted = s.sent ++ unsent s.ipc ∧ TakesUpTo16 s.ipc) ∧
    (∀ s, Reach ringStep (fun a s => possible a s ∧ drains a s = true) (ringInit mem) s →
      unsent s.ipc ≠ [] → s.ipc.mailboxack ≤ 0) ∧
    ∀ s, Reach ringStep (fun a s => possible a s ∧ drains a s = true ∧ acksDue a s = true)
      (ringInit mem) s → unsent s.ipc ≠ [] → 0 < s.owed := by
  refine ⟨fun s h => ?_,fun s h => ?_,fun s h => ?_⟩
  · have ho : Ordered s := reach_invariant (init_ordered mem)
      (fun _ _ _ h hp hs => step_ordered h hp hs) h
    exact ⟨ho.order,ordered_takes ho⟩
  · refine (reach_invariant (P := fun s => Ordered s ∧ Credit s)
      ⟨init_ordered mem,init_credit mem⟩ ?_ h).2.waits
    intro a s s' hi hok hs
    exact ⟨step_ordered hi.1 hok.1 hs,step_credit hi.1 hi.2 hok.1 hok.2 hs⟩
  · have hi := reach_invariant (P := fun s => Ordered s ∧ Credit s ∧ Owing s)
      ⟨init_ordered mem,init_credit mem,Int.le_refl 1⟩
      (fun a s s' hi hok hs => ⟨step_ordered hi.1 hok.1 hs,
        step_credit hi.1 hi.2.1 hok.1 hok.2.1 hs,step_owing hi.1 hi.2.2 hok.1 hok.2.2 hs⟩) h
    intro hne
    have hle := hi.2.1.waits hne
    have ho := hi.2.2
    unfold Owing at ho
    omega

def blankReq : IpcReq := ⟨.open,0,none,false,false,0,false⟩

/-- The request of `IOS_IoctlvReboot`. -/
def rebootReq : IpcReq := ⟨.ioctlv,0,none,true,false,1,false⟩

instance (a : Event) (s : Ring) : Decidable (possible a s) :=
  decidable_of_iff ((match a with | .post p _ | .queue p _ => p | _ => 1) ≠ 0) (by
    cases a <;> simp [possible])

theorem requests_never_stick_second : ∃ s, Reach ringStep
      (fun a s => possible a s ∧ drains a s = true ∧ acksDue a s = true)
      (ringInit fun _ => blankReq) s ∧
    unsent s.ipc = [2] ∧ s.ipc.mailboxack ≤ 0 ∧ 0 < s.owed := by
  have hrun : (runChecked ringStep (fun a s => decide (possible a s) && (drains a s && acksDue a s))
      [.post 1 rebootReq, .ack, .post 2 blankReq] (ringInit fun _ => blankReq)).any
        (fun s => decide (unsent s.ipc = [2])) = true := by decide +kernel
  obtain ⟨s,hreach,hu⟩ := run_reaches
    (check_and (fun _ _ => of_decide_eq_true) (check_and (fun _ _ h => h) fun _ _ h => h)) hrun
  have hne : unsent s.ipc ≠ [] := by simp [hu]
  exact ⟨s,hreach,hu,(requests_never_stick _).2.1 s
    (reach_mono (fun _ _ h => ⟨h.1,h.2.1⟩) hreach) hne,
    (requests_never_stick _).2.2 s hreach hne⟩

/-- IOS refuses to be relaunched. Its answer lets the mailbox be written, but the
request that waits is not sent, and no acknowledge is owed. -/
theorem refused_relaunch_sticks : ∃ s, Reach ringStep possible (ringInit fun _ => blankReq) s ∧
    unsent s.ipc = [2] ∧ s.ipc.mailboxack = 1 ∧ s.owed = 0 := by
  have hrun : (runChecked ringStep (fun a s => decide (possible a s))
      [.post 1 rebootReq, .ack, .post 2 blankReq, .reply 1 .ioctlv (-6) false]
      (ringInit fun _ => blankReq)).any (fun s => decide (unsent s.ipc = [2] ∧
        s.ipc.mailboxack = 1 ∧ s.owed = 0)) = true := by decide +kernel
  exact run_reaches (fun _ _ h => of_decide_eq_true h) hrun

end Libogc.IpcRing
