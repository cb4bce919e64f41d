import Libogc.Library.RingWindow
import Libogc.Tuxedo.ThreadChange

/-!
# Mailboxes

A mailbox is a ring of slots. `KMailboxRecv` blocks once when the ring is
empty and takes a message when its thread runs again, without a second look at
the ring. `Mail` adds the mailboxes to the kernel and says for each thread in
whose `KMailboxRecv` it has blocked; `accepted` and `returned` record what the
sends have accepted and the receives have returned, and no action reads them.
As long as each receive that runs again finds a message, the mailboxes deliver
what they accept in order, and the first one that does not breaks this.
-/

set_option autoImplicit false

namespace Libogc.Mailbox
open Option Function GuardedReach RingWindow ThreadKernel ThreadInvariant List
open KernelCall CallEffect

structure KMailbox where
  slots : ℕ → ℕ
  numSlots : ℕ
  curSlot : ℕ
  pendingSlots : ℕ
  recvWaiters : ℕ

def kMailboxPrepare (slots : ℕ → ℕ) (n : ℕ) : KMailbox where
  slots := slots
  numSlots := u16 n
  curSlot := 0
  pendingSlots := 0
  recvWaiters := 0

def u8 (n : ℕ) : ℕ := n % 256

/-- The part of `KMailboxTrySend` that stores a message. -/
def KMailbox.put (message : ℕ) (mb : KMailbox) : KMailbox :=
  { mb with
    slots := update mb.slots (wrap mb.numSlots (mb.curSlot+mb.pendingSlots)) message
    pendingSlots := u16 (mb.pendingSlots+1) }

def KMailbox.front (mb : KMailbox) : ℕ := mb.slots mb.curSlot

/-- The part that the receives share. The count goes down modulo its range. -/
def KMailbox.take (mb : KMailbox) : KMailbox :=
  { mb with
    curSlot := wrap mb.numSlots (u16 (mb.curSlot+1))
    pendingSlots := u16 (mb.pendingSlots+65535) }

structure Mail where
  kernel : Kernel
  box : ℕ → KMailbox
  receiving : Tid → Option ℕ
  accepted : ℕ → List ℕ
  returned : ℕ → List ℕ

def mailInit (slots : ℕ → ℕ → ℕ) (sizes : ℕ → ℕ) : Mail where
  kernel := kThreadInit
  box a := kMailboxPrepare (slots a) (sizes a)
  receiving _ := none
  accepted _ := []
  returned _ := []

def Mail.self (s : Mail) : Tid := s.kernel.self

def setBox (a : ℕ) (mb : KMailbox) (s : Mail) : Mail := { s with box := update s.box a mb }

def accept (a message : ℕ) (s : Mail) : Mail :=
  { setBox a ((s.box a).put message) s with
    accepted := update s.accepted a (s.accepted a ++ [message]) }

def receive (a : ℕ) (s : Mail) : Mail :=
  { setBox a (s.box a).take s with
    returned := update s.returned a (s.returned a ++ [(s.box a).front]) }

def wakeReceiver (a : ℕ) (s : Mail) : Mail :=
  { setBox a { s.box a with recvWaiters := (s.box a).recvWaiters-1 } s with
    kernel := kThrQueueUnblockOneByValue .mailboxRecvQueue a s.kernel }

def kMailboxTrySend (a message : ℕ) (s : Mail) : Bool × Mail :=
  if (s.box a).pendingSlots = (s.box a).numSlots then (false, s)
  else if (s.box a).recvWaiters ≠ 0 then (true, wakeReceiver a (accept a message s))
  else (true, accept a message s)

def kMailboxTryRecv (a : ℕ) (s : Mail) : Bool × Mail :=
  if (s.box a).pendingSlots = 0 then (false, s) else (true, receive a s)

/-- `KMailboxRecv` until it returns or blocks. -/
def kMailboxRecv (a : ℕ) (s : Mail) : Option Mail :=
  if (s.box a).pendingSlots = 0 then
    (kThrQueueBlock .mailboxRecvQueue a s.kernel).map (fun k => {
      setBox a { s.box a with recvWaiters := u8 ((s.box a).recvWaiters+1) } s with
      kernel := k
      receiving := update s.receiving s.self (some a) })
  else some (receive a s)

def recvResume (s : Mail) : Option Mail :=
  (s.receiving s.self).map (fun a =>
    { receive a s with receiving := update s.receiving s.self none })

inductive MailAction where
  | call (c : Call)
  | trySend (a message : ℕ)
  | tryRecv (a : ℕ)
  | recv (a : ℕ)
  | resume
  deriving DecidableEq, Repr

def mailStep : MailAction → Mail → Option Mail
  | .call c, s => (kernelCall c s.kernel).map (fun k => { s with kernel := k })
  | .trySend a message, s => some (kMailboxTrySend a message s).2
  | .tryRecv a, s => some (kMailboxTryRecv a s).2
  | .recv a, s => kMailboxRecv a s
  | .resume, s => recvResume s

/-- The queue of the receivers is private to the mailboxes. -/
def OtherQueue : Call → Prop
  | .block q _ => q ≠ .mailboxRecvQueue
  | .unblock q _ _ _ => q ≠ .mailboxRecvQueue
  | .cancel q _ => q ≠ .mailboxRecvQueue
  | _ => True

/-- A thread makes a call when it is in no receive, and interrupt handlers may
send and receive without blocking. -/
def MailOk : MailAction → Mail → Prop
  | .call c, s => Sound c s.kernel ∧ OtherQueue c ∧
    (s.kernel.inExcpt = false → c ≠ .irqEnter → s.receiving s.self = none)
  | .trySend _ _, s => s.kernel.inExcpt = false → s.receiving s.self = none
  | .tryRecv _, s => s.kernel.inExcpt = false → s.receiving s.self = none
  | .recv _, s => Caller s.kernel ∧ s.receiving s.self = none
  | .resume, s => Caller s.kernel ∧ s.receiving s.self ≠ none

def isOtherQueue : Call → Bool
  | .block q _ => decide (q ≠ .mailboxRecvQueue)
  | .unblock q _ _ _ => decide (q ≠ .mailboxRecvQueue)
  | .cancel q _ => decide (q ≠ .mailboxRecvQueue)
  | _ => true

def mayStart (s : Mail) : Bool := s.kernel.inExcpt || decide (s.receiving s.self = none)

def mailAdmits : MailAction → Mail → Bool
  | .call c, s => admits c s.kernel && isOtherQueue c && (decide (c = .irqEnter) || mayStart s)
  | .trySend _ _, s => mayStart s
  | .tryRecv _, s => mayStart s
  | .recv _, s => mayCall s.kernel && decide (s.receiving s.self = none)
  | .resume, s => mayCall s.kernel && decide (s.receiving s.self ≠ none)

theorem mayStart_starts {s : Mail} (h : mayStart s = true) :
    s.kernel.inExcpt = false → s.receiving s.self = none := by
  intro hx
  simpa [mayStart, hx] using h

theorem mailAdmits_ok (act : MailAction) (s : Mail) (h : mailAdmits act s = true) :
    MailOk act s := by
  cases act with
  | call c =>
    simp only [mailAdmits, Bool.and_eq_true, Bool.or_eq_true, decide_eq_true_eq] at h
    obtain ⟨⟨hadm,hq⟩,hstart⟩ := h
    refine ⟨admitted_sound (admits_admitted c s.kernel hadm),?_,?_⟩
    · cases c <;> simp_all [isOtherQueue, OtherQueue]
    · intro hx hne
      exact mayStart_starts (hstart.resolve_left hne) hx
  | trySend a message | tryRecv a => exact mayStart_starts h
  | _ =>
    simp only [mailAdmits, Bool.and_eq_true, decide_eq_true_eq] at h
    exact ⟨by simpa [mayCall, Caller] using h.1,h.2⟩

/-! The ring behind one mailbox. -/

/-- The messages that are accepted and not yet returned are the window of the
ring, in the order of their acceptance. -/
structure Ring (n : ℕ) (mb : KMailbox) (accepted returned : List ℕ) : Prop where
  size : mb.numSlots = n
  cur : mb.curSlot < n
  fits : mb.pendingSlots ≤ n
  order : accepted = returned ++ window mb.slots n mb.curSlot mb.pendingSlots

section Ring

variable {n : ℕ} {mb : KMailbox} {accepted returned : List ℕ}

theorem prepare_ring {slots : ℕ → ℕ} (h0 : 0 < n) (hn : n < 65536) :
    Ring n (kMailboxPrepare slots n) [] [] :=
  ⟨Nat.mod_eq_of_lt hn,h0,Nat.zero_le n,rfl⟩

section

variable (hn : n < 65536) (h : Ring n mb accepted returned)
include hn h

theorem put_ring (hne : mb.pendingSlots ≠ mb.numSlots) (message : ℕ) :
    Ring n (mb.put message) (accepted ++ [message]) returned := by
  have hlt : mb.pendingSlots < n := lt_of_le_of_ne h.fits (by rwa [h.size] at hne)
  have hcount : (mb.put message).pendingSlots = mb.pendingSlots+1 := by
    change u16 _ = _
    unfold u16
    omega
  refine ⟨h.size,h.cur,by omega,?_⟩
  rw [hcount, h.order, append_assoc]
  change _ = returned ++
    window (update mb.slots (wrap mb.numSlots _) message) n mb.curSlot _
  rw [h.size, window_push mb.slots hlt message]

theorem take_count (hne : mb.pendingSlots ≠ 0) : mb.take.pendingSlots+1 = mb.pendingSlots := by
  have hfits := h.fits
  change u16 _+1 = _
  unfold u16
  omega

theorem take_ring
    (hne : mb.pendingSlots ≠ 0) : Ring n mb.take accepted (returned ++ [mb.front]) := by
  have hcount := take_count hn h hne
  have hfits := h.fits
  have hcur := h.cur
  have hnext : mb.take.curSlot = wrap n (mb.curSlot+1) := by
    change wrap mb.numSlots (u16 _) = _
    rw [h.size, show u16 (mb.curSlot+1) = mb.curSlot+1 by unfold u16; omega]
  refine ⟨h.size,?_,by omega,?_⟩
  · rw [hnext]
    exact wrap_lt h.cur (by omega)
  · have hslots : mb.take.slots = mb.slots := rfl
    rw [h.order, ← hcount, window_pop mb.slots h.cur (by omega), hnext, hslots,
      append_assoc, singleton_append, KMailbox.front]

end

theorem take_empty (h : Ring n mb accepted returned) (h0 : mb.pendingSlots = 0) (message : ℕ) :
    ¬returned ++ [message] <+: accepted := by
  intro hp
  have hlen := hp.length_le
  rw [h.order, h0, window_zero, append_nil, length_append, length_singleton] at hlen
  omega

end Ring

/-! Runs. -/

/-- Each mailbox returns its accepted messages in order, each once, and keeps
its count within its size. -/
def Delivered (s : Mail) : Prop :=
  ∀ a, s.returned a <+: s.accepted a ∧ (s.box a).pendingSlots ≤ (s.box a).numSlots

def Rings (sizes : ℕ → ℕ) (s : Mail) : Prop :=
  ∀ a, Ring (sizes a) (s.box a) (s.accepted a) (s.returned a)

def Finds : MailAction → Mail → Prop
  | .resume, s => ∀ a, s.receiving s.self = some a → (s.box a).pendingSlots ≠ 0
  | _, _ => True

def finds : MailAction → Mail → Bool
  | .resume, s => (s.receiving s.self).all (fun a => decide ((s.box a).pendingSlots ≠ 0))
  | _, _ => true

theorem admits_finds (act : MailAction) (s : Mail)
    (h : (mailAdmits act s && finds act s) = true) : MailOk act s ∧ Finds act s := by
  rw [Bool.and_eq_true] at h
  refine ⟨mailAdmits_ok act s h.1,?_⟩
  cases act with
  | resume =>
    intro a ha
    simpa [finds, ha] using h.2
  | _ => trivial

section Runs

variable {sizes : ℕ → ℕ} {s s' : Mail}

theorem rings_delivered (h : Rings sizes s) : Delivered s := by
  intro a
  refine ⟨?_,?_⟩
  · rw [(h a).order]
    exact prefix_append _ _
  · rw [(h a).size]
    exact (h a).fits

theorem init_rings (slots : ℕ → ℕ → ℕ) (hn : ∀ a, 0 < sizes a ∧ sizes a < 65536) :
    Rings sizes (mailInit slots sizes) :=
  fun a => prepare_ring (hn a).1 (hn a).2

theorem rings_at (h : Rings sizes s) (a : ℕ)
    (ha : Ring (sizes a) (s'.box a) (s'.accepted a) (s'.returned a))
    (hb : ∀ b, b ≠ a → s'.box b = s.box b ∧ s'.accepted b = s.accepted b ∧
      s'.returned b = s.returned b) : Rings sizes s' := by
  intro b
  by_cases he : b = a
  · rwa [he]
  · obtain ⟨h1,h2,h3⟩ := hb b he
    rw [h1, h2, h3]
    exact h b

variable {a : ℕ} {act : MailAction}

theorem accept_rings (hn : ∀ a, sizes a < 65536) (h : Rings sizes s)
    (hne : (s.box a).pendingSlots ≠ (s.box a).numSlots) (message : ℕ) :
    Rings sizes (accept a message s) := by
  apply rings_at h a
  · simp only [accept, setBox, update_self]
    exact put_ring (hn a) (h a) hne message
  · intro b hb
    simp only [accept, setBox, update_of_ne hb, and_self]

theorem receive_rings (hn : ∀ a, sizes a < 65536) (h : Rings sizes s)
    (hne : (s.box a).pendingSlots ≠ 0) : Rings sizes (receive a s) := by
  apply rings_at h a
  · simp only [receive, setBox, update_self]
    exact take_ring (hn a) (h a) hne
  · intro b hb
    simp only [receive, setBox, update_of_ne hb, and_self]

theorem counted_rings (h : Rings sizes s) (a n : ℕ) :
    Rings sizes (setBox a { s.box a with recvWaiters := n } s) := by
  apply rings_at h a
  · simp only [setBox, update_self]
    exact ⟨(h a).size,(h a).cur,(h a).fits,(h a).order⟩
  · intro b hb
    simp only [setBox, update_of_ne hb, and_self]

theorem mail_rings (hn : ∀ a, sizes a < 65536) (h : Rings sizes s)
    (hf : Finds act s) (hs : mailStep act s = some s') : Rings sizes s' := by
  cases act with
  | call c =>
    obtain ⟨k,-,rfl⟩ := map_eq_some_iff.mp hs
    exact h
  | trySend a message =>
    cases hs
    unfold kMailboxTrySend
    split
    · exact h
    · rename_i hne
      have hacc := accept_rings hn h hne message
      split
      · exact counted_rings hacc a _
      · exact hacc
  | tryRecv a =>
    cases hs
    unfold kMailboxTryRecv
    split
    · exact h
    · rename_i hne
      exact receive_rings hn h hne
  | recv a =>
    change kMailboxRecv a s = some s' at hs
    unfold kMailboxRecv at hs
    split at hs
    · obtain ⟨k,-,rfl⟩ := map_eq_some_iff.mp hs
      exact counted_rings h a _
    · rename_i hne
      cases hs
      exact receive_rings hn h hne
  | resume =>
    obtain ⟨a,ha,rfl⟩ := map_eq_some_iff.mp hs
    exact receive_rings hn h (hf a ha)

theorem resume_breaks (h : Rings sizes s) (ha : s.receiving s.self = some a)
    (h0 : (s.box a).pendingSlots = 0) (hs : mailStep .resume s = some s') : ¬Delivered s' := by
  obtain ⟨b,hb,rfl⟩ := map_eq_some_iff.mp hs
  obtain rfl := mem_unique ha hb
  intro hd
  have hp := (hd a).1
  simp only [receive, update_self] at hp
  exact take_empty (h a) h0 _ hp

theorem step_delivers_iff (hn : ∀ a, sizes a < 65536) (h : Rings sizes s)
    (hs : mailStep act s = some s') : Delivered s' ↔ Finds act s := by
  refine ⟨?_,fun hf => rings_delivered (mail_rings hn h hf hs)⟩
  intro hd
  cases act with
  | resume => exact fun a ha h0 => resume_breaks h ha h0 hs hd
  | _ => trivial

end Runs

/-- A run in which every receive that runs again finds a message delivers in
every state, and a step from such a run breaks the delivery exactly if it is a
receive that runs again and finds none. -/
theorem mailbox_delivery {slots : ℕ → ℕ → ℕ} {sizes : ℕ → ℕ} {s : Mail}
    (hn : ∀ a, 0 < sizes a ∧ sizes a < 65536)
    (h : Reach mailStep (fun act s => MailOk act s ∧ Finds act s) (mailInit slots sizes) s) :
    Delivered s ∧ ∀ act s', MailOk act s → mailStep act s = some s' →
      (Delivered s' ↔ Finds act s) := by
  have hlt : ∀ a, sizes a < 65536 := fun a => (hn a).2
  have hr : Rings sizes s :=
    reach_invariant (init_rings slots hn) (fun _ _ _ hi hok hs => mail_rings hlt hi hok.2 hs) h
  exact ⟨rings_delivered hr,fun _ _ _ hs => step_delivers_iff hlt hr hs⟩

theorem mailbox_delivery_blocked : ∃ s, Reach mailStep (fun act s => MailOk act s ∧ Finds act s)
    (mailInit (fun _ _ => 0) (fun _ => 1)) s ∧ s.returned 7 = [42] ∧ Delivered s := by
  have hrun : (runChecked mailStep (fun act s => mailAdmits act s && finds act s)
      [.call (.prepare 2 10), .call (.resume 2), .recv 7, .trySend 7 42, .resume]
      (mailInit (fun _ _ => 0) (fun _ => 1))).any
      (fun s => decide (s.returned 7 = [42])) = true := by decide +kernel
  obtain ⟨s,hreach,hret⟩ := run_reaches admits_finds hrun
  have hsize : ∀ a : ℕ, 0 < 1 ∧ 1 < 65536 := fun _ => ⟨by decide,by decide⟩
  exact ⟨s,hreach,hret,(mailbox_delivery hsize hreach).1⟩

/-- Thread 2 blocks in a receive from mailbox 7, and the main thread in one from
mailbox 8. An interrupt sends to mailbox 8, the main thread then sends to
mailbox 7 and takes the message back, and thread 2 runs again. -/
theorem message_returned_twice : ∃ s, Reach mailStep MailOk
    (mailInit (fun _ _ => 0) (fun _ => 1)) s ∧ s.accepted 7 = [42] ∧ s.returned 7 = [42, 42] ∧
    (s.box 7).pendingSlots = 65535 ∧ (s.box 7).numSlots = 1 ∧ ¬Delivered s := by
  have hrun : (runChecked mailStep mailAdmits [.call (.prepare 2 100), .call (.resume 2), .recv 8,
      .recv 7, .call .irqEnter, .trySend 8 1, .call .irqReturn, .resume, .trySend 7 42,
      .tryRecv 7, .recv 8, .resume] (mailInit (fun _ _ => 0) (fun _ => 1))).any
      (fun s => decide (s.accepted 7 = [42] ∧ s.returned 7 = [42, 42] ∧
        (s.box 7).pendingSlots = 65535 ∧ (s.box 7).numSlots = 1)) = true := by decide +kernel
  obtain ⟨s,hreach,hacc,hret,hpend,hnum⟩ := run_reaches mailAdmits_ok hrun
  refine ⟨s,hreach,hacc,hret,hpend,hnum,?_⟩
  intro hdel
  have hle := (hdel 7).2
  omega

end Libogc.Mailbox
