import Libogc.Tuxedo.QueueOrder
import Libogc.Tuxedo.ThreadChange

/-!
# Blocking calls as parts of a system

`KMutexLock` and the condition variable waits return to their caller only
after the thread has run again, so a thread that is inside one of them has a
place in its code. `Sync` adds these places to the kernel, and the timeout
tasks that are in the list of the tick driver. Every action is at most one
call of the kernel. `causes` records by which actions a thread has left the
queue of the condition variables since its wait began, `event` what the last
action returned to its caller, and `since` at which step of `clock` a waiter
took its place among its equals; no action reads any of them.
-/

set_option autoImplicit false

namespace Libogc.SyncSystem
open Option Function GuardedReach ThreadKernel ThreadInvariant Bool
open QueueLoop MutexStep KernelCall CallEffect QueueOrder
open ThreadChange

/-- The call on whose behalf a thread locks a mutex. A wait has its timeout
and the value that `KThrQueueBlock` returned. -/
inductive Purpose where
  | lock
  | wait (cv : ℕ) (ticks : Option ℕ) (ret : Bool)
  deriving DecidableEq, Repr

inductive Place where
  | free
  | locking (m : ℕ) (purpose : Purpose)
  | waiting (cv m : ℕ) (ticks : Option ℕ)
  deriving DecidableEq, Repr

inductive Cause where
  | signal (cv : ℕ)
  | broadcast (cv : ℕ)
  | timeout (t : Tid)
  | other
  deriving DecidableEq, Repr

inductive Event where
  | locked (t : Tid) (m : ℕ)
  | waited (t : Tid) (cv m : ℕ)
  | timedWaited (t : Tid) (cv m ticks : ℕ) (ret : Bool)
  deriving DecidableEq, Repr

inductive Action where
  | call (c : Call)
  | lock (m : ℕ)
  | wait (cv m : ℕ)
  | waitTimeoutTicks (cv m ticks : ℕ)
  | expire (t : Tid)
  | proceed
  deriving DecidableEq, Repr

structure Sync where
  kernel : Kernel
  place : Tid → Place
  timer : Tid → Bool
  causes : Tid → List Cause
  event : Option Event
  since : Tid → ℕ
  clock : ℕ

def syncInit : Sync where
  kernel := kThreadInit
  place _ := .free
  timer _ := false
  causes _ := []
  event := none
  since _ := 0
  clock := 0

def Sync.self (s : Sync) : Tid := s.kernel.self

def blockResult (s : Sync) : Bool := decide (s.kernel.token s.self ≠ 0)

/-- A thread that runs again inside a wait goes on with `KMutexLock`, and one
that runs again inside `KMutexLock` returns. A timeout calls `KThrQueueCancel`. -/
def callOf : Action → Sync → Option Call
  | .call c, _ => some c
  | .lock m, _ => some (.mutexLock m)
  | .wait cv m, _ => some (.condVarWait cv m)
  | .waitTimeoutTicks cv m ticks, _ => if ticks = 0 then none else some (.condVarWait cv m)
  | .expire t, _ => some (.cancel .cvWaitQueue t)
  | .proceed, s =>
    match s.place s.self with
    | .waiting _ m _ => some (.mutexLock m)
    | _ => none

def afterLock (m : ℕ) (purpose : Purpose) (s : Sync) : Place :=
  if s.kernel.owner m = none then .free else .locking m purpose

def nextPlace : Action → Sync → Tid → Place
  | .call c, s =>
    match c with
    | .prepare t _ => update s.place t .free
    | _ => s.place
  | .lock m, s => update s.place s.self (afterLock m .lock s)
  | .wait cv m, s => update s.place s.self (.waiting cv m none)
  | .waitTimeoutTicks cv m ticks, s =>
    if ticks = 0 then s.place else update s.place s.self (.waiting cv m (some ticks))
  | .expire _, s => s.place
  | .proceed, s =>
    match s.place s.self with
    | .waiting cv m ticks =>
      update s.place s.self (afterLock m (.wait cv ticks (blockResult s)) s)
    | _ => update s.place s.self .free

/-- `KTickTaskStart` before the thread blocks, `KTickTaskStop` when it runs
again, and the removal of a one-shot task that fires. -/
def nextTimer : Action → Sync → Tid → Bool
  | .waitTimeoutTicks _ _ ticks, s =>
    if ticks = 0 then s.timer else update s.timer s.self true
  | .expire t, s => update s.timer t false
  | .proceed, s => update s.timer s.self false
  | _, s => s.timer

def causeOf : Action → Cause
  | .call (.condVarSignal cv) => .signal cv
  | .call (.condVarBroadcast cv) => .broadcast cv
  | .expire t => .timeout t
  | _ => .other

def LeftQueue (k k' : Kernel) (t : Tid) : Prop :=
  k.waitQueue t = some .cvWaitQueue ∧ k'.waitQueue t ≠ some .cvWaitQueue

instance (k k' : Kernel) (t : Tid) : Decidable (LeftQueue k k' t) :=
  inferInstanceAs (Decidable (_ ∧ _))

def noted (a : Action) (s : Sync) (k' : Kernel) (t : Tid) : List Cause :=
  if LeftQueue s.kernel k' t then s.causes t ++ [causeOf a] else s.causes t

def nextCauses (a : Action) (s : Sync) (k' : Kernel) : Tid → List Cause :=
  match a with
  | .wait _ _ => update (noted a s k') s.self []
  | .waitTimeoutTicks _ _ ticks =>
    if ticks = 0 then noted a s k' else update (noted a s k') s.self []
  | _ => noted a s k'

def returned (t : Tid) (m : ℕ) : Purpose → Event
  | .lock => .locked t m
  | .wait cv none _ => .waited t cv m
  | .wait cv (some ticks) ret => .timedWaited t cv m ticks ret

def lockReturns (m : ℕ) (purpose : Purpose) (s : Sync) : Option Event :=
  if s.kernel.owner m = none then some (returned s.self m purpose) else none

def nextEvent : Action → Sync → Option Event
  | .lock m, s => lockReturns m .lock s
  | .waitTimeoutTicks cv m ticks, s =>
    if ticks = 0 then some (.timedWaited s.self cv m 0 false) else none
  | .proceed, s =>
    match s.place s.self with
    | .waiting cv m ticks => lockReturns m (.wait cv ticks (blockResult s)) s
    | .locking m purpose => some (returned s.self m purpose)
    | .free => none
  | _, _ => none

def callKernel (c : Option Call) (k : Kernel) : Option Kernel :=
  match c with
  | none => some k
  | some c => kernelCall c k

def syncStep (a : Action) (s : Sync) : Option Sync :=
  (callKernel (callOf a s) s.kernel).map (fun k' => {
    kernel := k'
    place := nextPlace a s
    timer := nextTimer a s
    causes := nextCauses a s k'
    event := nextEvent a s
    since := stamped (s.clock+1) s.since s.kernel k'
    clock := s.clock+1 })

/-- The queue of the condition variables is private, and the calls that block
for a mutex are actions of their own. -/
def ClientCall : Call → Prop
  | .mutexLock _ => False
  | .condVarWait _ _ => False
  | .block q _ => q ≠ .cvWaitQueue
  | .unblock q _ _ _ => q ≠ .cvWaitQueue
  | .cancel q _ => q ≠ .cvWaitQueue
  | _ => True

/-- A thread makes a call when it is in none, an interrupt may come at any
time, and a task fires in an interrupt while it is in the list. -/
def SyncOk : Action → Sync → Prop
  | .call c, s => Sound c s.kernel ∧ ClientCall c ∧
    (s.kernel.inExcpt = false → c ≠ .irqEnter → s.place s.self = .free)
  | .lock _, s => Caller s.kernel ∧ s.place s.self = .free
  | .wait _ _, s => Caller s.kernel ∧ s.place s.self = .free
  | .waitTimeoutTicks _ _ _, s => Caller s.kernel ∧ s.place s.self = .free
  | .expire t, s => s.kernel.inExcpt = true ∧ s.timer t = true
  | .proceed, s => Caller s.kernel ∧ s.place s.self ≠ .free

def isClientCall : Call → Bool
  | .mutexLock _ => false
  | .condVarWait _ _ => false
  | .block q _ => decide (q ≠ .cvWaitQueue)
  | .unblock q _ _ _ => decide (q ≠ .cvWaitQueue)
  | .cancel q _ => decide (q ≠ .cvWaitQueue)
  | _ => true

def syncAdmits : Action → Sync → Bool
  | .call c, s => admits c s.kernel && isClientCall c &&
    (s.kernel.inExcpt || decide (c = .irqEnter) || decide (s.place s.self = .free))
  | .lock _, s => mayCall s.kernel && decide (s.place s.self = .free)
  | .wait _ _, s => mayCall s.kernel && decide (s.place s.self = .free)
  | .waitTimeoutTicks _ _ _, s => mayCall s.kernel && decide (s.place s.self = .free)
  | .expire t, s => s.kernel.inExcpt && s.timer t
  | .proceed, s => mayCall s.kernel && decide (s.place s.self ≠ .free)

variable {a : Action} {c : Call} {s s' : Sync}

theorem isClientCall_client (h : isClientCall c = true) : ClientCall c := by
  cases c <;> simp_all [isClientCall, ClientCall]

theorem mayCall_caller {k : Kernel} (h : mayCall k = true) : Caller k := by
  simpa [mayCall, Caller] using h

theorem syncAdmits_ok (a : Action) (s : Sync) (h : syncAdmits a s = true) : SyncOk a s := by
  cases a with
  | call c =>
    simp only [syncAdmits, and_eq_true, or_eq_true, decide_eq_true_eq] at h
    obtain ⟨⟨hadm,hcl⟩,hfree⟩ := h
    refine ⟨admitted_sound (admits_admitted c s.kernel hadm),isClientCall_client hcl,?_⟩
    intro hx hne
    rcases hfree with (hx' | hirq) | hp
    · simp [hx] at hx'
    · exact absurd hirq hne
    · exact hp
  | expire t => simpa [syncAdmits, SyncOk] using h
  | _ =>
    simp only [syncAdmits, and_eq_true, decide_eq_true_eq] at h
    exact ⟨mayCall_caller h.1,h.2⟩

theorem sync_sound (h : SyncOk a s) (hc : callOf a s = some c) : Sound c s.kernel := by
  cases a with
  | call d =>
    cases hc
    exact h.1
  | lock m | wait cv m =>
    cases hc
    exact ⟨h.1,trivial⟩
  | waitTimeoutTicks cv m ticks =>
    rw [callOf] at hc
    split at hc
    · simp at hc
    · cases hc
      exact ⟨h.1,trivial⟩
  | expire t =>
    cases hc
    exact ⟨trivial,trivial⟩
  | proceed =>
    rw [callOf] at hc
    split at hc
    · cases hc
      exact ⟨h.1,trivial⟩
    · simp at hc

theorem sync_returns {k' : Kernel} (hc : callOf a s = some c)
    (hk : kernelCall c s.kernel = some k') : ∃ s', syncStep a s = some s' ∧ s'.kernel = k' := by
  unfold syncStep
  rw [hc, callKernel, hk]
  exact ⟨_,rfl,rfl⟩

theorem sync_cases (h : syncStep a s = some s') : (callOf a s = none ∧ s'.kernel = s.kernel ∨
      ∃ c, callOf a s = some c ∧ kernelCall c s.kernel = some s'.kernel) ∧
    s'.place = nextPlace a s ∧ s'.timer = nextTimer a s ∧
    s'.causes = nextCauses a s s'.kernel ∧ s'.event = nextEvent a s ∧
    s'.since = stamped (s.clock+1) s.since s.kernel s'.kernel ∧ s'.clock = s.clock+1 := by
  obtain ⟨k',hk',rfl⟩ := map_eq_some_iff.mp h
  refine ⟨?_,rfl,rfl,rfl,rfl,rfl,rfl⟩
  cases hc : callOf a s with
  | none =>
    rw [hc] at hk'
    exact Or.inl ⟨rfl,(some.inj hk').symm⟩
  | some c =>
    rw [hc] at hk'
    exact Or.inr ⟨c,rfl,hk'⟩

theorem sync_inv (hi : Inv s.kernel) (hok : SyncOk a s) (h : syncStep a s = some s') :
    Inv s'.kernel := by
  rcases (sync_cases h).1 with ⟨-,hk⟩ | ⟨c,hc,hk⟩
  · rwa [hk]
  · exact (call_effect hi (sync_sound hok hc) hk).2

structure InOrder (s : Sync) : Prop where
  fifo : Fifo s.since s.kernel
  past : ∀ u, s.since u ≤ s.clock

theorem init_order : InOrder syncInit where
  fifo _ := List.Pairwise.nil
  past _ := le_refl 0

theorem sync_order (hi : Inv s.kernel) (ho : InOrder s) (hok : SyncOk a s)
    (h : syncStep a s = some s') : InOrder s' := by
  obtain ⟨hk,-,-,-,-,hsince,hclock⟩ := sync_cases h
  have hpast : ∀ u, s.since u ≤ s.clock+1 := fun u => (ho.past u).trans (Nat.le_succ _)
  refine ⟨?_,?_⟩
  · rw [hsince]
    rcases hk with ⟨-,hk⟩ | ⟨c,hc,hk⟩
    · exact fifo_same hi.shape ho.fifo (by rw [hk]) (by rw [hk]) (by rw [hk])
    · have hs := sync_sound hok hc
      obtain ⟨⟨k₁,he,hw⟩,-⟩ := call_effect hi hs hk
      have hf := effect_fifo hi hs he ho.fifo hpast
      obtain ⟨_,_,_,hk'⟩ := hw
      rw [hk']
      exact hf
  · rw [hsince, hclock]
    exact stamped_le hpast s.kernel s'.kernel

end Libogc.SyncSystem
