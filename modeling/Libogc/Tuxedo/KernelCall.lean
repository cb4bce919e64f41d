import Libogc.Library.GuardedReach
import Libogc.Tuxedo.MutexStep

/-!
# Calls and runs of the kernel

A run starts at `KThreadInit` and takes one call after another, from a thread
or from an interrupt handler. `Allowed` is the contract of the callers: the
idle thread, which executes an empty loop and is private to the kernel, makes
no call and is no target, a thread object is prepared only while it is not
live, only threads block, and a thread that exits owns no mutex. The second
half of a condition variable wait is a `mutexLock` of the thread that runs
again, so a run may also take it at any later point.
-/

set_option autoImplicit false

namespace Libogc.KernelCall
open Function PrefixInsert GuardedReach ThreadKernel ThreadInvariant List Bool
open PrioUpdate QueueStep QueueLoop MutexStep

inductive Call where
  | prepare (t : Tid) (prio : ℕ)
  | resume (t : Tid)
  | suspend (t : Tid)
  | setPrio (t : Tid) (prio : ℕ)
  | yield
  | block (q : KThrQueue) (token : ℕ)
  | unblock (q : KThrQueue) (max : ℤ) (mode : KThrUnblockMode) (ref : ℕ)
  | cancel (q : KThrQueue) (t : Tid)
  | mutexLock (m : ℕ)
  | mutexTryLock (m : ℕ)
  | mutexUnlock (m : ℕ)
  | condVarWait (cv m : ℕ)
  | condVarSignal (cv : ℕ)
  | condVarBroadcast (cv : ℕ)
  | join (t : Tid)
  | exit (rc : ℤ)
  | irqEnter
  | irqReturn
  deriving DecidableEq, Repr

def kernelCall : Call → Kernel → Option Kernel
  | .prepare t prio, k => some (kThreadPrepare t prio k)
  | .resume t, k => kThreadResume t k
  | .suspend t, k => kThreadSuspend t k
  | .setPrio t prio, k => kThreadSetPrio t prio k
  | .yield, k => kThreadYield k
  | .block q token, k => kThrQueueBlock q token k
  | .unblock q max mode ref, k => some (kThrQueueUnblockCommon q max mode ref k)
  | .cancel q t, k => some (kThrQueueCancel q t k)
  | .mutexLock m, k => kMutexLock m k
  | .mutexTryLock m, k => some (kMutexTryLock m k).2
  | .mutexUnlock m, k => kMutexUnlock m k
  | .condVarWait cv m, k => condVarBlock cv m k
  | .condVarSignal cv, k => some (kCondVarSignal cv k)
  | .condVarBroadcast cv, k => some (kCondVarBroadcast cv k)
  | .join t, k => kThreadJoin t k
  | .exit rc, k => kThreadExit rc k
  | .irqEnter, k => some (irqEnter k)
  | .irqReturn, k => some (irqReturn k)

def Caller (k : Kernel) : Prop := k.inExcpt = false ∧ k.self ≠ idleThread

def Target (t : Tid) (k : Kernel) : Prop := t ≠ idleThread ∧ k.state t ≠ .uninit

def Free (q : KThrQueue) : Prop := ∀ o, q ≠ .waiters o

def Allowed : Call → Kernel → Prop
  | .prepare t _, k => t ≠ idleThread ∧ ¬Live k t
  | .resume t, k => Target t k
  | .suspend t, k => Target t k
  | .setPrio t _, k => Target t k
  | .yield, _ => True
  | .block q _, k => Caller k ∧ Free q
  | .unblock q _ _ _, _ => Free q
  | .cancel _ _, _ => True
  | .mutexLock _, k => Caller k
  | .mutexTryLock _, k => Caller k
  | .mutexUnlock _, k => Caller k
  | .condVarWait _ _, k => Caller k
  | .condVarSignal _, _ => True
  | .condVarBroadcast _, _ => True
  | .join _, k => Caller k
  | .exit _, k => Caller k ∧ ∀ m, k.owner m ≠ some k.self
  | .irqEnter, k => k.inExcpt = false
  | .irqReturn, k => k.inExcpt = true

/-- A finished thread is neither resumed to run nor linked in again. -/
def KeepsFinished : Call → Kernel → Prop
  | .resume t, k => ¬(k.state t = .finished ∧ k.suspend t = 1)
  | .setPrio t prio, k => k.state t = .finished → prio &&& minPrio = k.prio t
  | _, _ => True

def Sound (c : Call) (k : Kernel) : Prop := Allowed c k ∧ KeepsFinished c k

def target : Call → Option Tid
  | .resume t => some t
  | .suspend t => some t
  | .setPrio t _ => some t
  | _ => none

def Admitted (c : Call) (k : Kernel) : Prop :=
  Allowed c k ∧ ∀ t, target c = some t → k.state t ≠ .finished

variable {k : Kernel} {t : Tid}

theorem admitted_sound {c : Call} (h : Admitted c k) : Sound c k := by
  refine ⟨h.1,?_⟩
  cases c with
  | resume t => exact fun hf => h.2 t rfl hf.1
  | setPrio t prio => exact fun hf => absurd hf (h.2 t rfl)
  | _ => trivial

def mayCall (k : Kernel) : Bool := !k.inExcpt && decide (k.self ≠ idleThread)

def mayName (t : Tid) (k : Kernel) : Bool :=
  decide (t ≠ idleThread) && decide (k.state t ≠ .uninit) && decide (k.state t ≠ .finished)

def isFree : KThrQueue → Bool
  | .waiters _ => false
  | _ => true

/-- A test for `Admitted` that runs. It admits no exit, since what an exiting
thread owns is not a finite check. -/
def admits : Call → Kernel → Bool
  | .prepare t _, k =>
    decide (t ≠ idleThread) && (decide (k.state t = .uninit) || decide (k.state t = .finished))
  | .resume t, k => mayName t k
  | .suspend t, k => mayName t k
  | .setPrio t _, k => mayName t k
  | .block q _, k => mayCall k && isFree q
  | .unblock q _ _ _, _ => isFree q
  | .mutexLock _, k => mayCall k
  | .mutexTryLock _, k => mayCall k
  | .mutexUnlock _, k => mayCall k
  | .condVarWait _ _, k => mayCall k
  | .join _, k => mayCall k
  | .exit _, _ => false
  | .irqEnter, k => !k.inExcpt
  | .irqReturn, k => k.inExcpt
  | _, _ => true

theorem isFree_free {q : KThrQueue} (h : isFree q = true) : Free q := by
  rintro o rfl
  simp [isFree] at h

theorem admits_admitted (c : Call) (k : Kernel) (h : admits c k = true) : Admitted c k := by
  cases c with
  | prepare t prio =>
    simp only [admits, and_eq_true, or_eq_true, decide_eq_true_eq] at h
    refine ⟨⟨h.1,?_⟩,by simp [target]⟩
    rcases h.2 with hs | hs <;> simp [Live, hs]
  | block q token =>
    simp only [admits, and_eq_true] at h
    exact ⟨⟨by simpa [mayCall, Caller] using h.1,isFree_free h.2⟩,by simp [target]⟩
  | unblock q max mode ref => exact ⟨isFree_free h,by simp [target]⟩
  | _ => simp_all [Admitted, Allowed, Caller, Target, target, admits, mayCall, mayName]

/-! Changes of the context. -/

theorem findRunnable_spec (h : Core k) :
    ∃ r, kThreadFindRunnable k.firstThread k = some r ∧ k.state r = .running ∧
      ∀ u, k.state u = .running → k.prio r ≤ k.prio u := by
  have hidle : idleThread ∈ k.firstThread :=
    (h.shape.first_live _).mpr (running_live h.shape.idle_running)
  cases hf : kThreadFindRunnable k.firstThread k with
  | none =>
    have hn := find?_eq_none.mp hf idleThread hidle
    simp [h.shape.idle_running] at hn
  | some r =>
    refine ⟨r,rfl,by simpa using find?_some hf,?_⟩
    intro u hu
    exact pairwise_find (R := fun a b => k.prio a ≤ k.prio b) (fun _ => le_refl _) h.sorted.first
      hf ((h.shape.first_live u).mpr (running_live hu)) (by simpa using hu)

theorem switchTo_inv (h : Core k) {r : Tid} (hr : k.state r = .running) (hm : Remembered k)
    (hne : k.inExcpt = true → r ≠ k.self) : Inv (kThreadSwitchTo r k) := by
  unfold kThreadSwitchTo
  split
  · rename_i hx
    split
    · refine ⟨h.withCtx k.self (some r) k.inExcpt,⟨hr,?_,?_⟩⟩
      · simp [hx]
      · simpa using hne hx
    · rename_i c hc
      split
      · refine ⟨h.withCtx k.self (some r) k.inExcpt,⟨hr,?_,?_⟩⟩
        · simp [hx]
        · simpa using hne hx
      · refine ⟨h,⟨?_,?_,hm.other⟩⟩
        · rw [current, hc]
          exact hm.running c hc
        · simp [hx]
  · rename_i hx
    exact ⟨h.withCtx r none k.inExcpt,⟨hr,fun _ => rfl,by simp⟩⟩

theorem reschedule_inv (h : Inv k) {t : Option Tid} (ht : ∀ r, t = some r → k.state r = .running) :
    Inv (kThreadReschedule t k) := by
  unfold kThreadReschedule
  split
  · exact h
  · rename_i r
    split
    · rename_i hp
      apply switchTo_inv h.toCore (ht r rfl) h.scheduled.remembered
      rintro - rfl
      omega
    · exact h

/-! What each call can do. -/

theorem suspended_waiting (h : Shape k) (ht : Target t k) (h1 : k.suspend t = 1)
    (hq : k.waitQueue t = none) (hf : ¬(k.state t = .finished ∧ k.suspend t = 1)) :
    k.state t = .waiting := by
  cases hs : k.state t with
  | waiting => rfl
  | uninit => exact absurd hs ht.2
  | finished => exact absurd ⟨hs,h1⟩ hf
  | running => simp [h.running t hs] at h1
  | waitingMutex =>
    obtain ⟨o,ho⟩ := (h.mutex t).mp hs
    rw [hq] at ho
    simp at ho

theorem resume_cases (h : Inv k) (ht : Target t k)
    (hf : ¬(k.state t = .finished ∧ k.suspend t = 1)) :
    (k.suspend t = 0 ∧ kThreadResume t k = some k) ∨
    (k.suspend t ≠ 0 ∧ (k.suspend t-1 ≠ 0 ∨ (k.waitQueue t).isSome) ∧ kThreadResume t k =
      some { k with suspend := update k.suspend t (k.suspend t-1) }) ∨
    (k.suspend t = 1 ∧ k.state t = .waiting ∧ k.waitQueue t = none ∧
      ((t ≠ k.self ∧ kThreadResume t k =
          some (kThreadReschedule (some t) (setRun t .running 0 k))) ∨
        (t = k.self ∧ ∃ c, k.nextCtx = some c ∧ kThreadResume t k =
          some (if k.prio t < k.prio c then { setRun t .running 0 k with nextCtx := none }
            else setRun t .running 0 k)))) := by
  unfold kThreadResume
  by_cases h0 : k.suspend t = 0
  · rw [if_pos h0]
    exact Or.inl ⟨h0,rfl⟩
  rw [if_neg h0]
  right
  have hnr : k.state t ≠ .running := fun hr => h0 (h.shape.running t hr)
  have hu : update k.suspend t (k.suspend t-1) t = k.suspend t-1 :=
    update_self _ _ _
  dsimp only
  by_cases hc : k.suspend t-1 ≠ 0 ∨ (k.waitQueue t).isSome
  · left
    rw [if_pos (by rwa [hu])]
    exact ⟨h0,hc,rfl⟩
  right
  have hz : k.suspend t-1 = 0 := by
    by_contra hn
    exact hc (Or.inl hn)
  have hq : k.waitQueue t = none := by
    cases hq : k.waitQueue t with
    | none => rfl
    | some q => exact absurd (Or.inr (by simp [hq])) hc
  have h1 : k.suspend t = 1 := by omega
  refine ⟨h1,suspended_waiting h.shape ht h1 hq hf,hq,?_⟩
  rw [if_neg (by rwa [hu]), hz]
  by_cases hself : t = k.self
  · right
    refine ⟨hself,?_⟩
    cases hn : k.nextCtx with
    | none =>
      have hr := h.scheduled.runs
      rw [current, hn] at hr
      exact absurd (hself ▸ hr) hnr
    | some c =>
      refine ⟨c,rfl,?_⟩
      have hself' : ¬(t ≠ k.self) := fun hne => hne hself
      simp only [setState, setRun, hself', hn]
      rfl
  · left
    refine ⟨hself,?_⟩
    simp only [setState, ne_eq, hself]
    rfl

theorem suspend_cases (h : Inv k) : (k.state t ≠ .running ∧ kThreadSuspend t k =
      some { k with suspend := update k.suspend t (u16 (k.suspend t+1)) }) ∨
    (k.state t = .running ∧ k.suspend t = 0 ∧
      ((t = k.self ∧ kThreadSuspend t k = switchToRunnable (setRun t .waiting 1 k)) ∨
        (t ≠ k.self ∧ k.nextCtx = some t ∧ kThreadSuspend t k = some { setRun t .waiting 1 k with
            nextCtx :=
              if kThreadFindRunnable k.firstThread (setRun t .waiting 1 k) = some k.self then none
              else kThreadFindRunnable k.firstThread (setRun t .waiting 1 k) }) ∨
        (t ≠ k.self ∧ k.nextCtx ≠ some t ∧
          kThreadSuspend t k = some (setRun t .waiting 1 k)))) := by
  by_cases hr : k.state t = .running
  · right
    have h0 := h.shape.running t hr
    have hq : update k.waitQueue t none = k.waitQueue := by
      rw [← h.shape.not_queued hr, update_eq_self]
    have hcond : ¬(k.suspend t ≠ 0 ∨ k.state t ≠ .running) := by simp [h0, hr]
    refine ⟨hr,h0,?_⟩
    unfold kThreadSuspend
    rw [if_neg hcond, h0]
    simp only [setState, hq]
    by_cases hself : t = k.self
    · left
      refine ⟨hself,?_⟩
      rw [if_pos hself]
      rfl
    · right
      rw [if_neg hself]
      by_cases hn : k.nextCtx = some t
      · left
        rw [if_pos hn]
        exact ⟨hself,hn,rfl⟩
      · right
        rw [if_neg hn]
        exact ⟨hself,hn,rfl⟩
  · left
    refine ⟨hr,?_⟩
    unfold kThreadSuspend
    rw [if_pos (Or.inr hr)]

def withBase (t : Tid) (prio : ℕ) (k : Kernel) : Kernel :=
  { k with baseprio := update k.baseprio t (prio &&& minPrio) }

theorem withBase_spec (h : Core k) (ht : t ≠ idleThread) (prio : ℕ) :
    Shape (withBase t prio k) ∧ Owned (withBase t prio k) ∧ Sorted (withBase t prio k) ∧
      PrioExcept (· = t) (withBase t prio k) :=
  ⟨setBase_shape h.shape ht Nat.and_le_right,⟨h.owned.waits,h.owned.live⟩,
    ⟨h.sorted.first,h.sorted.queue⟩,setBase_prio t _ h.prio⟩

def setPrioNext (t : Tid) (curprio : ℕ) (k : Kernel) : Option Tid :=
  if t = k.self then
    if curprio < k.prio k.self then kThreadFindRunnable k.firstThread k else none
  else if k.state t = .running then some t else none

theorem setPrio_spec {prio : ℕ} (h : Inv k) (ht : Target t k)
    (hf : k.state t = .finished → prio &&& minPrio = k.prio t) :
    ∃ k', Settled (withBase t prio k) k' ∧ Core k' ∧
      (k.waitQueue t = none → ∀ u, u ≠ t → k'.prio u = k.prio u) ∧ kThreadSetPrio t prio k =
        some (kThreadReschedule (setPrioNext t (k.prio k.self) k') k') := by
  obtain ⟨hs,hw,ho,he⟩ := withBase_spec h.toCore ht.1 prio
  have hup : ∃ k', kThreadUpdateDynamicPrio t (withBase t prio k) = some k' ∧
      Settled (withBase t prio k) k' := by
    by_cases hl : Live k t
    · exact update_settles t _ hs hw ho he hl
    · have hfin : k.state t = .finished := by
        by_contra hn
        exact hl ⟨ht.2,hn⟩
      have hexp : expectedPrio (withBase t prio k) t = prio &&& minPrio := by
        rw [expectedPrio, show (withBase t prio k).members (.waiters t) = [] from
          h.owned.dead_waiters h.shape hl]
        exact update_self _ _ _
      have hp : PrioAt (withBase t prio k) t := by
        change k.prio t = _
        rw [hexp, hf hfin]
      exact ⟨_,updateLoop_done _ t _ hp,Settled.of_prioAt ho t he hp⟩
  obtain ⟨k',hk',hset⟩ := hup
  refine ⟨k',hset,⟨hset.reorder.shape hs,hset.reorder.owned hw,hset.sorted,hset.prio⟩,?_,?_⟩
  · intro hq u hu
    rw [update_unqueued t (withBase t prio k) hq] at hk'
    rw [← Option.some.inj hk', refresh_prio, update_of_ne hu]
    rfl
  unfold kThreadSetPrio
  dsimp only
  rw [show kThreadUpdateDynamicPrio t { k with
    baseprio := update k.baseprio t (prio &&& minPrio) } = some k' from hk']
  rfl

theorem yieldNext_spec (h : Core k) : ∃ r, yieldNext k = some r ∧ k.state r = .running ∧
      (k.prio r ≤ k.prio k.self ∨ ∀ u, k.state u = .running → k.prio r ≤ k.prio u) := by
  obtain ⟨b,hb,hbr,hbest⟩ := findRunnable_spec h
  unfold yieldNext
  split
  · rename_i t hf
    split
    · exact ⟨b,hb,hbr,Or.inr hbest⟩
    · exact ⟨t,rfl,by simpa using find?_some hf,Or.inl (by omega)⟩
  · exact ⟨b,hb,hbr,Or.inr hbest⟩

theorem cancel_cases (q : KThrQueue) (t : Tid) :
    (¬(k.state t = .waiting ∧ k.waitQueue t = some q) ∧ kThrQueueCancel q t k = k) ∨
    (k.state t = .waiting ∧ k.waitQueue t = some q ∧ kThrQueueCancel q t k =
      kThreadReschedule (if k.suspend t = 0 then some t else none)
        (leave q t 0 (awake k t) k)) := by
  unfold kThrQueueCancel
  by_cases hc : k.state t = .waiting ∧ k.waitQueue t = some q
  · right
    obtain ⟨hs,hq⟩ := hc
    have hw : update k.state t .waiting = k.state := by
      rw [← hs, update_eq_self]
    refine ⟨hs,hq,?_⟩
    rw [if_neg (by simp [hs, hq])]
    simp only [kThrQueueRemove, hq, if_true, setToken, setState]
    by_cases h0 : k.suspend t = 0
    · rw [if_pos h0, if_pos h0, awake, if_pos h0]
      rfl
    · rw [if_neg h0, if_neg h0, awake, if_neg h0, leave, hw]
      rfl
  · left
    refine ⟨hc,if_pos ?_⟩
    by_contra hn
    push Not at hn
    exact hc hn

theorem wake_running {q : KThrQueue} {mode : KThrUnblockMode} {ref : ℕ} {us : List Tid} {r : Tid}
    (hr : us.find? (fun t => decide (k.suspend t = 0)) = some r) :
    (wake q mode ref us k).state r = .running := by
  have hm := mem_of_find?_eq_some hr
  have hs : k.suspend r = 0 := by simpa using find?_some hr
  simp [wake, hm, awake, hs]

end Libogc.KernelCall
