import Libogc.Tuxedo.Preemption

/-!
# Preemptive runs

A call misses nothing when the thread it makes ready is compared with the
right context, and overlooks nothing when a new base priority stays where the
call looks for it. Along a run of such calls the current context is always the
best. The two ways to leave such a run are a `KThreadSetPrio` of a thread that
waits for a mutex, and a handler that makes a thread ready after it has
suspended the thread it interrupted or changed a priority.
-/

set_option autoImplicit false

namespace Libogc.PreemptiveRun
open Option GuardedReach InheritedValue ThreadKernel ThreadInvariant Function
open PrioUpdate QueueStep QueueLoop MutexStep KernelCall
open CallEffect PriorityInheritance Preemption

def readied : Call → Kernel → Option Tid
  | .resume t, k =>
    if t ≠ k.self ∧ k.suspend t = 1 ∧ k.waitQueue t = none then some t else none
  | .unblock q max mode ref, k => firstReady q max mode ref k
  | .cancel q t, k =>
    if k.state t = .waiting ∧ k.waitQueue t = some q ∧ k.suspend t = 0 then some t else none
  | .condVarSignal cv, k => firstReady .cvWaitQueue 1 .byValue cv k
  | .condVarBroadcast cv, k => firstReady .cvWaitQueue (-1) .byValue cv k
  | _, _ => none

structure Preemptive (c : Call) (k : Kernel) : Prop where
  ready : ∀ r, readied c k = some r → ¬Missed r k
  prio : ∀ t prio, c = .setPrio t prio → ¬Overlooked t (prio &&& minPrio) k

variable {k : Kernel} {t : Tid}

theorem call_best {c : Call} {k' : Kernel} (h : Inv k) (hb : Best k) (hs : Sound c k)
    (hp : Preemptive c k) (hk : kernelCall c k = some k') : Best k' := by
  have ho : Holds c k := call_holds hk
  obtain ⟨ha,hf⟩ := hs
  cases c with
  | prepare t prio =>
    cases hk
    exact prepare_best prio h hb ha.2
  | resume t =>
    apply resume_best h hb ha hf _ hk
    intro hne h1 hq
    exact hp.ready t (if_pos ⟨hne,h1,hq⟩)
  | suspend t => exact suspend_best h hb ha hk
  | setPrio t prio => exact setPrio_best h hb ha hf (hp.prio t prio rfl) hk
  | yield => exact yield_best h hb hk
  | block q token =>
    exact runnable_best
      (enterQueue_core token h.toCore (h.caller_running ha.1.1).1 ha.1.2 ha.2) hk
  | unblock q max mode ref =>
    cases hk
    exact unblock_best h hb ha hp.ready
  | cancel q t =>
    cases hk
    exact cancel_best h hb (fun hst hq h0 => hp.ready t (if_pos ⟨hst,hq,h0⟩))
  | mutexLock m => exact lock_best h hb ha hk
  | mutexTryLock m =>
    cases hk
    unfold kMutexTryLock
    split <;> exact hb
  | mutexUnlock m => exact unlock_best h hb ha ho hk
  | condVarWait cv m =>
    obtain ⟨k₁,hk₁,hrel⟩ := release_spec h.toCore (h.caller_running ha.1).1 ho
    change (releaseMutex m k).bind _ = _ at hk
    rw [hk₁] at hk
    refine runnable_best (enterQueue_core cv hrel.core ?_ ?_ (by simp [Free])) hk
    · rw [hrel.ctx.self]
      exact released_self h ha.1 hrel
    · rw [hrel.ctx.self]
      exact ha.2
  | condVarSignal cv | condVarBroadcast cv =>
    cases hk
    exact unblock_best h hb (by simp [Free]) hp.ready
  | join t =>
    change kThreadJoin t k = _ at hk
    unfold kThreadJoin at hk
    split at hk
    · cases hk
      exact hb
    · exact runnable_best
        (enterQueue_core t h.toCore (h.caller_running ha.1).1 ha.2 (by simp [Free])) hk
  | exit rc => exact exit_best h hb ha.1 ha.2 hk
  | irqEnter =>
    cases hk
    exact hb
  | irqReturn =>
    cases hk
    rw [irqReturn_eq]
    exact hb

def Executing (k : Kernel) : Prop :=
  k.state k.self = .running ∧ ∀ r, k.state r = .running → k.prio k.self ≤ k.prio r

theorem executing_iff (hs : Scheduled k) (hn : k.nextCtx = none) : Executing k ↔ Best k := by
  have hr := hs.runs
  rw [current_self hn] at hr
  unfold Executing Best
  rw [current_self hn]
  exact and_iff_right hr

def Prompt (c : Call) (k : Kernel) : Prop := Sound c k ∧ Preemptive c k

theorem reach_best {k₀ : Kernel} (h₀ : Inv k₀) (hb : Best k₀) (h : Reach kernelCall Prompt k₀ k) :
    Inv k ∧ Best k := by
  refine reach_invariant (P := fun k => Inv k ∧ Best k) ⟨h₀,hb⟩ ?_ h
  intro c k k' hi hc hk
  exact ⟨(call_effect hi.1 hc.1 hk).2,call_best hi.1 hi.2 hc.1 hc.2 hk⟩

theorem best_of_listed (h : Core k)
    (hl : ∀ r ∈ k.firstThread, k.state r = .running → k.prio (current k) ≤ k.prio r) : Best k :=
  fun r hr => hl r ((h.shape.first_live r).mpr (running_live hr)) hr

theorem init_best : Best kThreadInit := best_of_listed init_inv.toCore (by decide)

def isPrompt (c : Call) (k : Kernel) : Bool :=
  admits c k && decide (k.state k.self = .running) &&
    match c with
    | .setPrio _ _ => false
    | _ => true

theorem isPrompt_prompt (c : Call) (k : Kernel) (h : isPrompt c k = true) : Prompt c k := by
  simp only [isPrompt, Bool.and_eq_true, decide_eq_true_eq] at h
  refine ⟨admitted_sound (admits_admitted c k h.1.1),fun r _ hm => hm.1 h.1.2,?_⟩
  rintro t prio rfl
  exact absurd h.2 (by simp)

/-- In every run in which no call misses a ready thread and no change of a
priority is overlooked, the executing thread is always the best. -/
theorem thread_context_preemptive {k : Kernel} (h : Reach kernelCall Prompt kThreadInit k)
    (hx : k.inExcpt = false) : Executing k := by
  obtain ⟨hi,hb⟩ := reach_best init_inv init_best h
  exact (executing_iff hi.scheduled (hi.scheduled.thread hx)).mpr hb

theorem thread_context_preemptive_resume : ∃ k,
    Reach kernelCall Prompt kThreadInit k ∧ k.self = 2 ∧ Executing k := by
  have hrun : (runChecked kernelCall isPrompt [.prepare 2 10, .resume 2] kThreadInit).any
      (fun k => decide (k.self = 2 ∧ k.inExcpt = false)) = true := by decide +kernel
  obtain ⟨k,hr,hself,hx⟩ := run_reaches isPrompt_prompt hrun
  exact ⟨k,hr,hself,thread_context_preemptive hr hx⟩

/-- The main thread holds a mutex for thread 2, which is better than the ready
thread 3. -/
def contendedRun : List Call :=
  [.mutexLock 5, .prepare 2 10, .resume 2, .mutexLock 5, .prepare 3 20, .resume 3]

/-- After the waiter was made worse the main thread runs on, and so it does
after a signal, although thread 3 is better. -/
theorem thread_context_not_preemptive : ∃ k k',
    Reach kernelCall Admitted kThreadInit k ∧ k.inExcpt = false ∧
      kernelCall (.condVarSignal 9) k = some k' ∧ k'.inExcpt = false ∧ k'.self = mainThread ∧
      k'.state 3 = .running ∧ k'.prio 3 < k'.prio k'.self := by
  have hrun : (runChecked kernelCall admits (contendedRun ++ [.setPrio 2 100]) kThreadInit).any
      (fun k => decide (k.inExcpt = false ∧ ∃ k' ∈ kernelCall (.condVarSignal 9) k,
        k'.inExcpt = false ∧ k'.self = mainThread ∧ k'.state 3 = .running ∧
          k'.prio 3 < k'.prio k'.self)) = true := by decide +kernel
  obtain ⟨k,hreach,hx,k',hk',hp⟩ := run_reaches admits_admitted hrun
  exact ⟨k,k',hreach,hx,hk',hp⟩

/-! `KThreadSetPrio` by a thread. -/

theorem refresh_state (t : Tid) (k : Kernel) (hq : k.waitQueue t = none) :
    (refresh t k).state = k.state := by
  unfold refresh
  split
  · rfl
  · rw [rekey, hq]
    rfl

theorem setPrio_finished (prio : ℕ) (h : Inv k) (hx : k.inExcpt = false)
    (ht : k.state t = .finished) : ∃ k', kThreadSetPrio t prio k = some k' ∧ k'.self = k.self ∧
      k'.state = k.state ∧ ∀ u, u ≠ t → k'.prio u = k.prio u := by
  have hq : k.waitQueue t = none := dead_waitQueue h.shape (by simp [Live, ht])
  have hself : t ≠ k.self := by
    rintro rfl
    have := (h.caller_running hx).1
    simp [ht] at this
  have hst := refresh_state t (withBase t prio k) hq
  have hctx := refresh_ctx t (withBase t prio k)
  refine ⟨refresh t (withBase t prio k),?_,hctx.self,hst,?_⟩
  · unfold kThreadSetPrio
    dsimp only
    rw [show kThreadUpdateDynamicPrio t { k with
      baseprio := update k.baseprio t (prio &&& minPrio) } = _ from
        update_unqueued t (withBase t prio k) hq, map_some]
    rw [if_neg (by rw [hctx.self]; exact hself),
      if_neg (by rw [hst]; simp [withBase, ht])]
    rfl
  · intro u hu
    rw [refresh_prio, update_of_ne hu]
    rfl

theorem finished_not_upset {p : ℕ} (h : Shape k) (ht : k.state t = .finished) : ¬Upset t p k := by
  rintro ⟨e,hte,he,-⟩
  have hend : waitsOn k t = none := by
    rw [waitsOn, dead_waitQueue h (by simp [Live, ht])]
    rfl
  obtain rfl := leads_end hend hte
  simp [ht] at he

theorem finished_setPrio_executing (prio : ℕ) (h : Inv k) (hx : k.inExcpt = false)
    (hb : Executing k) (ht : k.state t = .finished) :
    ∃ k', kThreadSetPrio t prio k = some k' ∧ Executing k' := by
  obtain ⟨k',hk',hself,hst,hsame⟩ := setPrio_finished prio h hx ht
  have hne : ∀ u, k.state u = .running → u ≠ t := by
    rintro u hu rfl
    simp [ht] at hu
  refine ⟨k',hk',by rw [hself, hst]; exact hb.1,?_⟩
  intro u hu
  rw [hst] at hu
  rw [hself, hsame _ (hne _ hb.1), hsame u (hne u hu)]
  exact hb.2 u hu

theorem overlooked_in_thread {p : ℕ} (h : Shape k) (hn : k.nextCtx = none) (ho : Overlooked t p k) :
    t ≠ k.self ∧ k.state t ≠ .running ∧ Upset t p k := by
  obtain ⟨hup,hcs,hres⟩ := ho
  have hcur := current_self hn
  have hts : t ≠ k.self := fun hts => hcs ⟨hts,by rw [hcur]; exact hts⟩
  refine ⟨hts,?_,hup⟩
  intro htr
  have hlt := upset_running h hup htr (by rwa [hcur])
  rw [hcur] at hlt
  exact hres ⟨htr,hts,by rwa [hcur],hlt⟩

/-- A thread that changes the priority of `t` is still the best afterwards,
unless `t` is neither the thread itself nor ready, and the change goes through
the owners `t` waits for to a running thread. -/
theorem setPrio_preempts_iff {k : Kernel} {t : Tid} (prio : ℕ)
    (h : Reach kernelCall Sound kThreadInit k) (hx : k.inExcpt = false) (hb : Executing k)
    (ht : Target t k) : ∃ k', kThreadSetPrio t prio k = some k' ∧
      (Executing k' ↔ ¬(t ≠ k.self ∧ k.state t ≠ .running ∧ Upset t (prio &&& minPrio) k)) := by
  have hi := reach_inv h
  have hn := (hi.caller_running hx).2
  have hbest := (executing_iff hi.scheduled hn).mp hb
  by_cases hfin : k.state t = .finished
  · obtain ⟨k',hk',hb'⟩ := finished_setPrio_executing prio hi hx hb hfin
    exact ⟨k',hk',iff_of_true hb' (fun hup => finished_not_upset hi.shape hfin hup.2.2)⟩
  · have hkeep : k.state t = .finished → prio &&& minPrio = k.prio t := fun hf => absurd hf hfin
    obtain ⟨k₁,hset,hc₁,-,he⟩ := setPrio_spec hi ht hkeep
    have hi' : Inv (kThreadReschedule (setPrioNext t (k.prio k.self) k₁) k₁) := by
      obtain ⟨-,k₂,hk₂,-,-,hi₂⟩ := setPrio_returns hi ht hkeep
      rwa [mem_unique he hk₂]
    have hx' : (kThreadReschedule (setPrioNext t (k.prio k.self) k₁) k₁).inExcpt = false := by
      rw [reschedule_inExcpt]
      exact hset.ctx.inExcpt.trans hx
    refine ⟨_,he,?_⟩
    rw [executing_iff hi'.scheduled (hi'.scheduled.thread hx')]
    constructor
    · rintro hb' ⟨hts,htr,hup⟩
      have hnone : setPrioNext t (k.prio k.self) k₁ = none := by
        rw [setPrioNext, if_neg (by rw [show k₁.self = k.self from hset.ctx.self]; exact hts),
          if_neg (by rw [settled_state hset]; exact htr)]
      rw [hnone] at hb'
      exact (settled_best_iff hset hc₁ hi.toCore hbest hi.scheduled.runs).mp hb' hup
    · intro hno
      exact setPrio_best hi hbest ht hkeep (fun ho => hno (overlooked_in_thread hi.shape hn ho)) he

theorem setPrio_preempts_iff_main : ∃ k', kThreadSetPrio mainThread 0x50 kThreadInit = some k' ∧
    Executing k' := by
  have hb := (executing_iff init_inv.scheduled rfl).mpr init_best
  obtain ⟨k',hk',hiff⟩ := setPrio_preempts_iff (t := mainThread) 0x50
    (.start : Reach kernelCall Sound kThreadInit kThreadInit) rfl hb ⟨by decide,by decide⟩
  exact ⟨k',hk',hiff.mpr (fun hn => hn.1 rfl)⟩

/-- The main thread has inherited the priority of thread 2. It loses it by the
call and runs on, although thread 3 is now better. -/
theorem setPrio_not_preemptive : ∃ k k',
    Reach kernelCall Admitted kThreadInit k ∧ k.inExcpt = false ∧ Executing k ∧
      Target 2 k ∧ kThreadSetPrio 2 100 k = some k' ∧ k'.inExcpt = false ∧ ¬Executing k' := by
  have hrun : (runChecked kernelCall admits contendedRun kThreadInit).any (fun k =>
      decide (k.inExcpt = false ∧ k.nextCtx = none ∧ k.state 2 ≠ .uninit ∧
        (∀ r ∈ k.firstThread, k.state r = .running → k.prio (current k) ≤ k.prio r) ∧
        ∃ k' ∈ kThreadSetPrio 2 100 k, k'.inExcpt = false ∧ k'.state 3 = .running ∧
          k'.prio 3 < k'.prio k'.self)) = true := by decide +kernel
  obtain ⟨k,hreach,hx,hn,h2,hl,k',hk',hx',hr,hlt⟩ := run_reaches admits_admitted hrun
  have hi := reach_inv (reach_mono (fun _ _ => admitted_sound) hreach)
  refine ⟨k,k',hreach,hx,(executing_iff hi.scheduled hn).mpr (best_of_listed hi.toCore hl),
    ⟨by decide,h2⟩,hk',hx',?_⟩
  intro hb
  have := hb.2 3 hr
  omega

/-! Interrupt handlers. -/

def HandlerCall : Call → Prop
  | .resume _ => True
  | .suspend _ => True
  | .setPrio _ _ => True
  | .unblock _ _ _ _ => True
  | .cancel _ _ => True
  | .condVarSignal _ => True
  | .condVarBroadcast _ => True
  | _ => False

/-- The context resumed at the end of an interrupt is the best, whatever its
handlers did, when no call missed a ready thread or overlooked a change. -/
theorem interrupt_resumes_best {k₀ k : Kernel} (h₀ : Reach kernelCall Sound kThreadInit k₀)
    (hn : k₀.nextCtx = none) (hb : Executing k₀)
    (h : Reach kernelCall (fun c k => HandlerCall c ∧ Prompt c k) k₀ k) :
    Executing (irqReturn k) := by
  have hi₀ := reach_inv h₀
  have hbest := (executing_iff hi₀.scheduled hn).mp hb
  obtain ⟨hi,hbk⟩ := reach_best hi₀ hbest (reach_mono (fun _ _ hc => hc.2) h)
  rw [irqReturn_eq]
  exact ⟨hi.scheduled.runs,hbk⟩

def interruptedRun : List Call := [.prepare 2 70, .resume 2, .prepare 3 66, .irqEnter]

def handles : Call → Bool
  | .resume _ => true
  | .suspend _ => true
  | _ => false

theorem handles_handlerCall {c : Call} (h : handles c = true) : HandlerCall c := by
  cases c <;> simp_all [handles, HandlerCall]

theorem interrupt_resumes_best_suspended : ∃ k₀ k, Reach kernelCall Sound kThreadInit k₀ ∧
    Reach kernelCall (fun c k => HandlerCall c ∧ Prompt c k) k₀ k ∧
      (irqReturn k).self = 3 ∧ Executing (irqReturn k) := by
  have hrun : (runChecked kernelCall admits interruptedRun kThreadInit).any (fun k₀ =>
      decide (k₀.nextCtx = none ∧
        (∀ r ∈ k₀.firstThread, k₀.state r = .running → k₀.prio (current k₀) ≤ k₀.prio r) ∧
        (runChecked kernelCall (fun c k => handles c && isPrompt c k)
          [.resume 3, .suspend mainThread] k₀).any
            (fun k => decide ((irqReturn k).self = 3)) = true)) = true := by decide +kernel
  obtain ⟨k₀,hr,hn,hl,hrun⟩ := run_reaches admits_admitted hrun
  obtain ⟨k,hreach,hself⟩ :=
    run_reaches (check_and (fun _ _ => handles_handlerCall) isPrompt_prompt) hrun
  have hreach₀ := reach_mono (fun _ _ => admitted_sound) hr
  have hi := reach_inv hreach₀
  have hb := (executing_iff hi.scheduled hn).mpr (best_of_listed hi.toCore hl)
  exact ⟨k₀,k,hreach₀,hreach,hself,interrupt_resumes_best hreach₀ hn hb hreach⟩

/-- The handler suspends the main thread, so thread 2 is remembered, and then
resumes thread 3, which is compared with the main thread only. -/
theorem interrupt_resumes_worse : ∃ k₀ k, Reach kernelCall Admitted kThreadInit k₀ ∧
    k₀.inExcpt = true ∧ k₀.nextCtx = none ∧ Executing k₀ ∧
      Reach kernelCall (fun c k => HandlerCall c ∧ Admitted c k) k₀ k ∧
      (irqReturn k).self = 2 ∧ (irqReturn k).state 3 = .running ∧
      (irqReturn k).prio 3 < (irqReturn k).prio 2 := by
  have hrun : (runChecked kernelCall admits interruptedRun kThreadInit).any (fun k₀ =>
      decide (k₀.inExcpt = true ∧ k₀.nextCtx = none ∧
        (∀ r ∈ k₀.firstThread, k₀.state r = .running → k₀.prio (current k₀) ≤ k₀.prio r) ∧
        (runChecked kernelCall (fun c k => handles c && admits c k)
          [.suspend mainThread, .resume 3] k₀).any
            (fun k => decide ((irqReturn k).self = 2 ∧ (irqReturn k).state 3 = .running ∧
              (irqReturn k).prio 3 < (irqReturn k).prio 2)) = true)) = true := by decide +kernel
  obtain ⟨k₀,hreach₀,hx,hn,hl,hrun⟩ := run_reaches admits_admitted hrun
  obtain ⟨k,hreach,hres⟩ :=
    run_reaches (check_and (fun _ _ => handles_handlerCall) admits_admitted) hrun
  have hi := reach_inv (reach_mono (fun _ _ => admitted_sound) hreach₀)
  exact ⟨k₀,k,hreach₀,hx,hn,(executing_iff hi.scheduled hn).mpr (best_of_listed hi.toCore hl),
    hreach,hres⟩

end Libogc.PreemptiveRun
