import Libogc.Tuxedo.KernelCall

/-!
# The effect of a call

`Effect` says what a call does to the threads, the queues and the mutexes, and
`Switched` that the choice of the next context touches nothing else. Every
sound call from a state that satisfies the invariant returns, has one of these
effects and leads to a state that satisfies the invariant.
-/

set_option autoImplicit false

namespace Libogc.CallEffect
open Option Function PrefixInsert GuardedReach ThreadKernel ThreadInvariant List
open PrioUpdate QueueStep QueueLoop MutexStep KernelCall

def afterExit (rc : ℤ) (k : Kernel) : Kernel :=
  wake .joinQueue .byValue k.self
    (unblocked .joinQueue (-1) .byValue k.self (finish k.self rc k)) (finish k.self rc k)

inductive Effect (k : Kernel) : Call → Kernel → Prop
  | prepare (t : Tid) (prio : ℕ) : Effect k (.prepare t prio) (kThreadPrepare t prio k)
  | resumeNone {t : Tid} (h : k.suspend t = 0) : Effect k (.resume t) k
  | resumeLess {t : Tid} (h0 : k.suspend t ≠ 0)
      (h : k.suspend t-1 ≠ 0 ∨ (k.waitQueue t).isSome) :
      Effect k (.resume t) { k with suspend := update k.suspend t (k.suspend t-1) }
  | resumeRun {t : Tid} (hs : k.suspend t = 1) (hst : k.state t = .waiting)
      (hq : k.waitQueue t = none) : Effect k (.resume t) (setRun t .running 0 k)
  | suspendMore {t : Tid} (h : k.state t ≠ .running) : Effect k (.suspend t)
      { k with suspend := update k.suspend t (u16 (k.suspend t+1)) }
  | suspendStop {t : Tid} (h : k.state t = .running) :
      Effect k (.suspend t) (setRun t .waiting 1 k)
  | setPrio {t : Tid} {prio : ℕ} {k' : Kernel} (h : Settled (withBase t prio k) k') :
      Effect k (.setPrio t prio) k'
  | yield : Effect k .yield k
  | block (q : KThrQueue) (token : ℕ) :
      Effect k (.block q token) (enterQueue q .waiting token k.self k)
  | unblock (q : KThrQueue) (max : ℤ) (mode : KThrUnblockMode) (ref : ℕ) :
      Effect k (.unblock q max mode ref) (wake q mode ref (unblocked q max mode ref k) k)
  | cancelNone {q : KThrQueue} {t : Tid}
      (h : ¬(k.state t = .waiting ∧ k.waitQueue t = some q)) : Effect k (.cancel q t) k
  | cancel {q : KThrQueue} {t : Tid} (hst : k.state t = .waiting) (hq : k.waitQueue t = some q) :
      Effect k (.cancel q t) (leave q t 0 (awake k t) k)
  | lockFree {m : ℕ} (h : k.owner m = none) :
      Effect k (.mutexLock m) (setOwner m (some k.self) k)
  | lockBlocked {m : ℕ} {o : Tid} {k' : Kernel} (ho : k.owner m = some o)
      (h : Settled (blockOn o m k) k') : Effect k (.mutexLock m) k'
  | tryLockFree {m : ℕ} (h : k.owner m = none) :
      Effect k (.mutexTryLock m) (setOwner m (some k.self) k)
  | tryLockHeld {m : ℕ} {o : Tid} (h : k.owner m = some o) : Effect k (.mutexTryLock m) k
  | unlock {m : ℕ} {k' : Kernel} (ho : k.owner m = some k.self) (h : Released m k k') :
      Effect k (.mutexUnlock m) k'
  | condVarWait {cv m : ℕ} {k' : Kernel} (ho : k.owner m = some k.self) (h : Released m k k') :
      Effect k (.condVarWait cv m) (enterQueue .cvWaitQueue .waiting cv k.self k')
  | signal (cv : ℕ) : Effect k (.condVarSignal cv)
      (wake .cvWaitQueue .byValue cv (unblocked .cvWaitQueue 1 .byValue cv k) k)
  | broadcast (cv : ℕ) : Effect k (.condVarBroadcast cv)
      (wake .cvWaitQueue .byValue cv (unblocked .cvWaitQueue (-1) .byValue cv k) k)
  | joinNone {t : Tid} (h : ¬Live k t) : Effect k (.join t) k
  | join {t : Tid} (h : Live k t) :
      Effect k (.join t) (enterQueue .joinQueue .waiting t k.self k)
  | exit (rc : ℤ) : Effect k (.exit rc) (afterExit rc k)
  | irqEnter : Effect k .irqEnter k
  | irqReturn : Effect k .irqReturn k

def Switched (k k' : Kernel) : Prop :=
  ∃ s n e, k' = { k with self := s, nextCtx := n, inExcpt := e }

theorem switchTo_switched (r : Tid) (k : Kernel) : Switched k (kThreadSwitchTo r k) := by
  unfold kThreadSwitchTo
  split
  · split
    · exact ⟨k.self,some r,k.inExcpt,rfl⟩
    · split
      · exact ⟨k.self,some r,k.inExcpt,rfl⟩
      · exact ⟨k.self,k.nextCtx,k.inExcpt,rfl⟩
  · exact ⟨r,none,k.inExcpt,rfl⟩

theorem Switched.refl (k : Kernel) : Switched k k := ⟨k.self,k.nextCtx,k.inExcpt,rfl⟩

variable {c : Call} {q : KThrQueue} {mode : KThrUnblockMode} {k k' k₁ : Kernel} {t u : Tid}
  {m ref : ℕ} {max : ℤ} (r : Option Tid) (rc : ℤ)

theorem reschedule_switched (k : Kernel) : Switched k (kThreadReschedule r k) := by
  unfold kThreadReschedule
  split
  · exact .refl k
  · split
    · exact switchTo_switched _ _
    · exact .refl k

theorem reschedule_inExcpt (k : Kernel) : (kThreadReschedule r k).inExcpt = k.inExcpt := by
  unfold kThreadReschedule kThreadSwitchTo
  repeat' split
  all_goals rfl

def Returns (c : Call) (k : Kernel) : Prop :=
  ∃ k₁ k', kernelCall c k = some k' ∧ Effect k c k₁ ∧ Switched k₁ k' ∧ Inv k'

theorem scheduled_of (h : Scheduled k) (hx : SameCtx k k') (hr : k'.state (current k) = .running) :
    Scheduled k' where
  runs := by rwa [hx.current_eq]
  thread hi := by
    rw [hx.nextCtx]
    exact h.thread (by rwa [hx.inExcpt] at hi)
  other := by
    rw [hx.nextCtx, hx.self]
    exact h.other

theorem remembered_of (h : Remembered k) (hx : SameCtx k k')
    (hr : ∀ c, k.nextCtx = some c → k.state c = .running → k'.state c = .running) :
    Remembered k' := by
  refine ⟨?_,by rw [hx.nextCtx, hx.self]; exact h.other⟩
  intro c hc
  rw [hx.nextCtx] at hc
  exact hr c hc (h.running c hc)

theorem returns_stay (hk : kernelCall c k = some k') (he : Effect k c k') (hi : Inv k') :
    Returns c k :=
  ⟨k',k',hk,he,.refl k',hi⟩

theorem returns_runnable (hk : kernelCall c k = switchToRunnable k₁) (he : Effect k c k₁)
    (hc : Core k₁) (hm : Remembered k₁) (hs : k₁.inExcpt = true → k₁.state k₁.self ≠ .running) :
    Returns c k := by
  obtain ⟨r,hf,hr,-⟩ := findRunnable_spec hc
  refine ⟨k₁,kThreadSwitchTo r k₁,?_,he,switchTo_switched r k₁,switchTo_inv hc hr hm ?_⟩
  · rw [hk, switchToRunnable, hf]
    rfl
  · rintro hx rfl
    exact hs hx hr

theorem returns_offer (hk : kernelCall c k = some (kThreadReschedule r k₁)) (he : Effect k c k₁)
    (hi : Inv k₁) (hr : ∀ t, r = some t → k₁.state t = .running) : Returns c k :=
  ⟨k₁,_,hk,he,reschedule_switched r k₁,reschedule_inv hi hr⟩

theorem prepare_returns (prio : ℕ) (h : Inv k) (hi : t ≠ idleThread) (hl : ¬Live k t) :
    Returns (.prepare t prio) k := by
  refine returns_stay rfl (.prepare t prio) ⟨prepare_core prio h.toCore hl hi,?_⟩
  refine scheduled_of h.scheduled ⟨rfl,rfl,rfl⟩ ?_
  have hne : current k ≠ t := by
    intro he
    exact hl (he ▸ running_live h.scheduled.runs)
  change update k.state t _ (current k) = _
  rw [update_of_ne hne]
  exact h.scheduled.runs

theorem resumed_scheduled (t : Tid) (h : Scheduled k) : Scheduled (setRun t .running 0 k) := by
  refine scheduled_of h ⟨rfl,rfl,rfl⟩ ?_
  change update k.state t .running (current k) = _
  by_cases hct : current k = t
  · rw [hct, update_self]
  · rw [update_of_ne hct]
    exact h.runs

theorem resume_returns (h : Inv k) (ht : Target t k)
    (hf : ¬(k.state t = .finished ∧ k.suspend t = 1)) : Returns (.resume t) k := by
  rcases resume_cases h ht hf with ⟨h0,he⟩ | ⟨h0,hc,he⟩ | ⟨h1,hst,hq,hcase⟩
  · exact returns_stay he (.resumeNone h0) h
  · have hr : k.state t ≠ .running := fun hr => h0 (h.shape.running t hr)
    refine returns_stay he (.resumeLess h0 hc) ⟨setSuspend_core _ h.toCore hr,?_⟩
    exact scheduled_of h.scheduled ⟨rfl,rfl,rfl⟩ h.scheduled.runs
  · have hcore : Core (setRun t .running 0 k) :=
      setRun_core h.toCore (by simp [Live, hst]) ht.1 hq (Or.inl ⟨rfl,rfl⟩)
    have hrun : (setRun t .running 0 k).state t = .running := update_self _ _ _
    have hs : Scheduled (setRun t .running 0 k) := resumed_scheduled t h.scheduled
    have heff : Effect k (.resume t) (setRun t .running 0 k) := .resumeRun h1 hst hq
    rcases hcase with ⟨-,he⟩ | ⟨hself,c,hn,he⟩
    · apply returns_offer (c := .resume t) (some t) he heff ⟨hcore,hs⟩
      intro u hu
      rwa [← some.inj hu]
    · refine ⟨setRun t .running 0 k,_,he,heff,?_,?_⟩
      · split
        · exact ⟨k.self,none,k.inExcpt,rfl⟩
        · exact .refl _
      · split
        · refine ⟨hcore.withCtx k.self none k.inExcpt,⟨?_,fun _ => rfl,by simp⟩⟩
          change (setRun t .running 0 k).state k.self = _
          rwa [← hself]
        · exact ⟨hcore,hs⟩

theorem suspend_returns (h : Inv k) (ht : Target t k) : Returns (.suspend t) k := by
  rcases suspend_cases (t := t) h with ⟨hr,he⟩ | ⟨hr,-,hcase⟩
  · refine returns_stay he (.suspendMore hr) ⟨setSuspend_core _ h.toCore hr,?_⟩
    exact scheduled_of h.scheduled ⟨rfl,rfl,rfl⟩ h.scheduled.runs
  · have hcore : Core (setRun t .waiting 1 k) :=
      setRun_core h.toCore (running_live hr) ht.1 (h.shape.not_queued hr) (Or.inr rfl)
    have hstop : (setRun t .waiting 1 k).state t ≠ .running := by simp [setRun]
    have hother : ∀ u, u ≠ t → (setRun t .waiting 1 k).state u = k.state u :=
      fun u hu => update_of_ne hu _ _
    have heff : Effect k (.suspend t) (setRun t .waiting 1 k) := .suspendStop hr
    rcases hcase with ⟨hself,he⟩ | ⟨hself,hn,he⟩ | ⟨hself,hn,he⟩
    · apply returns_runnable (c := .suspend t) he heff hcore
      · refine remembered_of h.scheduled.remembered ⟨rfl,rfl,rfl⟩ ?_
        rintro c hc hcr
        rwa [hother c]
        rintro rfl
        exact h.scheduled.other (hself ▸ hc)
      · intro _
        change (setRun t .waiting 1 k).state k.self ≠ _
        rwa [← hself]
    · obtain ⟨r,hf,hrr,-⟩ := findRunnable_spec hcore
      refine ⟨_,_,he,heff,⟨k.self,_,k.inExcpt,rfl⟩,hcore.withCtx k.self _ k.inExcpt,?_⟩
      change kThreadFindRunnable k.firstThread (setRun t .waiting 1 k) = some r at hf
      rw [hf]
      by_cases hrs : r = k.self
      · rw [if_pos (by rw [hrs])]
        refine ⟨?_,fun _ => rfl,by simp⟩
        change (setRun t .waiting 1 k).state k.self = _
        rwa [← hrs]
      · rw [if_neg (fun hn => hrs (some.inj hn))]
        refine ⟨hrr,?_,fun hn => hrs (some.inj hn)⟩
        intro hx
        have := h.scheduled.thread hx
        simp [hn] at this
    · refine returns_stay he heff ⟨hcore,scheduled_of h.scheduled ⟨rfl,rfl,rfl⟩ ?_⟩
      rw [hother _ ?_]
      · exact h.scheduled.runs
      · intro hct
        unfold current at hct
        cases hnc : k.nextCtx with
        | none =>
          rw [hnc] at hct
          exact hself hct.symm
        | some c =>
          rw [hnc] at hct
          exact hn (by rw [hnc, ← hct]; rfl)

theorem setPrioNext_running {curprio : ℕ} (hu : setPrioNext t curprio k = some u) :
    k.state u = .running := by
  unfold setPrioNext at hu
  split at hu
  · split at hu
    · simpa using find?_some hu
    · simp at hu
  · split at hu
    · rename_i hr
      rwa [← some.inj hu]
    · simp at hu

theorem setPrio_returns {prio : ℕ} (h : Inv k) (ht : Target t k)
    (hf : k.state t = .finished → prio &&& minPrio = k.prio t) : Returns (.setPrio t prio) k := by
  obtain ⟨k₁,hset,hcore,-,he⟩ := setPrio_spec h ht hf
  have hs : Scheduled (withBase t prio k) := scheduled_of h.scheduled ⟨rfl,rfl,rfl⟩ h.scheduled.runs
  exact returns_offer _ he (.setPrio hset)
    ⟨hcore,hset.reorder.scheduled hset.ctx hs⟩ (fun _ => setPrioNext_running)

theorem yield_returns (h : Inv k) : Returns .yield k := by
  obtain ⟨r,hy,hr,-⟩ := yieldNext_spec h.toCore
  have he : kernelCall .yield k = some (if r = k.self then k else kThreadSwitchTo r k) := by
    change (yieldNext k).map _ = _
    rw [hy]
    rfl
  refine ⟨k,_,he,.yield,?_,?_⟩
  · split
    · exact .refl k
    · exact switchTo_switched r k
  · split
    · exact h
    · rename_i hne
      exact switchTo_inv h.toCore hr h.scheduled.remembered (fun _ => hne)

/-! Blocking and waking. -/

theorem enterQueue_core (token : ℕ) (h : Core k) (hr : k.state t = .running) (hi : t ≠ idleThread)
    (hq : Free q) : Core (enterQueue q .waiting token t k) := by
  refine ⟨enterQueue_shape h.shape hr hi (Or.inl rfl) ?_,
    enterQueue_owned h.owned hr (Or.inl rfl) ?_,enterQueue_sorted h.sorted,?_⟩
  · simpa [Free] using hq
  · intro o ho
    exact absurd ho (hq o)
  · intro u hu
    exact enterQueue_prio hr (Or.inl rfl) h.prio u hu (hq u)

theorem block_returns {token : ℕ} (h : Core k₁) (hr : k₁.state k₁.self = .running)
    (hi : k₁.self ≠ idleThread) (hq : Free q) (hx : k₁.inExcpt = false) (hn : k₁.nextCtx = none)
    (hk : kernelCall c k = kThrQueueBlock q token k₁)
    (he : Effect k c (enterQueue q .waiting token k₁.self k₁)) : Returns c k := by
  refine returns_runnable hk he (enterQueue_core token h hr hi hq) ⟨?_,?_⟩ ?_
  · intro c hc
    exact absurd (hn.symm.trans hc) (by simp)
  · intro hc
    exact absurd (hn.symm.trans hc) (by simp)
  · intro hc
    exact absurd (hx.symm.trans hc) (by simp)

theorem unblocked_waiting (h : Core k) (hq : Free q) (hu : u ∈ unblocked q max mode ref k) :
    k.waitQueue u = some q ∧ k.state u = .waiting := by
  have hw := (h.shape.queue_mem q u).mp ((unblocked_sublist q max mode ref k).subset hu)
  refine ⟨hw,?_⟩
  rcases h.shape.queued u q hw with hs | hs
  · exact hs
  · obtain ⟨o,ho⟩ := (h.shape.mutex u).mp hs
    exact absurd (mem_unique hw ho) (hq o)

theorem wake_other (h : Core k) (hq : Free q) (hu : k.state u ≠ .waiting) :
    (wake q mode ref (unblocked q max mode ref k) k).state u = k.state u :=
  if_neg (fun hm => hu (unblocked_waiting h hq hm).2)

theorem wake_scheduled (h : Inv k) (hq : Free q) :
    Scheduled (wake q mode ref (unblocked q max mode ref k) k) := by
  refine scheduled_of h.scheduled ⟨rfl,rfl,rfl⟩ ?_
  rw [wake_other h.toCore hq (by simp [h.scheduled.runs])]
  exact h.scheduled.runs

theorem unblock_returns (h : Inv k) (hq : Free q)
    (hk : kernelCall c k = some (kThrQueueUnblockCommon q max mode ref k))
    (he : Effect k c (wake q mode ref (unblocked q max mode ref k) k)) : Returns c k := by
  obtain ⟨heq,hcore⟩ := unblockCommon_eq max mode ref h.toCore hq
  rw [heq] at hk
  exact returns_offer _ hk he ⟨hcore,wake_scheduled h hq⟩ (fun t ht => wake_running ht)

theorem leave_scheduled (q : KThrQueue) (token : ℕ) (st : KThrState) (h : Scheduled k)
    (hst : k.state t = .waiting) : Scheduled (leave q t token st k) := by
  have hne : current k ≠ t := by
    rintro rfl
    have := h.runs
    simp [hst] at this
  exact scheduled_of h ⟨rfl,rfl,rfl⟩ ((update_of_ne hne _ _).trans h.runs)

theorem cancelled_running (hu : (if k.suspend t = 0 then some t else none) = some u) :
    (leave q t 0 (awake k t) k).state u = .running := by
  split at hu
  · rename_i h0
    rw [← some.inj hu]
    exact (update_self _ _ _).trans (if_pos h0)
  · simp at hu

theorem cancel_returns (q : KThrQueue) (t : Tid) (h : Inv k) : Returns (.cancel q t) k := by
  rcases cancel_cases q t with ⟨hn,he⟩ | ⟨hst,hq,he⟩
  · exact returns_stay (congrArg some he) (.cancelNone hn) h
  · have hfree : Free q := by
      rintro o rfl
      have := (h.shape.mutex t).mpr ⟨o,hq⟩
      simp [hst] at this
    exact returns_offer _ (congrArg some he) (.cancel hst hq)
      ⟨leave_core h.toCore hq hfree (awake_cases k t),leave_scheduled q 0 _ h.scheduled hst⟩
      (fun _ => cancelled_running)

/-! Mutexes. -/

theorem lock_returns (m : ℕ) (h : Inv k) (hc : Caller k) : Returns (.mutexLock m) k := by
  obtain ⟨hr,hn⟩ := h.caller_running hc.1
  cases ho : k.owner m with
  | none =>
    have he : kernelCall (.mutexLock m) k = some (setOwner m (some k.self) k) := by
      change kMutexLock m k = _
      simp only [kMutexLock, ho]
    refine returns_stay he (.lockFree ho) ⟨lock_free h.toCore hr hc.2 ho,?_⟩
    exact scheduled_of h.scheduled ⟨rfl,rfl,rfl⟩ h.scheduled.runs
  | some o =>
    obtain ⟨k₁,hset,hcore,he⟩ := lock_blocked h.toCore hr hc.2 ho
    have heff : Effect k (.mutexLock m) k₁ := .lockBlocked ho hset
    have hx : k₁.inExcpt = false := hset.ctx.inExcpt.trans hc.1
    have hn₁ : k₁.nextCtx = none := hset.ctx.nextCtx.trans hn
    have hm : Remembered k₁ := ⟨by simp [hn₁],by simp [hn₁]⟩
    by_cases hcond : k.prio k.self < k.prio o ∧ k₁.state o = .running
    · rw [if_pos hcond] at he
      exact ⟨k₁,_,he,heff,switchTo_switched o k₁,switchTo_inv hcore hcond.2 hm (by simp [hx])⟩
    · rw [if_neg hcond] at he
      exact returns_runnable he heff hcore hm (by simp [hx])

theorem tryLock_returns (m : ℕ) (h : Inv k) (hc : Caller k) : Returns (.mutexTryLock m) k := by
  cases ho : k.owner m with
  | none =>
    have he : kernelCall (.mutexTryLock m) k = some (setOwner m (some k.self) k) := by
      change some (kMutexTryLock m k).2 = _
      simp only [kMutexTryLock, ho]
    refine returns_stay he (.tryLockFree ho)
      ⟨lock_free h.toCore (h.caller_running hc.1).1 hc.2 ho,?_⟩
    exact scheduled_of h.scheduled ⟨rfl,rfl,rfl⟩ h.scheduled.runs
  | some o =>
    have he : kernelCall (.mutexTryLock m) k = some k := by
      change some (kMutexTryLock m k).2 = _
      simp only [kMutexTryLock, ho]
    exact returns_stay he (.tryLockHeld ho) h

theorem released_self (h : Inv k) (hc : k.inExcpt = false) (hr : Released m k k') :
    k'.state k.self = .running := by
  have hs := (h.caller_running hc).1
  rw [hr.state]
  split
  · rename_i hh
    have hm : k.self ∈ contenders m k := mem_of_head? hh
    simp only [contenders, mem_filter, h.shape.queue_mem, h.shape.not_queued hs] at hm
    simp at hm
  · exact hs

section

variable (h : Inv k) (hc : Caller k) (ho : k.owner m = some k.self)
include h hc ho

theorem unlock_cases : ∃ k', Released m k k' ∧
      kMutexUnlock m k = some (kThreadReschedule
        (if k.prio k.self < k'.prio k.self then kThreadFindRunnable k'.firstThread k' else none)
        k') := by
  obtain ⟨k',hk',hrel⟩ := release_spec h.toCore (h.caller_running hc.1).1 ho
  refine ⟨k',hrel,?_⟩
  unfold kMutexUnlock
  rw [hk']
  simp only [map_some, hrel.ctx.self]
  split
  · split
    · rename_i hf
      rw [hf, kThreadReschedule, hrel.ctx.self, if_neg (lt_irrefl _)]
    · rfl
  · rfl

theorem unlock_returns : Returns (.mutexUnlock m) k := by
  obtain ⟨k',hrel,he⟩ := unlock_cases h hc ho
  have hself := released_self h hc.1 hrel
  have hs : Scheduled k' := by
    apply scheduled_of h.scheduled hrel.ctx
    rwa [current, (h.caller_running hc.1).2]
  apply returns_offer (c := .mutexUnlock m) _ he (.unlock ho hrel) ⟨hrel.core,hs⟩
  intro t ht
  split at ht
  · simpa using find?_some ht
  · simp at ht

theorem condVarWait_returns {cv : ℕ} : Returns (.condVarWait cv m) k := by
  obtain ⟨hr,hn⟩ := h.caller_running hc.1
  obtain ⟨k',hk',hrel⟩ := release_spec h.toCore hr ho
  have hself := released_self h hc.1 hrel
  have he : kernelCall (.condVarWait cv m) k = kThrQueueBlock .cvWaitQueue cv k' := by
    change (releaseMutex m k).bind _ = _
    rw [hk']
    rfl
  have heff : Effect k (.condVarWait cv m) (enterQueue .cvWaitQueue .waiting cv k'.self k') := by
    rw [hrel.ctx.self]
    exact .condVarWait ho hrel
  apply block_returns hrel.core (by rwa [hrel.ctx.self]) (by rw [hrel.ctx.self]; exact hc.2)
    (by simp [Free]) (hrel.ctx.inExcpt.trans hc.1) (hrel.ctx.nextCtx.trans hn) he heff

end

/-! Joining, exiting and interrupts. -/

theorem join_returns (t : Tid) (h : Inv k) (hc : Caller k) : Returns (.join t) k := by
  obtain ⟨hr,hn⟩ := h.caller_running hc.1
  by_cases hl : Live k t
  · have he : kernelCall (.join t) k = kThrQueueBlock .joinQueue t k :=
      if_neg (by simpa [Live] using hl)
    exact block_returns h.toCore hr hc.2 (by simp [Free]) hc.1 hn he (.join hl)
  · have he : kernelCall (.join t) k = some k := by
      refine if_pos ?_
      by_contra hn
      exact hl (by simpa [Live] using hn)
    exact returns_stay he (.joinNone hl) h

theorem afterExit_core (h : Core k) (hr : k.state k.self = .running) (hi : k.self ≠ idleThread)
    (ho : ∀ m, k.owner m ≠ some k.self) : Core (afterExit rc k) :=
  (unblockCommon_eq _ _ _ (finish_core rc h hr hi ho) (by simp)).2

def joiner (rc : ℤ) (k : Kernel) : Option Tid :=
  (unblocked .joinQueue (-1) .byValue k.self (finish k.self rc k)).find?
    (fun t => decide (k.suspend t = 0))

theorem exit_eq (h : Core k) (hr : k.state k.self = .running) (hi : k.self ≠ idleThread)
    (ho : ∀ m, k.owner m ≠ some k.self) : kThreadExit rc k =
      jumpToNext (kThreadReschedule (joiner rc k) { afterExit rc k with inExcpt := true }) := by
  have hfin : Core (finish k.self rc { k with inExcpt := true }) :=
    (finish_core rc h hr hi ho).withCtx k.self k.nextCtx true
  exact congrArg jumpToNext
    (unblockCommon_eq (-1) .byValue k.self hfin (by simp)).1

theorem jump_runnable {b : Tid} (hn : k.nextCtx = none)
    (hb : kThreadFindRunnable k.firstThread k = some b) :
    jumpToNext k = some { k with self := b, nextCtx := none, inExcpt := false } := by
  rw [jumpToNext, if_pos hn, hb]
  rfl

theorem exit_cases (h : Inv k) (hc : Caller k) (ho : ∀ m, k.owner m ≠ some k.self) :
    ∃ r, (afterExit rc k).state r = .running ∧
      ((∀ u, (afterExit rc k).state u = .running → k.prio r ≤ k.prio u) ∨
        k.prio r < k.prio k.self ∧ joiner rc k = some r) ∧ kThreadExit rc k =
        some { afterExit rc k with self := r, nextCtx := none, inExcpt := false } := by
  obtain ⟨hr,hn⟩ := h.caller_running hc.1
  obtain ⟨b,hb,hbr,hbest⟩ := findRunnable_spec (afterExit_core rc h.toCore hr hc.2 ho)
  have hjump : jumpToNext { afterExit rc k with inExcpt := true } =
      some { afterExit rc k with self := b, nextCtx := none, inExcpt := false } :=
    jump_runnable hn hb
  rw [exit_eq rc h.toCore hr hc.2 ho]
  cases hf : joiner rc k with
  | none => exact ⟨b,hbr,Or.inl hbest,hjump⟩
  | some r =>
    by_cases hp : k.prio r < k.prio k.self
    · refine ⟨r,wake_running hf,Or.inr ⟨hp,rfl⟩,?_⟩
      have hs : kThreadReschedule (some r) { afterExit rc k with inExcpt := true } =
          { afterExit rc k with inExcpt := true, nextCtx := some r } := by
        refine (if_pos hp).trans ?_
        simp only [kThreadSwitchTo, if_true, show (afterExit rc k).nextCtx = none from hn]
      rw [hs]
      rfl
    · refine ⟨b,hbr,Or.inl hbest,?_⟩
      rw [show kThreadReschedule (some r) { afterExit rc k with inExcpt := true } =
        _ from if_neg hp]
      exact hjump

theorem exit_returns (h : Inv k) (hc : Caller k) (ho : ∀ m, k.owner m ≠ some k.self) :
    Returns (.exit rc) k := by
  obtain ⟨r,hr,-,he⟩ := exit_cases rc h hc ho
  have hcore := afterExit_core rc h.toCore (h.caller_running hc.1).1 hc.2 ho
  exact ⟨_,_,he,.exit rc,⟨r,none,false,rfl⟩,hcore.withCtx r none false,hr,fun _ => rfl,by simp⟩

theorem irqEnter_returns (h : Inv k) : Returns .irqEnter k :=
  ⟨k,_,rfl,.irqEnter,⟨k.self,k.nextCtx,true,rfl⟩,h.toCore.withCtx k.self k.nextCtx true,
    h.scheduled.runs,fun hx => absurd hx (by simp [irqEnter]),h.scheduled.other⟩

theorem irqReturn_eq (k : Kernel) :
    irqReturn k = { k with self := current k, nextCtx := none, inExcpt := false } := by
  obtain ⟨_,_,_,_,_,_,_,_,_,_,_,n,_⟩ := k
  cases n <;> rfl

theorem irqReturn_returns (h : Inv k) : Returns .irqReturn k := by
  refine ⟨k,_,rfl,.irqReturn,?_,?_⟩
  · rw [irqReturn_eq]
    exact ⟨current k,none,false,rfl⟩
  · rw [irqReturn_eq]
    exact ⟨h.toCore.withCtx _ none false,h.scheduled.runs,fun _ => rfl,by simp⟩

/-- A thread unlocks, or waits with, a mutex it owns. Otherwise the call stays
in its endless loop. -/
def Holds : Call → Kernel → Prop
  | .mutexUnlock m, k => k.owner m = some k.self
  | .condVarWait _ m, k => k.owner m = some k.self
  | _, _ => True

theorem call_returns (h : Inv k) (hs : Sound c k) (ho : Holds c k) : Returns c k := by
  obtain ⟨ha,hf⟩ := hs
  cases c with
  | prepare t prio => exact prepare_returns prio h ha.1 ha.2
  | resume t => exact resume_returns h ha hf
  | suspend t => exact suspend_returns h ha
  | setPrio t prio => exact setPrio_returns h ha hf
  | yield => exact yield_returns h
  | block q token =>
    obtain ⟨hr,hn⟩ := h.caller_running ha.1.1
    exact block_returns h.toCore hr ha.1.2 ha.2 ha.1.1 hn rfl (.block q token)
  | unblock q max mode ref => exact unblock_returns h ha rfl (.unblock q max mode ref)
  | cancel q t => exact cancel_returns q t h
  | mutexLock m => exact lock_returns m h ha
  | mutexTryLock m => exact tryLock_returns m h ha
  | mutexUnlock m => exact unlock_returns h ha ho
  | condVarWait cv m => exact condVarWait_returns h ha ho
  | condVarSignal cv => exact unblock_returns h (by simp [Free]) rfl (.signal cv)
  | condVarBroadcast cv => exact unblock_returns h (by simp [Free]) rfl (.broadcast cv)
  | join t => exact join_returns t h ha
  | exit rc => exact exit_returns rc h ha.1 ha.2
  | irqEnter => exact irqEnter_returns h
  | irqReturn => exact irqReturn_returns h

theorem call_holds (hk : kernelCall c k = some k') : Holds c k := by
  cases c with
  | mutexUnlock m =>
    by_contra hn
    have : kMutexUnlock m k = none := by
      simp only [kMutexUnlock, releaseMutex, if_neg (show ¬k.owner m = some k.self from hn)]
      rfl
    simp [kernelCall, this] at hk
  | condVarWait cv m =>
    by_contra hn
    have : condVarBlock cv m k = none := by
      simp only [condVarBlock, releaseMutex, if_neg (show ¬k.owner m = some k.self from hn)]
      rfl
    simp [kernelCall, this] at hk
  | _ => trivial

theorem call_effect (h : Inv k) (hs : Sound c k) (hk : kernelCall c k = some k') :
    (∃ k₁, Effect k c k₁ ∧ Switched k₁ k') ∧ Inv k' := by
  obtain ⟨k₁,k₂,hk₂,he,hw,hi⟩ := call_returns h hs (call_holds hk)
  obtain rfl : k₂ = k' := mem_unique hk₂ hk
  exact ⟨⟨k₁,he,hw⟩,hi⟩

theorem reach_inv (h : Reach kernelCall Sound kThreadInit k) : Inv k :=
  reach_invariant init_inv (fun _ _ _ hi hs hk => (call_effect hi hs hk).2) h

end Libogc.CallEffect
