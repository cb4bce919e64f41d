import Libogc.Tuxedo.CallEffect

/-!
# What a call does to one thread

The effects of all calls, seen from one thread: its state, its suspend count,
its queue and its token change together in one of a few ways. A law about
single threads is checked against these ways and not against every call.
-/

set_option autoImplicit false

namespace Libogc.ThreadChange
open Function ThreadKernel ThreadInvariant PrioUpdate QueueStep Option
open QueueLoop MutexStep KernelCall CallEffect

structure Same (k k' : Kernel) (u : Tid) : Prop where
  state : k'.state u = k.state u
  suspend : k'.suspend u = k.suspend u
  waitQueue : k'.waitQueue u = k.waitQueue u
  token : k'.token u = k.token u

inductive Wakes (k : Kernel) (u : Tid) : Call → KThrQueue → ℕ → Prop
  | unblock {q : KThrQueue} {max : ℤ} {mode : KThrUnblockMode} {ref : ℕ}
      (h : u ∈ unblocked q max mode ref k) :
      Wakes k u (.unblock q max mode ref) q (if mode = .byMask then k.token u &&& ref else 1)
  | cancel (q : KThrQueue) : Wakes k u (.cancel q u) q 0
  | signal {cv : ℕ} (h : u ∈ unblocked .cvWaitQueue 1 .byValue cv k) :
      Wakes k u (.condVarSignal cv) .cvWaitQueue 1
  | broadcast {cv : ℕ} (h : u ∈ unblocked .cvWaitQueue (-1) .byValue cv k) :
      Wakes k u (.condVarBroadcast cv) .cvWaitQueue 1
  | exit (rc : ℤ) : Wakes k u (.exit rc) .joinQueue 1

inductive Enters (k : Kernel) : Call → KThrQueue → ℕ → Prop
  | block (q : KThrQueue) (token : ℕ) : Enters k (.block q token) q token
  | join (t : Tid) : Enters k (.join t) .joinQueue t
  | condVarWait (cv m : ℕ) : Enters k (.condVarWait cv m) .cvWaitQueue cv

inductive Releases : Call → ℕ → Prop
  | unlock (m : ℕ) : Releases (.mutexUnlock m) m
  | condVarWait (cv m : ℕ) : Releases (.condVarWait cv m) m

inductive Change (k : Kernel) (c : Call) (k' : Kernel) (u : Tid) : Prop
  | keep (h : Same k k' u)
  | count (hs : k'.state u = k.state u) (hq : k'.waitQueue u = k.waitQueue u)
      (ht : k'.token u = k.token u)
      (hn : c = .resume u ∧ k.suspend u ≠ 0 ∧ (k.suspend u-1 ≠ 0 ∨ (k.waitQueue u).isSome) ∧
          k'.suspend u = k.suspend u-1 ∨
        c = .suspend u ∧ k.state u ≠ .running ∧ k'.suspend u = u16 (k.suspend u+1))
  | start (hs : k.state u = .waiting) (hq : k.waitQueue u = none) (hs' : k'.state u = .running)
      (hn : k'.suspend u = 0) (hq' : k'.waitQueue u = none) (ht : k'.token u = k.token u)
  | stop (hs : k.state u = .running) (hs' : k'.state u = .waiting) (hn : k'.suspend u = 1)
      (hq' : k'.waitQueue u = none) (ht : k'.token u = k.token u)
  | prepare (prio : ℕ) (hc : c = .prepare u prio) (hs : k'.state u = .waiting)
      (hn : k'.suspend u = 1) (hq : k'.waitQueue u = none)
  | enter {q : KThrQueue} {token : ℕ} (hc : Enters k c q token) (hu : u = k.self)
      (hs : k'.state u = .waiting) (hn : k'.suspend u = k.suspend u)
      (hq : k'.waitQueue u = some q) (ht : k'.token u = token)
  | lock {m : ℕ} {o : Tid} (hc : c = .mutexLock m) (ho : k.owner m = some o) (hu : u = k.self)
      (hs : k'.state u = .waitingMutex) (hn : k'.suspend u = k.suspend u)
      (hq : k'.waitQueue u = some (.waiters o)) (ht : k'.token u = m)
  | wake {q : KThrQueue} {token : ℕ} (hc : Wakes k u c q token) (hs : k.state u = .waiting)
      (hq : k.waitQueue u = some q) (hs' : k'.state u = awake k u)
      (hn : k'.suspend u = k.suspend u) (hq' : k'.waitQueue u = none) (ht : k'.token u = token)
  | handed {m : ℕ} (hc : Releases c m) (hs : k.state u = .waitingMutex) (hm : k.token u = m)
      (hh : (contenders m k).head? = some u) (ho : k'.owner m = some u)
      (hs' : k'.state u = awake k u) (hn : k'.suspend u = k.suspend u)
      (hq' : k'.waitQueue u = none) (ht : k'.token u = m)
  | moved {m : ℕ} {o : Tid} (hc : Releases c m) (hs : k.state u = .waitingMutex)
      (hm : k.token u = m) (hh : (contenders m k).head? = some o) (hs' : k'.state u = .waitingMutex)
      (hn : k'.suspend u = k.suspend u) (hq' : k'.waitQueue u = some (.waiters o))
      (ht : k'.token u = m)
  | finish {rc : ℤ} (hc : c = .exit rc) (hu : u = k.self) (hs' : k'.state u = .finished)
      (hn : k'.suspend u = k.suspend u) (hq' : k'.waitQueue u = none) (ht : k'.token u = k.token u)

variable {c : Call} {q : KThrQueue} {k k' : Kernel} {u : Tid} {m : ℕ}

section Cases

variable {k : Kernel} {u : Tid}

theorem change_refl (c : Call) : Change k c k u := .keep ⟨rfl,rfl,rfl,rfl⟩

theorem change_wake {max : ℤ} {mode : KThrUnblockMode} {ref : ℕ} (h : Core k) (hq : Free q)
    (hc : u ∈ unblocked q max mode ref k → Wakes k u c q
      (if mode = .byMask then k.token u &&& ref else 1)) :
    Change k c (wake q mode ref (unblocked q max mode ref k) k) u := by
  by_cases hu : u ∈ unblocked q max mode ref k
  · obtain ⟨hw,hs⟩ := unblocked_waiting h hq hu
    exact .wake (hc hu) hs hw (if_pos hu) rfl (if_pos hu) (if_pos hu)
  · exact .keep ⟨if_neg hu,rfl,if_neg hu,if_neg hu⟩

theorem change_enter {token : ℕ} (hc : Enters k c q token) :
    Change k c (enterQueue q .waiting token k.self k) u := by
  by_cases hu : u = k.self
  · refine .enter hc hu ?_ rfl ?_ ?_ <;> rw [hu] <;> exact update_self _ _ _
  · exact .keep ⟨update_of_ne hu _ _,rfl,update_of_ne hu _ _,
      update_of_ne hu _ _⟩

theorem change_released {k₁ : Kernel} (h : Core k) (ho : k.owner m = some k.self)
    (hc : Releases c m) (hr : Released m k k₁) (hk : Same k₁ k' u) (hko : k'.owner = k₁.owner) :
    Change k c k' u := by
  have hsus : k'.suspend u = k.suspend u := by rw [hk.suspend, hr.suspend]
  have htok : k'.token u = k.token u := by rw [hk.token, hr.token]
  have hwq := hk.waitQueue.trans (hr.waitQueue u)
  have hst := hk.state.trans (hr.state u)
  by_cases hu : u ∈ contenders m k
  · obtain ⟨⟨t,ht⟩,hm⟩ := (mem_contenders h ho u).mp hu
    have hs := (h.shape.mutex u).mpr ⟨t,ht⟩
    rw [if_pos hu] at hwq
    by_cases hh : (contenders m k).head? = some u
    · rw [if_pos hh] at hwq hst
      have howner : k'.owner m = some u := by
        rw [hko, hr.owner, update_self, hh]
      exact .handed hc hs hm hh howner hst hsus hwq (htok.trans hm)
    · rw [if_neg hh] at hwq hst
      obtain ⟨o,ho'⟩ : ∃ o, (contenders m k).head? = some o := by
        cases hc : contenders m k with
        | nil => simp [hc] at hu
        | cons o os => exact ⟨o,rfl⟩
      rw [ho'] at hwq
      exact .moved hc hs hm ho' (hst.trans hs) hsus hwq (htok.trans hm)
  · have hne : (contenders m k).head? ≠ some u := fun hh => hu (List.mem_of_head? hh)
    rw [if_neg hu] at hwq
    rw [if_neg hne] at hst
    exact .keep ⟨hst,hsus,hwq,htok⟩

theorem change_exit (rc : ℤ) (h : Core k) (hr : k.state k.self = .running)
    (hi : k.self ≠ idleThread) (ho : ∀ m, k.owner m ≠ some k.self) :
    Change k (.exit rc) (afterExit rc k) u := by
  have hcore := finish_core rc h hr hi ho
  have hfree : Free .joinQueue := by simp [Free]
  by_cases hu : u = k.self
  · have hn : u ∉ unblocked .joinQueue (-1) .byValue k.self (finish k.self rc k) := by
      intro hm
      have hw := (unblocked_waiting hcore hfree hm).1
      change k.waitQueue u = _ at hw
      rw [hu, h.shape.not_queued hr] at hw
      simp at hw
    refine .finish rfl hu ((if_neg hn).trans ?_) rfl ((if_neg hn).trans ?_) (if_neg hn)
    · rw [hu]
      exact update_self _ _ _
    · change k.waitQueue u = _
      rw [hu, h.shape.not_queued hr]
  · have hst : (finish k.self rc k).state u = k.state u := update_of_ne hu _ _
    by_cases hm : u ∈ unblocked .joinQueue (-1) .byValue k.self (finish k.self rc k)
    · obtain ⟨hw,hs⟩ := unblocked_waiting hcore hfree hm
      exact .wake (.exit rc) (hst.symm.trans hs) hw (if_pos hm) rfl (if_pos hm) (if_pos hm)
    · exact .keep ⟨(if_neg hm).trans hst,rfl,if_neg hm,if_neg hm⟩

end Cases

theorem effect_change (h : Inv k) (hs : Sound c k) (he : Effect k c k') (u : Tid) :
    Change k c k' u := by
  cases he with
  | prepare t prio =>
    by_cases hu : u = t
    · refine .prepare prio (by rw [hu]) ?_ ?_ ?_ <;> rw [hu] <;> exact update_self _ _ _
    · exact .keep ⟨update_of_ne hu _ _,update_of_ne hu _ _,
        update_of_ne hu _ _,update_of_ne hu _ _⟩
  | resumeNone => exact change_refl _
  | @resumeLess t h0 hc =>
    by_cases hu : u = t
    · subst hu
      exact .count rfl rfl rfl (Or.inl ⟨rfl,h0,hc,update_self _ _ _⟩)
    · exact .keep ⟨rfl,update_of_ne hu _ _,rfl,rfl⟩
  | @resumeRun t h1 hst hq =>
    by_cases hu : u = t
    · subst hu
      exact .start hst hq (update_self _ _ _) (update_self _ _ _) hq rfl
    · exact .keep ⟨update_of_ne hu _ _,update_of_ne hu _ _,rfl,rfl⟩
  | @suspendMore t hr =>
    by_cases hu : u = t
    · subst hu
      exact .count rfl rfl rfl (Or.inr ⟨rfl,hr,update_self _ _ _⟩)
    · exact .keep ⟨rfl,update_of_ne hu _ _,rfl,rfl⟩
  | @suspendStop t hr =>
    by_cases hu : u = t
    · subst hu
      exact .stop hr (update_self _ _ _) (update_self _ _ _)
        (h.shape.not_queued hr) rfl
    · exact .keep ⟨update_of_ne hu _ _,update_of_ne hu _ _,rfl,rfl⟩
  | setPrio hset =>
    exact .keep ⟨congrFun hset.reorder.state u,congrFun hset.reorder.suspend u,
      congrFun hset.reorder.waitQueue u,congrFun hset.reorder.token u⟩
  | yield => exact change_refl _
  | block q token => exact change_enter (.block q token)
  | unblock q max mode ref => exact change_wake h.toCore hs.1 .unblock
  | cancelNone => exact change_refl _
  | @cancel q t hst hq =>
    by_cases hu : u = t
    · subst hu
      exact .wake (.cancel q) hst hq (update_self _ _ _) rfl (update_self _ _ _)
        (update_self _ _ _)
    · exact .keep ⟨update_of_ne hu _ _,rfl,update_of_ne hu _ _,
        update_of_ne hu _ _⟩
  | lockFree => exact .keep ⟨rfl,rfl,rfl,rfl⟩
  | @lockBlocked m o k' ho hset =>
    have hst := congrFun hset.reorder.state u
    have hn := congrFun hset.reorder.suspend u
    have hq := congrFun hset.reorder.waitQueue u
    have ht := congrFun hset.reorder.token u
    by_cases hu : u = k.self
    · refine .lock rfl ho hu (hst.trans ?_) hn (hq.trans ?_) (ht.trans ?_) <;> rw [hu] <;>
        exact update_self _ _ _
    · exact .keep ⟨hst.trans (update_of_ne hu _ _),hn,
        hq.trans (update_of_ne hu _ _),ht.trans (update_of_ne hu _ _)⟩
  | tryLockFree => exact .keep ⟨rfl,rfl,rfl,rfl⟩
  | tryLockHeld => exact change_refl _
  | unlock ho hr => exact change_released h.toCore ho (.unlock _) hr ⟨rfl,rfl,rfl,rfl⟩ rfl
  | @condVarWait cv m k₁ ho hr =>
    by_cases hu : u = k.self
    · refine .enter (.condVarWait cv m) hu ?_ (congrFun hr.suspend u) ?_ ?_ <;> rw [hu] <;>
        exact update_self _ _ _
    · exact change_released h.toCore ho (.condVarWait cv m) hr ⟨update_of_ne hu _ _,rfl,
        update_of_ne hu _ _,update_of_ne hu _ _⟩ rfl
  | signal cv => exact change_wake h.toCore (by simp [Free]) .signal
  | broadcast cv => exact change_wake h.toCore (by simp [Free]) .broadcast
  | joinNone => exact change_refl _
  | join => exact change_enter (.join _)
  | exit rc => exact change_exit rc h.toCore (h.caller_running hs.1.1.1).1 hs.1.1.2 hs.1.2
  | irqEnter | irqReturn => exact change_refl _

theorem Change.switched {k₁ : Kernel} (h : Change k c k₁ u) (hw : Switched k₁ k') :
    Change k c k' u := by
  obtain ⟨s,n,e,rfl⟩ := hw
  cases h with
  | keep h => exact .keep ⟨h.state,h.suspend,h.waitQueue,h.token⟩
  | count hs hq ht hn => exact .count hs hq ht hn
  | start hs hq hs' hn hq' ht => exact .start hs hq hs' hn hq' ht
  | stop hs hs' hn hq' ht => exact .stop hs hs' hn hq' ht
  | prepare prio hc hs hn hq => exact .prepare prio hc hs hn hq
  | enter hc hu hs hn hq ht => exact .enter hc hu hs hn hq ht
  | lock hc ho hu hs hn hq ht => exact .lock hc ho hu hs hn hq ht
  | wake hc hs hq hs' hn hq' ht => exact .wake hc hs hq hs' hn hq' ht
  | handed hc hs hm hh ho hs' hn hq' ht => exact .handed hc hs hm hh ho hs' hn hq' ht
  | moved hc hs hm hh hs' hn hq' ht => exact .moved hc hs hm hh hs' hn hq' ht
  | finish hc hu hs' hn hq' ht => exact .finish hc hu hs' hn hq' ht

theorem call_change (h : Inv k) (hs : Sound c k) (hk : kernelCall c k = some k') (u : Tid) :
    Change k c k' u := by
  obtain ⟨⟨k₁,he,hw⟩,-⟩ := call_effect h hs hk
  exact (effect_change h hs he u).switched hw

/-! One thread and one queue. -/

/-- What a call does to one thread, as far as one queue and the token of a
thread that has left it are concerned. -/
inductive QueueChange (q : KThrQueue) (k : Kernel) (c : Call) (k' : Kernel) (u : Tid) : Prop
  | stays (hq : k.waitQueue u = some q) (hq' : k'.waitQueue u = some q)
      (ht : k'.token u = k.token u)
  | leaves {token : ℕ} (hc : Wakes k u c q token) (hq : k.waitQueue u = some q)
      (hq' : k'.waitQueue u = none) (ht : k'.token u = token)
  | enters {token : ℕ} (hc : Enters k c q token) (hu : u = k.self)
      (hq' : k'.waitQueue u = some q) (ht : k'.token u = token)
  | still (hq : k.waitQueue u = none) (hq' : k'.waitQueue u = none)
      (ht : k'.token u = k.token u)
  | apart (hq : k.waitQueue u ≠ some q) (hq' : k'.waitQueue u ≠ some q)
      (hn : k.waitQueue u ≠ none ∨ ¬Live k u ∨ u = k.self ∧ Caller k ∧ c ≠ .irqEnter)

theorem queueChange_kept (hq : k'.waitQueue u = k.waitQueue u) (ht : k'.token u = k.token u) :
    QueueChange q k c k' u := by
  by_cases hin : k.waitQueue u = some q
  · exact .stays hin (hq.trans hin) ht
  · by_cases hn : k.waitQueue u = none
    · exact .still hn (hq.trans hn) ht
    · exact .apart hin (by rwa [hq]) (Or.inl hn)

theorem enters_caller {token : ℕ} (hs : Sound c k) (hc : Enters k c q token) :
    Caller k ∧ c ≠ .irqEnter := by
  cases hc with
  | block => exact ⟨hs.1.1,by simp⟩
  | join | condVarWait => exact ⟨hs.1,by simp⟩

theorem queueChange_of_change (hfree : Free q) (h : Inv k) (hs : Sound c k) (hc : Change k c k' u) :
    QueueChange q k c k' u := by
  have hself : Caller k → k.waitQueue k.self = none := fun hcall =>
    h.shape.not_queued (h.caller_running hcall.1).1
  have hother : ∀ o, some (KThrQueue.waiters o) ≠ some q := fun o he =>
    hfree o (some.inj he).symm
  cases hc with
  | keep hk => exact queueChange_kept hk.waitQueue hk.token
  | count _ hq ht => exact queueChange_kept hq ht
  | start _ hq _ _ hq' ht => exact .still hq hq' ht
  | stop hr _ _ hq' ht => exact .still (h.shape.not_queued hr) hq' ht
  | prepare prio hc _ _ hq =>
    subst hc
    have hn : k.waitQueue u ≠ some q := fun hw => hs.1.2 (h.shape.queued_live hw)
    exact .apart hn (by simp [hq]) (Or.inr (Or.inl hs.1.2))
  | @enter r token hc hu _ _ hq ht =>
    by_cases hr : r = q
    · subst hr
      exact .enters hc hu hq ht
    · refine .apart ?_ ?_ (Or.inr (Or.inr ⟨hu,enters_caller hs hc⟩))
      · rw [hu, hself (enters_caller hs hc).1]
        simp
      · rw [hq]
        simpa using hr
  | @lock m o hc _ hu _ _ hq =>
    subst hc
    refine .apart ?_ (by rw [hq]; exact hother o) (Or.inr (Or.inr ⟨hu,hs.1,by simp⟩))
    rw [hu, hself hs.1]
    simp
  | @wake r token hc _ hq _ _ hq' ht =>
    by_cases hr : r = q
    · subst hr
      exact .leaves hc hq hq' ht
    · exact .apart (by simpa [hq] using hr) (by simp [hq']) (Or.inl (by simp [hq]))
  | handed _ hst _ _ _ _ _ hq' =>
    obtain ⟨o,ho⟩ := (h.shape.mutex u).mp hst
    exact .apart (by rw [ho]; exact hother o) (by simp [hq']) (Or.inl (by simp [ho]))
  | @moved m r _ hst _ _ _ _ hq' =>
    obtain ⟨o,ho⟩ := (h.shape.mutex u).mp hst
    exact .apart (by rw [ho]; exact hother o) (by rw [hq']; exact hother r)
      (Or.inl (by simp [ho]))
  | finish hc hu _ _ hq' =>
    subst hc
    refine .apart ?_ (by simp [hq']) (Or.inr (Or.inr ⟨hu,hs.1.1,by simp⟩))
    rw [hu, hself hs.1.1]
    simp

theorem change_live (hc : Change k c k' u) (hl : Live k u) :
    Live k' u ∨ (∃ rc, c = .exit rc) ∧ u = k.self := by
  have hawake : k'.state u = awake k u → Live k' u := by
    intro hs
    rcases awake_cases k u with ⟨ha,-⟩ | ha <;> simp [Live, hs, ha]
  cases hc with
  | keep hk =>
    left
    simpa [Live, hk.state] using hl
  | count hs =>
    left
    simpa [Live, hs] using hl
  | start _ _ hs => exact Or.inl (by simp [Live, hs])
  | stop _ hs | prepare _ _ hs | enter _ _ hs | lock _ _ _ hs => exact Or.inl (by simp [Live, hs])
  | wake _ _ _ hs | handed _ _ _ _ _ hs => exact Or.inl (hawake hs)
  | moved _ _ _ _ hs => exact Or.inl (by simp [Live, hs])
  | finish hc hu => exact Or.inr ⟨⟨_,hc⟩,hu⟩

/-! The owners. -/

theorem call_owner {t : Tid} (h : Inv k) (hs : Sound c k) (hk : kernelCall c k = some k')
    (ho : k.owner m = some t) : k'.owner m = some t ∨ Releases c m ∧ t = k.self := by
  obtain ⟨⟨k₁,he,⟨_,_,_,rfl⟩⟩,-⟩ := call_effect h hs hk
  change k₁.owner m = some t ∨ _
  have htake : ∀ n, k.owner n = none → (setOwner n (some k.self) k).owner m = some t := by
    intro n hn
    have hne : m ≠ n := by
      rintro rfl
      simp [hn] at ho
    exact (update_of_ne hne _ _).trans ho
  have hgive : ∀ n k₂, k.owner n = some k.self → Released n k k₂ → Releases c n →
      k₂.owner m = some t ∨ Releases c m ∧ t = k.self := by
    intro n k₂ hn hr hc
    by_cases hmn : m = n
    · subst hmn
      exact Or.inr ⟨hc,mem_unique ho hn⟩
    · rw [hr.owner, update_of_ne hmn]
      exact Or.inl ho
  cases he with
  | lockFree hn | tryLockFree hn => exact Or.inl (htake _ hn)
  | unlock hn hr => exact hgive _ _ hn hr (.unlock _)
  | @condVarWait cv n k₂ hn hr => exact hgive n k₂ hn hr (.condVarWait cv n)
  | setPrio hset | lockBlocked _ hset => exact Or.inl ((congrFun hset.reorder.owner m).trans ho)
  | _ => exact Or.inl ho

theorem lock_takes (hk : kernelCall (.mutexLock m) k = some k') (ho : k.owner m = none) :
    k' = setOwner m (some k.self) k := by
  change kMutexLock m k = _ at hk
  simp only [kMutexLock, ho] at hk
  exact (some.inj hk).symm

theorem lock_blocks (h : Inv k) (hc : Caller k) (hk : kernelCall (.mutexLock m) k = some k')
    (ho : k.owner m ≠ none) : k'.state k.self = .waitingMutex ∧ k'.token k.self = m := by
  obtain ⟨⟨k₁,he,⟨_,_,_,rfl⟩⟩,-⟩ := call_effect (c := .mutexLock m) h ⟨hc,trivial⟩ hk
  cases he with
  | lockFree hn => exact absurd hn ho
  | lockBlocked _ hset =>
    exact ⟨(congrFun hset.reorder.state _).trans (update_self _ _ _),
      (congrFun hset.reorder.token _).trans (update_self _ _ _)⟩

end Libogc.ThreadChange
