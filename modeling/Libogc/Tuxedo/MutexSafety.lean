import Libogc.Tuxedo.SyncSystem

/-!
# Mutexes

The threads blocked on a mutex are the threads in the list of its owner with
the mutex as their token. A release gives the mutex to the first of them and
the others to the list of the new owner. A thread inside `KMutexLock` either
still waits or has been given the mutex, so when it runs again it owns it.
-/

set_option autoImplicit false

namespace Libogc.MutexSafety
open Option Function GuardedReach ThreadKernel ThreadInvariant QueueStep
open QueueLoop MutexStep KernelCall CallEffect QueueOrder
open ThreadChange SyncSystem

/-- The call behind an action, and for an action without a call one that can
keep every thread as it is. -/
def callBehind (a : Action) (s : Sync) : Call := (callOf a s).getD .yield

variable {a : Action} {k k' : Kernel} {s s' : Sync} {t : Tid} {m : ℕ}

theorem sync_change (hi : Inv s.kernel) (hok : SyncOk a s) (h : syncStep a s = some s') (u : Tid) :
    Change s.kernel (callBehind a s) s'.kernel u := by
  rcases (sync_cases h).1 with ⟨-,hk⟩ | ⟨c,hc,hk⟩
  · rw [hk]
    exact change_refl _
  · rw [callBehind, hc]
    exact call_change hi (sync_sound hok hc) hk u

theorem releases_free (hok : SyncOk a s) (hr : Releases (callBehind a s) m) :
    s.place s.self = .free := by
  cases a with
  | call c =>
    cases hr with
    | unlock => exact hok.2.2 hok.1.1.1 (by simp)
    | condVarWait => exact absurd hok.2.1 (by simp [ClientCall])
  | lock n | wait cv n | waitTimeoutTicks cv n ticks => exact hok.2
  | expire t => cases hr
  | proceed =>
    simp only [callBehind, callOf] at hr
    split at hr <;> cases hr

theorem sync_owner (hi : Inv s.kernel) (hok : SyncOk a s) (h : syncStep a s = some s')
    (ho : s.kernel.owner m = some t) (ht : s.place t ≠ .free) : s'.kernel.owner m = some t := by
  rcases (sync_cases h).1 with ⟨-,hk⟩ | ⟨c,hc,hk⟩
  · rwa [hk]
  · rcases call_owner hi (sync_sound hok hc) hk ho with ho' | ⟨hr,rfl⟩
    · exact ho'
    · exact absurd (releases_free hok (by rwa [callBehind, hc])) ht

def Queued (t : Tid) (m : ℕ) (k : Kernel) : Prop := k.state t = .waitingMutex ∧ k.token t = m

instance (t : Tid) (m : ℕ) (k : Kernel) : Decidable (Queued t m k) :=
  inferInstanceAs (Decidable (_ ∧ _))

def Locking (s : Sync) : Prop :=
  ∀ t m p, s.place t = .locking m p → Queued t m s.kernel ∨ s.kernel.owner m = some t

theorem change_queued {c : Call} (h : Inv k) (hs : Sound c k) (hq : Queued t m k)
    (hc : Change k c k' t) : Queued t m k' ∨ k'.owner m = some t := by
  obtain ⟨hst,htok⟩ := hq
  have hself : Caller k → t ≠ k.self := by
    rintro hcall rfl
    have := (h.caller_running hcall.1).1
    simp [hst] at this
  cases hc with
  | keep hk => exact Or.inl ⟨hk.state.trans hst,hk.token.trans htok⟩
  | count hs _ ht => exact Or.inl ⟨hs.trans hst,ht.trans htok⟩
  | start hw => simp [hst] at hw
  | stop hr => simp [hst] at hr
  | prepare prio hc =>
    subst hc
    exact absurd (by simp [Live, hst]) hs.1.2
  | enter he hu =>
    refine absurd hu (hself ?_)
    cases he with
    | block => exact hs.1.1
    | join | condVarWait => exact hs.1
  | lock hc _ hu =>
    subst hc
    exact absurd hu (hself hs.1)
  | wake _ hw => simp [hst] at hw
  | handed _ _ hm _ ho =>
    rw [← htok, hm]
    exact Or.inr ho
  | moved _ _ hm _ hs' _ _ ht =>
    rw [← htok, hm]
    exact Or.inl ⟨hs',ht⟩
  | finish hc hu =>
    subst hc
    exact absurd hu (hself hs.1.1)

theorem sync_queued (hi : Inv s.kernel) (hok : SyncOk a s) (h : syncStep a s = some s')
    (hq : Queued t m s.kernel) : Queued t m s'.kernel ∨ s'.kernel.owner m = some t := by
  rcases (sync_cases h).1 with ⟨-,hk⟩ | ⟨c,hc,hk⟩
  · rw [hk]
    exact Or.inl hq
  · have hs := sync_sound hok hc
    exact change_queued hi hs hq (call_change hi hs hk t)

theorem afterLock_locking {n : ℕ} {p q : Purpose} (h : afterLock n q s = .locking m p) :
    m = n ∧ s.kernel.owner m ≠ none := by
  unfold afterLock at h
  split at h
  · simp at h
  · rename_i ho
    obtain ⟨rfl,-⟩ := Place.locking.inj h
    exact ⟨rfl,ho⟩

theorem place_cases (a : Action) (s : Sync) (t : Tid) (m : ℕ) (p : Purpose)
    (h : nextPlace a s t = .locking m p) : s.place t = .locking m p ∨
      t = s.self ∧ callOf a s = some (.mutexLock m) ∧ s.kernel.owner m ≠ none := by
  cases a with
  | call c =>
    left
    cases c with
    | prepare u prio =>
      change update s.place u .free t = _ at h
      by_cases hu : t = u
      · rw [hu] at h
        simp at h
      · rwa [update_of_ne hu] at h
    | _ => exact h
  | lock n =>
    change update s.place s.self _ t = _ at h
    by_cases ht : t = s.self
    · rw [ht, update_self] at h
      obtain ⟨rfl,ho⟩ := afterLock_locking h
      exact Or.inr ⟨ht,rfl,ho⟩
    · rw [update_of_ne ht] at h
      exact Or.inl h
  | wait cv n =>
    change update s.place s.self _ t = _ at h
    by_cases ht : t = s.self
    · rw [ht] at h
      simp at h
    · rw [update_of_ne ht] at h
      exact Or.inl h
  | waitTimeoutTicks cv n ticks =>
    rw [nextPlace] at h
    split at h
    · exact Or.inl h
    · by_cases ht : t = s.self
      · rw [ht] at h
        simp at h
      · rw [update_of_ne ht] at h
        exact Or.inl h
  | expire u => exact Or.inl h
  | proceed =>
    by_cases ht : t = s.self
    · cases hp : s.place s.self with
      | waiting cv n ticks =>
        simp only [nextPlace, hp] at h
        rw [ht, update_self] at h
        obtain ⟨rfl,ho⟩ := afterLock_locking h
        exact Or.inr ⟨ht,by simp only [callOf, hp],ho⟩
      | _ =>
        simp only [nextPlace, hp] at h
        simp [ht] at h
    · left
      cases hp : s.place s.self <;> simp only [nextPlace, hp] at h <;>
        rwa [update_of_ne ht] at h

theorem sync_caller (hok : SyncOk a s) (hc : callOf a s = some (.mutexLock m)) :
    Caller s.kernel := by
  cases a with
  | call c =>
    obtain rfl := some.inj hc
    exact absurd hok.2.1 (by simp [ClientCall])
  | expire t => simp [callOf] at hc
  | _ => exact hok.1

theorem sync_locking (hi : Inv s.kernel) (hl : Locking s) (hok : SyncOk a s)
    (h : syncStep a s = some s') : Locking s' := by
  intro t m p ht
  obtain ⟨hk,hplace,-⟩ := sync_cases h
  rw [hplace] at ht
  rcases place_cases a s t m p ht with ht | ⟨rfl,hc,ho⟩
  · rcases hl t m p ht with hq | ho
    · exact sync_queued hi hok h hq
    · exact Or.inr (sync_owner hi hok h ho (by simp [ht]))
  · rcases hk with ⟨hn,-⟩ | ⟨c,hc',hk⟩
    · simp [hc] at hn
    · obtain rfl := mem_unique hc hc'
      exact Or.inl (lock_blocks hi (sync_caller hok hc) hk ho)

/-! The release. -/

/-- A release that nobody waits for frees the mutex. Otherwise the first
waiter owns it and the others wait in the list of the new owner. -/
structure Handover (m : ℕ) (since : Tid → ℕ) (k k' : Kernel) : Prop where
  freed : (∀ t, ¬Queued t m k) → k'.owner m = none
  passed : ∀ t, Queued t m k → ∃ o, Queued o m k ∧ k'.owner m = some o ∧
    ∀ u, Queued u m k → u ≠ o → Before since k o u ∧ u ∈ k'.members (.waiters o)

theorem mem_contenders_iff (h : Core k) (ho : k.owner m = some k.self) (u : Tid) :
    u ∈ contenders m k ↔ Queued u m k := by
  rw [mem_contenders h ho, Queued, h.shape.mutex]

theorem released_handover {since : Tid → ℕ} {k₁ : Kernel} (h : Core k) (hf : Fifo since k)
    (ho : k.owner m = some k.self) (hr : Released m k k₁) (howner : k'.owner = k₁.owner)
    (hmem : ∀ o, k'.members (.waiters o) = k₁.members (.waiters o)) : Handover m since k k' := by
  have hnew : k'.owner m = (contenders m k).head? := by
    rw [howner, hr.owner, update_self]
  have hmoved : ∀ o u, (contenders m k).head? = some o → u ∈ contenders m k → u ≠ o →
      u ∈ k'.members (.waiters o) := by
    intro o u hh hu hne
    rw [hmem, hr.core.shape.queue_mem, hr.waitQueue, if_pos hu, hh,
      if_neg (fun he => hne (some.inj he).symm)]
    rfl
  cases hc : contenders m k with
  | nil =>
    have hnone : ∀ t, ¬Queued t m k := by
      intro t ht
      rw [← mem_contenders_iff h ho, hc] at ht
      simp at ht
    exact ⟨fun _ => by rw [hnew, hc]; rfl,fun t ht => absurd ht (hnone t)⟩
  | cons o us =>
    have hh : (contenders m k).head? = some o := by rw [hc]; rfl
    have hqo : Queued o m k := (mem_contenders_iff h ho o).mp (List.mem_of_head? hh)
    refine ⟨fun hn => absurd hqo (hn o),fun _ _ => ⟨o,hqo,hnew.trans hh,?_⟩⟩
    intro u hu hne
    have hin := (mem_contenders_iff h ho u).mpr hu
    refine ⟨head_before h.sorted hf hc u ?_,hmoved o u hh hin hne⟩
    rw [hc] at hin
    exact (List.mem_cons.mp hin).resolve_left hne

theorem releases_handover {c : Call} {since : Tid → ℕ} (h : Inv k) (hs : Sound c k)
    (hf : Fifo since k) (hc : Releases c m) (hk : kernelCall c k = some k') :
    Handover m since k k' := by
  obtain ⟨⟨k₁,he,⟨_,_,_,rfl⟩⟩,-⟩ := call_effect h hs hk
  cases hc with
  | unlock =>
    cases he with
    | unlock ho hr => exact released_handover h.toCore hf ho hr rfl (fun _ => rfl)
  | condVarWait cv =>
    cases he with
    | @condVarWait _ _ k₂ ho hr =>
      exact released_handover h.toCore hf ho hr rfl
        (fun o => enterQueue_other (q := .cvWaitQueue) (r := .waiters o) .waiting cv k.self k₂
          (by simp))

def releasedBy : Action → Option ℕ
  | .call (.mutexUnlock m) => some m
  | .wait _ m => some m
  | .waitTimeoutTicks _ m ticks => if ticks = 0 then none else some m
  | _ => none

theorem releasedBy_call (h : releasedBy a = some m) :
    ∃ c, callOf a s = some c ∧ Releases c m ∧
      (Holds c s.kernel ↔ s.kernel.owner m = some s.self) := by
  cases a with
  | call c =>
    cases c with
    | mutexUnlock n =>
      obtain rfl := some.inj h
      exact ⟨_,rfl,.unlock n,Iff.rfl⟩
    | _ => simp [releasedBy] at h
  | wait cv n =>
    obtain rfl := some.inj h
    exact ⟨_,rfl,.condVarWait cv n,Iff.rfl⟩
  | waitTimeoutTicks cv n ticks =>
    simp only [releasedBy] at h
    split at h
    · simp at h
    · rename_i ht
      obtain rfl := some.inj h
      exact ⟨_,if_neg ht,.condVarWait cv n,Iff.rfl⟩
  | _ => simp [releasedBy] at h

theorem sync_handover (hi : Inv s.kernel) (hq : InOrder s) (hok : SyncOk a s)
    (ha : releasedBy a = some m) (ho : s.kernel.owner m = some s.self) :
    ∃ s', syncStep a s = some s' ∧ Handover m s.since s.kernel s'.kernel := by
  obtain ⟨c,hc,hrel,hholds⟩ := releasedBy_call ha
  have hs := sync_sound hok hc
  obtain ⟨k₁,k',hk,-⟩ := call_returns hi hs (hholds.mpr ho)
  obtain ⟨s',hs',rfl⟩ := sync_returns hc hk
  exact ⟨s',hs',releases_handover hi hs hq.fifo hrel hk⟩

/-! The returns. -/

/-- A thread that comes back from a call that locks a mutex owns it. A wait
with a timeout of zero locks nothing. -/
def Owns (k : Kernel) : Event → Prop
  | .locked t m => k.owner m = some t
  | .waited t _ m => k.owner m = some t
  | .timedWaited t _ m ticks _ => ticks ≠ 0 → k.owner m = some t

theorem returned_owns (p : Purpose) (h : k.owner m = some t) : Owns k (returned t m p) := by
  cases p with
  | lock => exact h
  | wait cv ticks ret =>
    cases ticks with
    | none => exact h
    | some n => exact fun _ => h

theorem lockReturns_owns {p : Purpose} {e : Event} (hc : callOf a s = some (.mutexLock m))
    (h : syncStep a s = some s') (he : lockReturns m p s = some e) : Owns s'.kernel e := by
  unfold lockReturns at he
  split at he
  · rename_i ho
    obtain rfl := some.inj he
    rcases (sync_cases h).1 with ⟨hn,-⟩ | ⟨c,hc',hk⟩
    · simp [hc] at hn
    · obtain rfl := mem_unique hc hc'
      rw [lock_takes hk ho]
      exact returned_owns p (update_self _ _ _)
  · simp at he

theorem sync_owns (hi : Inv s.kernel) (hl : Locking s) (hok : SyncOk a s)
    (h : syncStep a s = some s') : ∀ e, s'.event = some e → Owns s'.kernel e := by
  intro e he
  obtain ⟨hk,-,-,-,hev,-⟩ := sync_cases h
  rw [hev] at he
  cases a with
  | lock m => exact lockReturns_owns rfl h he
  | waitTimeoutTicks cv m ticks =>
    simp only [nextEvent] at he
    split at he
    · obtain rfl := some.inj he
      exact fun hne => absurd rfl hne
    · simp at he
  | proceed =>
    cases hp : s.place s.self with
    | free => exact absurd hp hok.2
    | waiting cv m ticks =>
      simp only [nextEvent, hp] at he
      exact lockReturns_owns (by simp only [callOf, hp]) h he
    | locking m p =>
      simp only [nextEvent, hp] at he
      obtain rfl := some.inj he
      have hsame : s'.kernel = s.kernel := by
        rcases hk with ⟨-,hk⟩ | ⟨c,hc,-⟩
        · exact hk
        · simp [callOf, hp] at hc
      rw [hsame]
      apply returned_owns
      rcases hl s.self m p hp with hq | ho
      · have hr := (hi.caller_running hok.1.1).1
        exact absurd (hr.symm.trans hq.1) (by simp)
      · exact ho
  | _ => simp [nextEvent] at he

theorem queued_iff (h : Core k) (m : ℕ) (t : Tid) : Queued t m k ↔
      ∃ o, k.owner m = some o ∧ t ∈ k.members (.waiters o) ∧ k.token t = m := by
  constructor
  · rintro ⟨hst,rfl⟩
    obtain ⟨o,ho⟩ := (h.shape.mutex t).mp hst
    exact ⟨o,h.owned.waits t o ho,(h.shape.queue_mem _ t).mpr ho,rfl⟩
  · rintro ⟨o,-,hm,ht⟩
    exact ⟨(h.shape.mutex t).mpr ⟨o,(h.shape.queue_mem _ t).mp hm⟩,ht⟩

structure SyncInv (s : Sync) : Prop where
  kernel : Inv s.kernel
  locking : Locking s
  order : InOrder s
  owns : ∀ e, s.event = some e → Owns s.kernel e

theorem init_syncInv : SyncInv syncInit where
  kernel := init_inv
  locking := by
    intro t m p h
    simp [syncInit] at h
  order := init_order
  owns := by simp [syncInit]

theorem reach_syncInv (h : Reach syncStep SyncOk syncInit s) : SyncInv s := by
  refine reach_invariant init_syncInv ?_ h
  intro a s s' hi hok hs
  exact ⟨sync_inv hi.kernel hok hs,sync_locking hi.kernel hi.locking hok hs,
    sync_order hi.kernel hi.order hok hs,sync_owns hi.kernel hi.locking hok hs⟩

/-- What the mutexes promise in a state: who waits for them, what a release
does, and what a thread has when it comes back. -/
structure MutexSafe (s : Sync) : Prop where
  waiters : ∀ m t, Queued t m s.kernel ↔
    ∃ o, s.kernel.owner m = some o ∧ t ∈ s.kernel.members (.waiters o) ∧ s.kernel.token t = m
  handover : ∀ a m, SyncOk a s → releasedBy a = some m → s.kernel.owner m = some s.self →
    ∃ s', syncStep a s = some s' ∧ Handover m s.since s.kernel s'.kernel
  owns : ∀ e, s.event = some e → Owns s.kernel e
  polls : ∀ cv m s', syncStep (.waitTimeoutTicks cv m 0) s = some s' → s'.kernel = s.kernel

theorem mutex_safety {s : Sync} (h : Reach syncStep SyncOk syncInit s) : MutexSafe s := by
  have hi := reach_syncInv h
  refine ⟨queued_iff hi.kernel.toCore,fun a m => sync_handover hi.kernel hi.order,hi.owns,?_⟩
  intro cv m s' hs
  rcases (sync_cases hs).1 with ⟨-,hk⟩ | ⟨c,hc,-⟩
  · exact hk
  · simp [callOf] at hc

/-- Two threads block on the mutex of the main thread, which then releases it
with a wait: the better one owns the mutex and has the other in its list. -/
theorem mutex_safety_contended : ∃ s, Reach syncStep SyncOk syncInit s ∧ MutexSafe s ∧
    s.kernel.owner 5 = some 3 ∧ s.kernel.members (.waiters 3) = [2] := by
  have hrun : (runChecked syncStep syncAdmits [.lock 5, .call (.prepare 2 10), .call (.resume 2),
      .lock 5, .call (.prepare 3 8), .call (.resume 3), .lock 5, .wait 7 5] syncInit).any
      (fun s => decide (s.kernel.owner 5 = some 3 ∧ s.kernel.members (.waiters 3) = [2])) =
        true := by
    decide +kernel
  obtain ⟨s,hreach,howner,hlist⟩ := run_reaches syncAdmits_ok hrun
  exact ⟨s,hreach,mutex_safety hreach,howner,hlist⟩

/-- A wait with a timeout of zero comes back without the mutex. Thread 2, which
waits for mutex 5 before thread 3 does and all the time from then on, inherits
the priority of thread 3 from thread 4 and goes behind it; thread 3 gets the
mutex. -/
theorem poll_returns_without_mutex : (∃ s t cv m ticks ret, Reach syncStep SyncOk syncInit s ∧
    s.event = some (.timedWaited t cv m ticks ret) ∧ s.kernel.owner m ≠ some t) ∧
    ∃ s t t', Reach syncStep SyncOk syncInit s ∧ (Queued 2 5 s.kernel ∧ ¬Queued 3 5 s.kernel) ∧
      Reach syncStep (fun a s => SyncOk a s ∧ Queued 2 5 s.kernel) s t ∧
      (Queued 2 5 t.kernel ∧ Queued 3 5 t.kernel ∧ t.kernel.prio 2 = t.kernel.prio 3) ∧
      SyncOk (.call (.mutexUnlock 5)) t ∧ syncStep (.call (.mutexUnlock 5)) t = some t' ∧
      t'.kernel.owner 5 = some 3 := by
  have hrun : (runChecked syncStep syncAdmits [.waitTimeoutTicks 7 5 0] syncInit).any
      (fun s => decide (s.event = some (.timedWaited mainThread 7 5 0 false) ∧
        s.kernel.owner 5 ≠ some mainThread)) = true := by
    decide +kernel
  have hlater : (runChecked syncStep syncAdmits [.lock 5, .call (.prepare 2 20), .call (.resume 2),
      .lock 6, .lock 5] syncInit).any (fun s =>
        decide (Queued 2 5 s.kernel ∧ ¬Queued 3 5 s.kernel) &&
        (runChecked syncStep (fun a s => syncAdmits a s && decide (Queued 2 5 s.kernel))
          [.call (.prepare 3 10), .call (.resume 3), .lock 5, .call (.prepare 4 9),
            .call (.resume 4), .call (.setPrio 4 10), .lock 6] s).any (fun t =>
          decide ((Queued 2 5 t.kernel ∧ Queued 3 5 t.kernel ∧
            t.kernel.prio 2 = t.kernel.prio 3) ∧ syncAdmits (.call (.mutexUnlock 5)) t = true ∧
            (syncStep (.call (.mutexUnlock 5)) t).any (fun t' =>
              decide (t'.kernel.owner 5 = some 3)) = true))) = true := by
    decide +kernel
  obtain ⟨s,hreach,hevent,howner⟩ := run_reaches syncAdmits_ok hrun
  obtain ⟨u,t,hu,hfirst,ht,hboth,hok,hunlock⟩ :=
    run_continues syncAdmits_ok (check_and syncAdmits_ok fun _ _ => of_decide_eq_true) hlater
  obtain ⟨t',ht',hd⟩ := (Option.any_eq_true _ _).mp hunlock
  exact ⟨⟨s,mainThread,7,5,0,false,hreach,hevent,howner⟩,
    u,t,t',hu,hfirst,ht,hboth,syncAdmits_ok _ _ hok,ht',of_decide_eq_true hd⟩

end Libogc.MutexSafety
