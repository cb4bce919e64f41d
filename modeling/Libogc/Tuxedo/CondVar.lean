import Libogc.Tuxedo.MutexSafety

/-!
# Condition variables

The waiters of all condition variables are in one queue, told apart by their
tokens. A thread enters it only through its own wait, and leaves it through a
signal or a broadcast of its condition variable or through its own timeout.
The token that the removal leaves is the result of the wait, and nothing
changes it until the thread runs again and reads it.
-/

set_option autoImplicit false

namespace Libogc.CondVar
open Option Function GuardedReach ThreadKernel ThreadInvariant QueueStep List
open QueueLoop MutexStep KernelCall CallEffect QueueOrder
open ThreadChange SyncSystem MutexSafety

def Waiter (cv : ℕ) (t : Tid) (k : Kernel) : Prop :=
  k.waitQueue t = some .cvWaitQueue ∧ k.token t = cv

instance (cv : ℕ) (t : Tid) (k : Kernel) : Decidable (Waiter cv t k) :=
  inferInstanceAs (Decidable (_ ∧ _))

/-! The removals of a signal and a broadcast. -/

/-- A signal removes nobody if its condition variable has no waiter, and
otherwise the first waiter and nobody else. -/
structure Signalled (cv : ℕ) (since : Tid → ℕ) (k k' : Kernel) : Prop where
  unheard : (∀ t, ¬Waiter cv t k) → ∀ cv' u, Waiter cv' u k' ↔ Waiter cv' u k
  taken : ∀ t, Waiter cv t k → ∃ o, Waiter cv o k ∧
    (∀ u, Waiter cv u k → u ≠ o → Before since k o u) ∧
    ∀ cv' u, Waiter cv' u k' ↔ Waiter cv' u k ∧ u ≠ o

variable {a : Action} {k k' : Kernel} {ticks : Option ℕ} {s s' : Sync} {t : Tid} {cv m token : ℕ}
  {since : Tid → ℕ} {p : Purpose}

theorem Signalled.switched {k₁ : Kernel} (h : Signalled cv since k k₁)
    (hw : Switched k₁ k') : Signalled cv since k k' := by
  obtain ⟨_,_,_,rfl⟩ := hw
  exact ⟨h.unheard,h.taken⟩

def waitersOf (cv : ℕ) (k : Kernel) : List Tid :=
  (k.members .cvWaitQueue).filter (fun u => decide (k.token u = cv))

theorem mem_waitersOf (h : Shape k) (cv : ℕ) (t : Tid) : t ∈ waitersOf cv k ↔ Waiter cv t k := by
  rw [waitersOf, mem_filter, h.queue_mem, decide_eq_true_eq, Waiter]

theorem unblocked_signal (cv : ℕ) (k : Kernel) :
    unblocked .cvWaitQueue 1 .byValue cv k = (waitersOf cv k).take 1 := rfl

theorem unblocked_broadcast (cv : ℕ) (k : Kernel) :
    unblocked .cvWaitQueue (-1) .byValue cv k = waitersOf cv k := rfl

theorem wake_waiter {mode : KThrUnblockMode} {ref : ℕ} {us : List Tid} (cv : ℕ) (u : Tid) :
    Waiter cv u (wake .cvWaitQueue mode ref us k) ↔ Waiter cv u k ∧ u ∉ us := by
  unfold Waiter wake
  by_cases hu : u ∈ us <;> simp [hu]

theorem signalled (h : Core k) (hf : Fifo since k) : Signalled cv since k
      (wake .cvWaitQueue .byValue cv (unblocked .cvWaitQueue 1 .byValue cv k) k) := by
  rw [unblocked_signal]
  cases hw : waitersOf cv k with
  | nil =>
    have hnone : ∀ t, ¬Waiter cv t k := by
      intro t ht
      rw [← mem_waitersOf h.shape, hw] at ht
      simp at ht
    refine ⟨fun _ cv' u => ?_,fun t ht => absurd ht (hnone t)⟩
    rw [wake_waiter]
    simp
  | cons o us =>
    have ho : Waiter cv o k := by
      rw [← mem_waitersOf h.shape, hw]
      exact mem_cons_self
    refine ⟨fun hn => absurd ho (hn o),fun _ _ => ⟨o,ho,?_,?_⟩⟩
    · intro u hu hne
      rw [← mem_waitersOf h.shape, hw] at hu
      exact head_before h.sorted hf hw u ((mem_cons.mp hu).resolve_left hne)
    · intro cv' u
      rw [wake_waiter]
      simp

theorem broadcast_waiter (h : Core k) (cv' : ℕ) (u : Tid) :
    Waiter cv' u (wake .cvWaitQueue .byValue cv (unblocked .cvWaitQueue (-1) .byValue cv k) k) ↔
      Waiter cv' u k ∧ cv' ≠ cv := by
  rw [unblocked_broadcast, wake_waiter, mem_waitersOf h.shape]
  constructor
  · rintro ⟨hw,hn⟩
    refine ⟨hw,?_⟩
    rintro rfl
    exact hn hw
  · rintro ⟨hw,hne⟩
    exact ⟨hw,fun hw' => hne (hw.2.symm.trans hw'.2)⟩

/-! The waits of a system. -/

inductive RemovedBy (t : Tid) (cv : ℕ) : Option ℕ → Bool → List Cause → Prop
  | signal (ticks : Option ℕ) : RemovedBy t cv ticks true [.signal cv]
  | broadcast (ticks : Option ℕ) : RemovedBy t cv ticks true [.broadcast cv]
  | timeout (n : ℕ) : RemovedBy t cv (some n) false [.timeout t]

theorem RemovedBy.single {ret : Bool} {causes : List Cause} (h : RemovedBy t cv ticks ret causes) :
    ∃ cause, causes = [cause] := by
  cases h <;> exact ⟨_,rfl⟩

structure Waits (s : Sync) (t : Tid) : Prop where
  queued : s.kernel.waitQueue t = some .cvWaitQueue → ∃ cv m ticks,
    s.place t = .waiting cv m ticks ∧ s.kernel.token t = cv ∧ s.causes t = []
  removed : ∀ cv m ticks, s.place t = .waiting cv m ticks →
    s.kernel.waitQueue t ≠ some .cvWaitQueue → s.kernel.waitQueue t = none ∧
      RemovedBy t cv ticks (decide (s.kernel.token t ≠ 0)) (s.causes t)
  locking : ∀ m cv ticks ret, s.place t = .locking m (.wait cv ticks ret) →
    RemovedBy t cv ticks ret (s.causes t)
  live : s.place t ≠ .free → Live s.kernel t
  timer : s.timer t = true → ∃ cv m n, s.place t = .waiting cv m (some n)

def Acts : Action → Prop
  | .lock _ => True
  | .wait _ _ => True
  | .waitTimeoutTicks _ _ ticks => ticks ≠ 0
  | .proceed => True
  | _ => False

theorem behind_sound (hok : SyncOk a s) : Sound (callBehind a s) s.kernel := by
  unfold callBehind
  cases hc : callOf a s with
  | none => exact ⟨trivial,trivial⟩
  | some c => exact sync_sound hok hc

theorem sync_queueChange (hi : Inv s.kernel) (hok : SyncOk a s) (h : syncStep a s = some s')
    (u : Tid) : QueueChange .cvWaitQueue s.kernel (callBehind a s) s'.kernel u :=
  queueChange_of_change (by simp [Free]) hi (behind_sound hok) (sync_change hi hok h u)

theorem bystander_kept (h : syncStep a s = some s') (ha : t = s.self → ¬Acts a)
    (hp : ∀ prio, a ≠ .call (.prepare t prio)) :
    s'.place t = s.place t ∧ (s'.timer t = true → s.timer t = true) ∧
      s'.causes t = noted a s s'.kernel t := by
  obtain ⟨-,hplace,htimer,hcauses,-⟩ := sync_cases h
  rw [hplace, htimer, hcauses]
  cases a with
  | call c =>
    refine ⟨?_,id,rfl⟩
    cases c with
    | prepare u prio =>
      have hne : t ≠ u := by
        rintro rfl
        exact hp prio rfl
      exact update_of_ne hne _ _
    | _ => rfl
  | expire u =>
    refine ⟨rfl,?_,rfl⟩
    change update s.timer u false t = true → _
    by_cases hu : t = u
    · rw [hu]
      simp
    · rw [update_of_ne hu]
      exact id
  | waitTimeoutTicks cv m ticks =>
    by_cases h0 : ticks = 0
    · simp only [nextPlace, nextTimer, nextCauses, if_pos h0]
      exact ⟨trivial,id,trivial⟩
    · have hne : t ≠ s.self := fun he => ha he h0
      simp only [nextPlace, nextTimer, nextCauses, if_neg h0, update_of_ne hne]
      exact ⟨trivial,id,trivial⟩
  | proceed =>
    have hne : t ≠ s.self := fun he => ha he trivial
    refine ⟨?_,?_,rfl⟩
    · cases hpl : s.place s.self <;> simp only [nextPlace, hpl, update_of_ne hne]
    · simp only [nextTimer, update_of_ne hne]
      exact id
  | _ =>
    have hne : t ≠ s.self := fun he => ha he trivial
    simp only [nextPlace, nextCauses, update_of_ne hne]
    exact ⟨trivial,id,trivial⟩

section

variable (hok : SyncOk a s) (hw : Wakes s.kernel t (callBehind a s) .cvWaitQueue token)
include hok hw

theorem wakes_cause : (∃ cv, a = .call (.condVarSignal cv) ∧ s.kernel.token t = cv ∧ token = 1) ∨
    (∃ cv, a = .call (.condVarBroadcast cv) ∧ s.kernel.token t = cv ∧ token = 1) ∨
    a = .expire t ∧ s.timer t = true ∧ token = 0 := by
  have hmatch : ∀ {max : ℤ} {cv : ℕ}, t ∈ unblocked .cvWaitQueue max .byValue cv s.kernel →
      s.kernel.token t = cv := by
    intro max cv hm
    have hm' : t ∈ picked max (waitersOf cv s.kernel) := hm
    have hin : t ∈ waitersOf cv s.kernel := by
      unfold picked at hm'
      split at hm'
      · exact hm'
      · exact mem_of_mem_take hm'
    simpa using (mem_filter.mp hin).2
  cases a with
  | call c =>
    cases hw with
    | unblock | cancel => exact absurd rfl hok.2.1
    | signal hm => exact Or.inl ⟨_,rfl,hmatch hm,rfl⟩
    | broadcast hm => exact Or.inr (Or.inl ⟨_,rfl,hmatch hm,rfl⟩)
  | expire u =>
    change Wakes s.kernel t (.cancel .cvWaitQueue u) .cvWaitQueue token at hw
    cases hw
    exact Or.inr (Or.inr ⟨rfl,hok.2,rfl⟩)
  | waitTimeoutTicks cv m ticks | proceed =>
    simp only [callBehind, callOf] at hw
    split at hw <;> cases hw
  | _ => cases hw

theorem removedBy_cause (hp : s.place t = .waiting cv m ticks) (ht : s.kernel.token t = cv)
    (htimer : s.timer t = true → ∃ cv m n, s.place t = .waiting cv m (some n)) :
    RemovedBy t cv ticks (decide (token ≠ 0)) [causeOf a] := by
  rcases wakes_cause hok hw with ⟨cv',rfl,hcv,rfl⟩ | ⟨cv',rfl,hcv,rfl⟩ | ⟨rfl,hon,rfl⟩
  · obtain rfl := ht.symm.trans hcv
    exact .signal ticks
  · obtain rfl := ht.symm.trans hcv
    exact .broadcast ticks
  · obtain ⟨cv',m',n,hp'⟩ := htimer hon
    obtain ⟨-,-,rfl⟩ := Place.waiting.inj (hp.symm.trans hp')
    exact .timeout n

end

theorem caller_free (hok : SyncOk a s) (ha : ¬Acts a) (hc : Caller s.kernel)
    (hne : callBehind a s ≠ .irqEnter) : s.place s.self = .free := by
  cases a with
  | call c => exact hok.2.2 hc.1 hne
  | waitTimeoutTicks cv m ticks => exact hok.2
  | expire t => exact absurd (hc.1.symm.trans hok.1) (by simp)
  | _ => exact absurd trivial ha

theorem not_enters (hok : SyncOk a s) (ha : ¬Acts a) :
    ¬Enters s.kernel (callBehind a s) .cvWaitQueue token := by
  intro he
  cases a with
  | call c =>
    cases he with
    | block => exact absurd rfl hok.2.1
    | condVarWait => exact hok.2.1
  | waitTimeoutTicks cv m ticks =>
    have h0 : ticks = 0 := not_not.mp ha
    simp only [callBehind, callOf, if_pos h0] at he
    cases he
  | expire t => cases he
  | _ => exact ha trivial

theorem noted_kept
    (h : s.kernel.waitQueue t ≠ some .cvWaitQueue ∨ k'.waitQueue t = some .cvWaitQueue) :
    noted a s k' t = s.causes t := by
  refine if_neg ?_
  rintro ⟨hq,hq'⟩
  rcases h with h | h
  · exact h hq
  · exact hq' h

theorem noted_left (hq : s.kernel.waitQueue t = some .cvWaitQueue) (hq' : k'.waitQueue t = none) :
    noted a s k' t = s.causes t ++ [causeOf a] :=
  if_pos ⟨hq,by simp [hq']⟩

theorem sync_live (hi : Inv s.kernel) (hok : SyncOk a s) (h : syncStep a s = some s')
    (hl : Live s.kernel t) (ha : t = s.self → ¬Acts a) (hp : s.place t ≠ .free) :
    Live s'.kernel t := by
  rcases change_live (sync_change hi hok h t) hl with hl' | ⟨⟨rc,hc⟩,rfl⟩
  · exact hl'
  · have hs := behind_sound hok
    rw [hc] at hs
    exact absurd (caller_free hok (ha rfl) hs.1.1 (by simp [hc])) hp

theorem bystander_waits (hi : Inv s.kernel) (hw : Waits s t) (hok : SyncOk a s)
    (h : syncStep a s = some s') (ha : t = s.self → ¬Acts a)
    (hp : ∀ prio, a ≠ .call (.prepare t prio)) : Waits s' t := by
  obtain ⟨hplace,htimer,hcauses⟩ := bystander_kept h ha hp
  have hlive : s'.place t ≠ .free → Live s'.kernel t := by
    rw [hplace]
    exact fun hne => sync_live hi hok h (hw.live hne) ha hne
  have htimer' : s'.timer t = true → ∃ cv m n, s'.place t = .waiting cv m (some n) := by
    rw [hplace]
    exact fun ht => hw.timer (htimer ht)
  cases sync_queueChange hi hok h t with
  | stays hq hq' ht =>
    rw [noted_kept (Or.inr hq')] at hcauses
    refine ⟨?_,fun _ _ _ _ hne => absurd hq' hne,?_,hlive,htimer'⟩
    · rw [hplace, ht, hcauses]
      exact fun _ => hw.queued hq
    · rw [hplace, hcauses]
      exact hw.locking
  | leaves hc hq hq' ht =>
    rw [noted_left hq hq'] at hcauses
    obtain ⟨cv,m,ticks,hpl,htok,hnil⟩ := hw.queued hq
    refine ⟨by simp [hq'],?_,?_,hlive,htimer'⟩
    · intro cv' m' ticks' hpl' _
      rw [hplace, hpl] at hpl'
      obtain ⟨rfl,rfl,rfl⟩ := Place.waiting.inj hpl'
      rw [hcauses, hnil, ht]
      exact ⟨hq',removedBy_cause hok hc hpl htok hw.timer⟩
    · intro m' cv' ticks' ret hpl'
      rw [hplace, hpl] at hpl'
      simp at hpl'
  | enters hc hu => exact absurd hc (not_enters hok (ha hu))
  | still hq hq' ht =>
    have hne : s.kernel.waitQueue t ≠ some .cvWaitQueue := by simp [hq]
    rw [noted_kept (Or.inl hne)] at hcauses
    refine ⟨by simp [hq'],?_,?_,hlive,htimer'⟩
    · intro cv m ticks hpl _
      rw [hplace] at hpl
      rw [ht, hcauses]
      exact ⟨hq',(hw.removed cv m ticks hpl hne).2⟩
    · rw [hplace, hcauses]
      exact hw.locking
  | apart hq hq' hn =>
    rw [noted_kept (Or.inl hq)] at hcauses
    refine ⟨fun hin => absurd hin hq',?_,?_,hlive,htimer'⟩
    · intro cv m ticks hpl _
      rw [hplace] at hpl
      have hbusy : s.place t ≠ .free := by simp [hpl]
      rcases hn with hn | hn | ⟨rfl,hcall,hne⟩
      · exact absurd (hw.removed cv m ticks hpl hq).1 hn
      · exact absurd (hw.live hbusy) hn
      · exact absurd (caller_free hok (ha rfl) hcall hne) hbusy
    · rw [hplace, hcauses]
      exact hw.locking

theorem prepared_waits {prio : ℕ} (hi : Inv s.kernel) (hw : Waits s t)
    (hok : SyncOk (.call (.prepare t prio)) s)
    (h : syncStep (.call (.prepare t prio)) s = some s') : Waits s' t := by
  obtain ⟨-,hplace,htimer,-⟩ := sync_cases h
  have hfree : s'.place t = .free := by
    rw [hplace]
    exact update_self _ _ _
  have hdead : ¬Live s.kernel t := hok.1.1.2
  have hqueue : s'.kernel.waitQueue t ≠ some .cvWaitQueue := by
    cases sync_queueChange hi hok h t with
    | stays hq => exact absurd (hi.shape.queued_live hq) hdead
    | leaves _ _ hq' => simp [hq']
    | enters hc => cases hc
    | still _ hq' => simp [hq']
    | apart _ hq' => exact hq'
  refine ⟨fun hin => absurd hin hqueue,by simp [hfree],by simp [hfree],by simp [hfree],?_⟩
  intro ht
  rw [htimer] at ht
  obtain ⟨cv,m,n,hpl⟩ := hw.timer ht
  exact absurd (hw.live (by simp [hpl])) hdead

/-! The executing thread in its own call. -/

theorem waits_entered (hq : s.kernel.waitQueue t = some .cvWaitQueue) (ht : s.kernel.token t = cv)
    (hp : s.place t = .waiting cv m ticks) (hc : s.causes t = []) (hl : Live s.kernel t)
    (hon : s.timer t = true → ∃ n, ticks = some n) : Waits s t := by
  refine ⟨fun _ => ⟨cv,m,ticks,hp,ht,hc⟩,fun _ _ _ _ hne => absurd hq hne,by simp [hp],
    fun _ => hl,?_⟩
  intro h
  obtain ⟨n,rfl⟩ := hon h
  exact ⟨cv,m,n,hp⟩

theorem waits_outside (hq : s.kernel.waitQueue t ≠ some .cvWaitQueue)
    (hp : ∀ cv m ticks, s.place t ≠ .waiting cv m ticks)
    (hk : ∀ m cv ticks ret, s.place t = .locking m (.wait cv ticks ret) →
      RemovedBy t cv ticks ret (s.causes t))
    (hl : Live s.kernel t) (hon : s.timer t = false) : Waits s t :=
  ⟨fun hin => absurd hin hq,fun cv m ticks h => absurd h (hp cv m ticks),hk,fun _ => hl,
    by simp [hon]⟩

theorem wait_enters (h : Inv k) (hc : Caller k) (hk : kernelCall (.condVarWait cv m) k = some k') :
    k'.waitQueue k.self = some .cvWaitQueue ∧ k'.token k.self = cv ∧ Live k' k.self := by
  obtain ⟨⟨k₁,he,⟨_,_,_,rfl⟩⟩,-⟩ := call_effect (c := .condVarWait cv m) h ⟨hc,trivial⟩ hk
  cases he with
  | @condVarWait _ _ k₂ _ _ =>
    have hst : (enterQueue .cvWaitQueue .waiting cv k.self k₂).state k.self = .waiting :=
      update_self _ _ _
    exact ⟨update_self _ _ _,update_self _ _ _,by simp [Live, hst]⟩

theorem afterLock_place : (∀ cv n ticks, afterLock m p s ≠ .waiting cv n ticks) ∧
      ∀ n q, afterLock m p s = .locking n q → q = p := by
  unfold afterLock
  split
  · simp
  · refine ⟨by simp,?_⟩
    intro n q h
    exact (Place.locking.inj h).2.symm

theorem actor_outside (hi : Inv s.kernel) (hok : SyncOk a s) (h : syncStep a s = some s')
    (hc : Caller s.kernel) (he : ∀ token, ¬Enters s.kernel (callBehind a s) .cvWaitQueue token)
    (hx : ∀ rc, callBehind a s ≠ .exit rc) :
    s'.kernel.waitQueue s.self ≠ some .cvWaitQueue ∧ Live s'.kernel s.self ∧
      noted a s s'.kernel s.self = s.causes s.self := by
  have hr := (hi.caller_running hc.1).1
  have hnone : s.kernel.waitQueue s.self = none := hi.shape.not_queued hr
  refine ⟨?_,?_,noted_kept (Or.inl (by simp [hnone]))⟩
  · cases sync_queueChange hi hok h s.self with
    | stays hq | leaves _ hq => simp [hnone] at hq
    | enters hc => exact absurd hc (he _)
    | still _ hq' => simp [hq']
    | apart _ hq' => exact hq'
  · rcases change_live (sync_change hi hok h s.self) (running_live hr) with hl | ⟨⟨rc,hrc⟩,-⟩
    · exact hl
    · exact absurd hrc (hx rc)

theorem timer_off (hw : Waits s t) (hp : ∀ cv m n, s.place t ≠ .waiting cv m (some n)) :
    s.timer t = false := by
  cases ht : s.timer t with
  | false => rfl
  | true =>
    obtain ⟨cv,m,n,h⟩ := hw.timer ht
    exact absurd h (hp cv m n)

section

variable (hi : Inv s.kernel)
include hi

theorem lock_waits (hw : Waits s s.self) (hok : SyncOk (.lock m) s)
    (h : syncStep (.lock m) s = some s') : Waits s' s.self := by
  obtain ⟨-,hplace,htimer,-⟩ := sync_cases h
  obtain ⟨hq,hl,-⟩ := actor_outside hi hok h hok.1 (by rintro _ ⟨⟩) (by rintro _ ⟨⟩)
  have hp : s'.place s.self = afterLock m .lock s := by
    rw [hplace]
    exact update_self _ _ _
  refine waits_outside hq ?_ ?_ hl ?_
  · rw [hp]
    exact afterLock_place.1
  · intro n cv ticks ret hn
    rw [hp] at hn
    exact absurd (afterLock_place.2 _ _ hn) (by simp)
  · rw [htimer]
    exact timer_off hw (by simp [hok.2])

theorem wait_waits (hw : Waits s s.self) (hok : SyncOk (.wait cv m) s)
    (h : syncStep (.wait cv m) s = some s') : Waits s' s.self := by
  obtain ⟨hk,hplace,htimer,hcauses,-⟩ := sync_cases h
  rcases hk with ⟨hn,-⟩ | ⟨c,hc,hk⟩
  · simp [callOf] at hn
  · cases hc
    obtain ⟨hq,ht,hl⟩ := wait_enters hi hok.1 hk
    have hoff := timer_off hw (by simp [hok.2])
    have hp : s'.place s.self = .waiting cv m none := by
      rw [hplace]
      exact update_self _ _ _
    refine waits_entered hq ht hp ?_ hl ?_
    · rw [hcauses]
      exact update_self _ _ _
    · intro hon
      rw [htimer] at hon
      exact absurd (hoff.symm.trans hon) (by simp)

theorem timedWait_waits {n : ℕ} (hn : n ≠ 0) (hok : SyncOk (.waitTimeoutTicks cv m n) s)
    (h : syncStep (.waitTimeoutTicks cv m n) s = some s') : Waits s' s.self := by
  obtain ⟨hk,hplace,-,hcauses,-⟩ := sync_cases h
  rcases hk with ⟨hc,-⟩ | ⟨c,hc,hk⟩
  · simp [callOf, hn] at hc
  · obtain rfl : Call.condVarWait cv m = c := by simpa [callOf, hn] using hc
    obtain ⟨hq,ht,hl⟩ := wait_enters hi hok.1 hk
    have hp : s'.place s.self = .waiting cv m (some n) := by simp [hplace, nextPlace, hn]
    exact waits_entered hq ht hp (by simp [hcauses, nextCauses, hn]) hl (fun _ => ⟨n,rfl⟩)

theorem proceed_waits (hw : Waits s s.self) (hok : SyncOk .proceed s)
    (h : syncStep .proceed s = some s') : Waits s' s.self := by
  obtain ⟨-,hplace,htimer,hcauses,-⟩ := sync_cases h
  have hnone : s.kernel.waitQueue s.self = none :=
    hi.shape.not_queued (hi.caller_running hok.1.1).1
  have hoff : s'.timer s.self = false := by
    rw [htimer]
    exact update_self _ _ _
  have hbehind : (∀ token, ¬Enters s.kernel (callBehind .proceed s) .cvWaitQueue token) ∧
      ∀ rc, callBehind .proceed s ≠ .exit rc := by
    cases hp : s.place s.self <;> simp only [callBehind, callOf, hp] <;>
      exact ⟨by rintro _ ⟨⟩,by rintro _ ⟨⟩⟩
  obtain ⟨hq,hl,hkept⟩ := actor_outside hi hok h hok.1 hbehind.1 hbehind.2
  cases hp : s.place s.self with
  | waiting cv m ticks =>
    have hplace' : s'.place s.self = afterLock m (.wait cv ticks (blockResult s)) s := by
      rw [hplace]
      simp only [nextPlace, hp]
      exact update_self _ _ _
    refine waits_outside hq ?_ ?_ hl hoff
    · rw [hplace']
      exact afterLock_place.1
    · intro n cv' ticks' ret hn
      rw [hplace'] at hn
      obtain ⟨rfl,rfl,rfl⟩ := Purpose.wait.inj (afterLock_place.2 _ _ hn)
      rw [hcauses]
      change RemovedBy _ _ _ _ (noted .proceed s s'.kernel s.self)
      rw [hkept]
      exact (hw.removed cv' m ticks' hp (by simp [hnone])).2
  | _ =>
    have hplace' : s'.place s.self = .free := by
      rw [hplace]
      simp only [nextPlace, hp]
      exact update_self _ _ _
    exact waits_outside hq (by simp [hplace']) (by simp [hplace']) hl hoff

theorem sync_waits (hw : ∀ t, Waits s t) (hok : SyncOk a s)
    (h : syncStep a s = some s') (t : Tid) : Waits s' t := by
  by_cases hact : t = s.self ∧ Acts a
  · obtain ⟨rfl,ha⟩ := hact
    cases a with
    | lock m => exact lock_waits hi (hw _) hok h
    | wait cv m => exact wait_waits hi (hw _) hok h
    | waitTimeoutTicks cv m ticks => exact timedWait_waits hi ha hok h
    | proceed => exact proceed_waits hi (hw _) hok h
    | _ => exact absurd ha id
  · have ha : t = s.self → ¬Acts a := fun ht ha => hact ⟨ht,ha⟩
    by_cases hp : ∃ prio, a = .call (.prepare t prio)
    · obtain ⟨prio,rfl⟩ := hp
      exact prepared_waits hi (hw t) hok h
    · exact bystander_waits hi (hw t) hok h ha (fun prio he => hp ⟨prio,he⟩)

end

/-! The results. -/

def Answers (causes : Tid → List Cause) : Event → Prop
  | .locked _ _ => True
  | .waited t cv _ => RemovedBy t cv none true (causes t)
  | .timedWaited t cv _ ticks ret => ticks ≠ 0 → RemovedBy t cv (some ticks) ret (causes t)

theorem returned_answers {causes : Tid → List Cause}
    (h : ∀ cv ticks ret, p = .wait cv ticks ret → RemovedBy t cv ticks ret (causes t)) :
    Answers causes (returned t m p) := by
  cases p with
  | lock => trivial
  | wait cv ticks ret =>
    have hr := h cv ticks ret rfl
    cases ticks with
    | some n => exact fun _ => hr
    | none =>
      cases ret with
      | true => exact hr
      | false => cases hr

theorem sync_answers (hi : Inv s.kernel) (hw : ∀ t, Waits s t) (hok : SyncOk a s)
    (h : syncStep a s = some s') : ∀ e, s'.event = some e → Answers s'.causes e := by
  intro e he
  obtain ⟨-,-,-,hcauses,hev,-⟩ := sync_cases h
  rw [hev] at he
  cases a with
  | lock m =>
    simp only [nextEvent, lockReturns] at he
    split at he
    · cases he
      trivial
    · simp at he
  | waitTimeoutTicks cv m ticks =>
    simp only [nextEvent] at he
    split at he
    · cases he
      exact fun hne => absurd rfl hne
    · simp at he
  | proceed =>
    have hnone : s.kernel.waitQueue s.self = none :=
      hi.shape.not_queued (hi.caller_running hok.1.1).1
    have hkept : s'.causes s.self = s.causes s.self := by
      rw [hcauses]
      exact noted_kept (Or.inl (by simp [hnone]))
    cases hp : s.place s.self with
    | free => exact absurd hp hok.2
    | waiting cv m ticks =>
      simp only [nextEvent, hp, lockReturns] at he
      split at he
      · cases he
        apply returned_answers
        rintro cv' ticks' ret heq
        obtain ⟨rfl,rfl,rfl⟩ := Purpose.wait.inj heq
        rw [hkept]
        exact ((hw s.self).removed cv m ticks hp (by simp [hnone])).2
      · simp at he
    | locking m p =>
      simp only [nextEvent, hp] at he
      cases he
      apply returned_answers
      rintro cv ticks ret rfl
      rw [hkept]
      exact (hw s.self).locking m cv ticks ret hp
  | _ => simp [nextEvent] at he

structure CondVarInv (s : Sync) : Prop where
  kernel : Inv s.kernel
  order : InOrder s
  waits : ∀ t, Waits s t
  answers : ∀ e, s.event = some e → Answers s.causes e

theorem init_waits (t : Tid) : Waits syncInit t :=
  ⟨by simp [syncInit, kThreadInit],by simp [syncInit],by simp [syncInit],by simp [syncInit],
    by simp [syncInit]⟩

theorem reach_condVarInv (h : Reach syncStep SyncOk syncInit s) : CondVarInv s := by
  refine reach_invariant ⟨init_inv,init_order,init_waits,by simp [syncInit]⟩ ?_ h
  intro a s s' hi hok hs
  exact ⟨sync_inv hi.kernel hok hs,sync_order hi.kernel hi.order hok hs,
    sync_waits hi.kernel hi.waits hok hs,sync_answers hi.kernel hi.waits hok hs⟩

theorem waiter_iff (hw : Waits s t) (cv : ℕ) :
    Waiter cv t s.kernel ↔ ∃ m ticks, s.place t = .waiting cv m ticks ∧ s.causes t = [] := by
  constructor
  · rintro ⟨hq,rfl⟩
    obtain ⟨cv,m,ticks,hp,rfl,hc⟩ := hw.queued hq
    exact ⟨m,ticks,hp,hc⟩
  · rintro ⟨m,ticks,hp,hc⟩
    by_cases hq : s.kernel.waitQueue t = some .cvWaitQueue
    · obtain ⟨cv',m',ticks',hp',htok,-⟩ := hw.queued hq
      obtain ⟨rfl,-,-⟩ := Place.waiting.inj (hp.symm.trans hp')
      exact ⟨hq,htok⟩
    · obtain ⟨cause,hcause⟩ := (hw.removed cv m ticks hp hq).2.single
      simp [hc] at hcause

theorem signal_removes (hi : CondVarInv s) (cv : ℕ) (hok : SyncOk (.call (.condVarSignal cv)) s) :
    ∃ s', syncStep (.call (.condVarSignal cv)) s = some s' ∧
      Signalled cv s.since s.kernel s'.kernel := by
  obtain ⟨k₁,k',hk,he,hsw,-⟩ := call_returns hi.kernel hok.1 trivial
  obtain ⟨s',hs',rfl⟩ := sync_returns (a := .call (.condVarSignal cv)) rfl hk
  cases he
  exact ⟨s',hs',(signalled hi.kernel.toCore hi.order.fifo).switched hsw⟩

theorem broadcast_removes (hi : CondVarInv s) (cv : ℕ)
    (hok : SyncOk (.call (.condVarBroadcast cv)) s) :
    ∃ s', syncStep (.call (.condVarBroadcast cv)) s = some s' ∧
      ∀ cv' u, Waiter cv' u s'.kernel ↔ Waiter cv' u s.kernel ∧ cv' ≠ cv := by
  obtain ⟨k₁,k',hk,he,hsw,-⟩ := call_returns hi.kernel hok.1 trivial
  obtain ⟨s',hs',rfl⟩ := sync_returns (a := .call (.condVarBroadcast cv)) rfl hk
  refine ⟨s',hs',?_⟩
  obtain ⟨_,_,_,hk'⟩ := hsw
  rw [hk']
  cases he
  exact broadcast_waiter hi.kernel.toCore

theorem removal_cause (hi : CondVarInv s) (hok : SyncOk a s) (h : syncStep a s = some s')
    (hw : Waiter cv t s.kernel) (hn : ¬Waiter cv t s'.kernel) :
    a = .call (.condVarSignal cv) ∨ a = .call (.condVarBroadcast cv) ∨
      a = .expire t ∧ ∃ m n, s.place t = .waiting cv m (some n) := by
  cases sync_queueChange hi.kernel hok h t with
  | stays _ hq' ht => exact absurd ⟨hq',ht.trans hw.2⟩ hn
  | leaves hc =>
    rcases wakes_cause hok hc with ⟨cv',rfl,hcv,-⟩ | ⟨cv',rfl,hcv,-⟩ | ⟨rfl,hon,-⟩
    · rw [← hcv, hw.2]
      exact Or.inl rfl
    · rw [← hcv, hw.2]
      exact Or.inr (Or.inl rfl)
    · obtain ⟨m,ticks,hp,-⟩ := (waiter_iff (hi.waits t) cv).mp hw
      obtain ⟨cv',m',n,hp'⟩ := (hi.waits t).timer hon
      obtain ⟨-,-,rfl⟩ := Place.waiting.inj (hp.symm.trans hp')
      exact Or.inr (Or.inr ⟨rfl,m,n,hp⟩)
  | enters hc hu =>
    have hcall := (enters_caller (behind_sound hok) hc).1
    have hq := hw.1
    rw [hu, hi.kernel.shape.not_queued (hi.kernel.caller_running hcall.1).1] at hq
    simp at hq
  | still hq => simp [hw.1] at hq
  | apart hq => exact absurd hw.1 hq

/-- What the condition variables promise in a state: who waits, what a signal
and a broadcast remove, that nothing else but a timeout removes a waiter, and
what the result of a wait tells. -/
structure CondVarSafe (s : Sync) : Prop where
  waiters : ∀ cv t, Waiter cv t s.kernel ↔
    ∃ m ticks, s.place t = .waiting cv m ticks ∧ s.causes t = []
  signal : ∀ cv, SyncOk (.call (.condVarSignal cv)) s →
    ∃ s', syncStep (.call (.condVarSignal cv)) s = some s' ∧
      Signalled cv s.since s.kernel s'.kernel
  broadcast : ∀ cv, SyncOk (.call (.condVarBroadcast cv)) s →
    ∃ s', syncStep (.call (.condVarBroadcast cv)) s = some s' ∧
      ∀ cv' u, Waiter cv' u s'.kernel ↔ Waiter cv' u s.kernel ∧ cv' ≠ cv
  removal : ∀ a s' cv t, SyncOk a s → syncStep a s = some s' → Waiter cv t s.kernel →
    ¬Waiter cv t s'.kernel → a = .call (.condVarSignal cv) ∨ a = .call (.condVarBroadcast cv) ∨
      a = .expire t ∧ ∃ m n, s.place t = .waiting cv m (some n)
  once : ∀ cv m ticks t, s.place t = .waiting cv m ticks → ¬Waiter cv t s.kernel →
    ∃ cause, s.causes t = [cause]
  waited : ∀ t cv m, s.event = some (.waited t cv m) →
    s.causes t = [.signal cv] ∨ s.causes t = [.broadcast cv]
  timedWaited : ∀ t cv m n ret, s.event = some (.timedWaited t cv m n ret) → n ≠ 0 →
    (ret = true ↔ s.causes t = [.signal cv] ∨ s.causes t = [.broadcast cv]) ∧
      (ret = false ↔ s.causes t = [.timeout t])

theorem condVar_safety {s : Sync} (h : Reach syncStep SyncOk syncInit s) : CondVarSafe s := by
  have hi := reach_condVarInv h
  refine ⟨fun cv t => waiter_iff (hi.waits t) cv,signal_removes hi,broadcast_removes hi,
    fun a s' cv t hok hs hw hn => removal_cause hi hok hs hw hn,?_,?_,?_⟩
  · intro cv m ticks t hp hn
    have hq : s.kernel.waitQueue t ≠ some .cvWaitQueue := by
      intro hq
      obtain ⟨cv',m',ticks',hp',htok,-⟩ := (hi.waits t).queued hq
      obtain ⟨rfl,-,-⟩ := Place.waiting.inj (hp.symm.trans hp')
      exact hn ⟨hq,htok⟩
    exact ((hi.waits t).removed cv m ticks hp hq).2.single
  · intro t cv m he
    have hr : RemovedBy t cv none true (s.causes t) := hi.answers _ he
    generalize s.causes t = causes at hr
    cases hr <;> simp
  · intro t cv m n ret he hn
    have hr : RemovedBy t cv (some n) ret (s.causes t) := hi.answers _ he hn
    generalize s.causes t = causes at hr
    cases hr <;> simp

/-- Two waits of the main thread: thread 2 signals the first, and the second
times out. -/
theorem condVar_safety_both : ∃ s s', Reach syncStep SyncOk syncInit s ∧
    Reach syncStep SyncOk syncInit s' ∧ CondVarSafe s ∧ CondVarSafe s' ∧
    s.event = some (.timedWaited mainThread 7 5 100 true) ∧
    s'.event = some (.timedWaited mainThread 7 5 100 false) := by
  have hsignal : (runChecked syncStep syncAdmits [.lock 5, .call (.prepare 2 10),
      .call (.resume 2), .lock 5, .waitTimeoutTicks 7 5 100, .proceed, .call (.condVarSignal 7),
      .call (.mutexUnlock 5), .call (.suspend 2), .proceed] syncInit).any
      (fun s => decide (s.event = some (.timedWaited mainThread 7 5 100 true))) = true := by
    decide +kernel
  have htimeout : (runChecked syncStep syncAdmits [.lock 5, .waitTimeoutTicks 7 5 100,
      .call .irqEnter, .expire mainThread, .call .irqReturn, .proceed] syncInit).any
      (fun s => decide (s.event = some (.timedWaited mainThread 7 5 100 false))) = true := by
    decide +kernel
  obtain ⟨s,hr,he⟩ := run_reaches syncAdmits_ok hsignal
  obtain ⟨s',hr',he'⟩ := run_reaches syncAdmits_ok htimeout
  exact ⟨s,s',hr,hr',condVar_safety hr,condVar_safety hr',he,he'⟩

/-- Thread 2 waits when thread 3 begins to wait, and all the time from then on.
It inherits the priority of thread 3 from thread 4, which locks its mutex 6, and
goes behind thread 3. The signal takes thread 3. -/
theorem later_waiter_signalled : ∃ s t t', Reach syncStep SyncOk syncInit s ∧
    (Waiter 7 2 s.kernel ∧ ¬Waiter 7 3 s.kernel) ∧
    Reach syncStep (fun a s => SyncOk a s ∧ Waiter 7 2 s.kernel) s t ∧
    (Waiter 7 2 t.kernel ∧ Waiter 7 3 t.kernel ∧ t.kernel.prio 2 = t.kernel.prio 3) ∧
    SyncOk (.call (.condVarSignal 7)) t ∧ syncStep (.call (.condVarSignal 7)) t = some t' ∧
    Waiter 7 2 t'.kernel ∧ ¬Waiter 7 3 t'.kernel := by
  have hrun : (runChecked syncStep syncAdmits [.call (.prepare 2 20), .call (.resume 2), .lock 6,
      .lock 5, .wait 7 5] syncInit).any (fun s =>
        decide (Waiter 7 2 s.kernel ∧ ¬Waiter 7 3 s.kernel) &&
        (runChecked syncStep (fun a s => syncAdmits a s && decide (Waiter 7 2 s.kernel))
          [.call (.prepare 3 10), .call (.resume 3), .lock 5, .wait 7 5, .call (.prepare 4 10),
            .call (.resume 4), .lock 6] s).any (fun t =>
          decide ((Waiter 7 2 t.kernel ∧ Waiter 7 3 t.kernel ∧
            t.kernel.prio 2 = t.kernel.prio 3) ∧ syncAdmits (.call (.condVarSignal 7)) t = true ∧
            (syncStep (.call (.condVarSignal 7)) t).any (fun t' =>
              decide (Waiter 7 2 t'.kernel ∧ ¬Waiter 7 3 t'.kernel)) = true))) = true := by
    decide +kernel
  obtain ⟨s,t,hs,hfirst,ht,hboth,hok,hsignal⟩ :=
    run_continues syncAdmits_ok (check_and syncAdmits_ok fun _ _ => of_decide_eq_true) hrun
  obtain ⟨t',ht',hd⟩ := (Option.any_eq_true _ _).mp hsignal
  exact ⟨s,t,t',hs,hfirst,ht,hboth,syncAdmits_ok _ _ hok,ht',of_decide_eq_true hd⟩

end Libogc.CondVar
