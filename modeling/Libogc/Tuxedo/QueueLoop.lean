import Libogc.Tuxedo.QueueStep

/-!
# The loops over a wait queue

`KThrQueueUnblockCommon` and `KThreadRemoveWaiter` walk a queue while they
take threads out of it. The walk reads the next thread before it moves the
current one, so both loops are folds over the threads that match, and the
state after them is given field by field.
-/

set_option autoImplicit false

namespace Libogc.QueueLoop
open List Function PrefixInsert ThreadKernel ThreadInvariant PrioUpdate
open QueueStep

/-! Unblocking. -/

def awake (k : Kernel) (t : Tid) : KThrState := if k.suspend t = 0 then .running else .waiting

def wake (q : KThrQueue) (mode : KThrUnblockMode) (ref : ℕ) (us : List Tid) (k : Kernel) :
    Kernel :=
  { k with
    state := fun u => if u ∈ us then awake k u else k.state u
    waitQueue := fun u => if u ∈ us then none else k.waitQueue u
    token := fun u =>
      if u ∈ us then (if mode = .byMask then k.token u &&& ref else 1) else k.token u
    members := update k.members q ((k.members q).filter (fun u => decide (u ∉ us))) }

def picked (max : ℤ) (ms : List Tid) : List Tid := if max < 0 then ms else ms.take max.toNat

variable (q : KThrQueue) (max : ℤ) (mode : KThrUnblockMode) (ref : ℕ) (t : Tid) (k : Kernel)

theorem awake_cases (t : Tid) : awake k t = .running ∧ k.suspend t = 0 ∨ awake k t = .waiting := by
  unfold awake
  split <;> simp_all

theorem unblockOne_leave {k : Kernel} {q : KThrQueue} {t : Tid} (hq : k.waitQueue t = some q)
    (hst : k.state t = .waiting) : unblockOne q mode ref t k =
      leave q t (if mode = .byMask then k.token t &&& ref else 1) (awake k t) k := by
  have hw : update k.state t .waiting = k.state := by
    rw [← hst, update_eq_self]
  simp only [unblockOne, kThrQueueRemove, hq, if_true, setToken, leave, awake]
  split
  · rfl
  · rw [hw]

theorem unblockOne_suspend : (unblockOne q mode ref t k).suspend = k.suspend := by
  simp only [unblockOne, kThrQueueRemove, setToken]
  split <;> split <;> rfl

theorem unblockOne_token (u : Tid) (k : Kernel) (hu : u ≠ t) :
    (unblockOne q mode ref t k).token u = k.token u := by
  simp only [unblockOne, kThrQueueRemove, setToken, setState]
  split <;> split <;> simp [hu]

theorem test_congr (k' : Kernel) (mode : KThrUnblockMode) (ref : ℕ) (t : Tid)
    (h : k'.token t = k.token t) :
    kThrQueueTestUnblock t mode ref k' = kThrQueueTestUnblock t mode ref k := by
  cases mode <;> simp [kThrQueueTestUnblock, h]

/-- The loop takes the matching threads in the order of the queue, all of them
or the first `max`, and remembers the first that is not suspended. -/
theorem unblockLoop_eq (max : ℤ) (l : List Tid) (hl : l.Nodup) (resched : Option Tid) (k : Kernel) :
    unblockLoop q mode ref max l resched k =
      (resched.or ((picked max (l.filter (fun t => kThrQueueTestUnblock t mode ref k))).find?
        (fun t => decide (k.suspend t = 0))),
      (picked max (l.filter (fun t => kThrQueueTestUnblock t mode ref k))).foldl
        (fun k t => unblockOne q mode ref t k) k) := by
  induction l generalizing max resched k with
  | nil => simp [unblockLoop, picked]
  | cons cur rest ih =>
    obtain ⟨hcur,hrest⟩ := nodup_cons.mp hl
    rw [unblockLoop]
    by_cases hm : max = 0
    · simp [hm, picked]
    rw [if_neg hm]
    cases ht : kThrQueueTestUnblock cur mode ref k with
    | false =>
      simp only [filter_cons, ht]
      exact ih max hrest resched k
    | true =>
      have hf : rest.filter
        (fun t => kThrQueueTestUnblock t mode ref (unblockOne q mode ref cur k)) =
          rest.filter (fun t => kThrQueueTestUnblock t mode ref k) := by
        apply filter_congr
        intro u hu
        exact test_congr _ _ mode ref u (unblockOne_token q mode ref cur u k
          (by rintro rfl; exact hcur hu))
      have hp : ∀ ms, picked max (cur::ms) = cur :: picked (if 0 < max then max-1 else max) ms := by
        intro ms
        unfold picked
        by_cases h : 0 < max
        · obtain ⟨n,rfl⟩ : ∃ n : ℕ, max = n+1 := ⟨(max-1).toNat,by omega⟩
          rw [if_neg (by omega), if_pos h, if_neg (by omega),
            show ((n:ℤ)+1).toNat = n+1 by omega, show ((n:ℤ)+1-1).toNat = n by omega,
            take_succ_cons]
        · rw [if_pos (by omega), if_pos (by omega)]
      simp only [if_true, filter_cons, ht]
      rw [ih _ hrest, hf, hp]
      simp only [unblockOne_suspend, foldl_cons]
      cases resched with
      | some r => simp
      | none => by_cases hs : k.suspend cur = 0 <;> simp [hs]

theorem wake_nil : wake q mode ref [] k = k := by
  simp [wake]

variable {us l : List Tid} {since : Tid → ℕ} {token : ℕ}

theorem wake_cons {k : Kernel} {q : KThrQueue} {t : Tid} (hs : Shape k)
    (hq : k.waitQueue t = some q) (hst : k.state t = .waiting) (ht : t ∉ us) :
    wake q mode ref us (unblockOne q mode ref t k) = wake q mode ref (t::us) k := by
  rw [unblockOne_leave mode ref hq hst]
  unfold wake leave
  congr 1
  · funext u
    by_cases hu : u = t
    · subst hu
      simp [ht]
    · simp [hu, awake]
  · funext u
    by_cases hu : u = t
    · subst hu
      simp [ht]
    · simp [hu]
  · funext u
    by_cases hu : u = t
    · subst hu
      simp [ht]
    · simp [hu]
  · dsimp only
    rw [update_self, update_idem, (hs.queue_nodup q).erase_eq_filter,
      filter_filter]
    congr 1
    apply filter_congr
    intro u _
    by_cases hu : u = t <;> simp [hu]

theorem foldl_unblockOne {k : Kernel} {q : KThrQueue} (hn : ∀ o, q ≠ .waiters o) (us : List Tid)
    (h : Core k) (hnd : us.Nodup) (hus : ∀ u ∈ us, k.waitQueue u = some q) :
    us.foldl (fun k t => unblockOne q mode ref t k) k = wake q mode ref us k ∧
      Core (wake q mode ref us k) := by
  induction us generalizing k with
  | nil =>
    rw [wake_nil]
    exact ⟨rfl,h⟩
  | cons t us ih =>
    obtain ⟨ht,hus'⟩ := nodup_cons.mp hnd
    have hq : k.waitQueue t = some q := hus t (by simp)
    have hst : k.state t = .waiting := by
      rcases h.shape.queued t q hq with hw | hw
      · exact hw
      · obtain ⟨o,ho⟩ := (h.shape.mutex t).mp hw
        exact absurd (Option.mem_unique hq ho) (hn o)
    have hc : Core (unblockOne q mode ref t k) := by
      rw [unblockOne_leave mode ref hq hst]
      exact leave_core h hq hn (awake_cases k t)
    have hr : ∀ u ∈ us, (unblockOne q mode ref t k).waitQueue u = some q := by
      intro u hu
      rw [unblockOne_leave mode ref hq hst]
      change update k.waitQueue t none u = _
      rw [update_of_ne (by rintro rfl; exact ht hu)]
      exact hus u (by simp [hu])
    obtain ⟨h1,h2⟩ := ih hc hus' hr
    rw [wake_cons mode ref h.shape hq hst ht] at h1 h2
    exact ⟨h1,h2⟩

theorem wake_sublist (us : List Tid) (k : Kernel) (r : KThrQueue) :
    ((wake q mode ref us k).members r).Sublist (k.members r) := by
  change (update k.members q _ r).Sublist _
  by_cases hr : r = q
  · rw [hr, update_self]
    exact filter_sublist
  · rw [update_of_ne hr]

theorem wake_fifo {k : Kernel} {q : KThrQueue} {mode : KThrUnblockMode} {ref : ℕ}
    (hs : Shape k) (hus : ∀ u ∈ us, k.waitQueue u = some q)
    (hf : Fifo since k) : Fifo since (wake q mode ref us k) := by
  apply hf.congr (wake_sublist q mode ref us k)
  intro r u hu
  have hn : u ∉ us := by
    intro hm
    change u ∈ update k.members q _ r at hu
    by_cases hr : r = q
    · rw [hr] at hu
      simp [hm] at hu
    · rw [update_of_ne hr] at hu
      exact hr (hs.queue_unique hu ((hs.queue_mem q u).mpr (hus u hm)))
  exact ⟨if_neg hn,rfl,rfl⟩

def unblocked (q : KThrQueue) (max : ℤ) (mode : KThrUnblockMode) (ref : ℕ) (k : Kernel) :
    List Tid :=
  picked max ((k.members q).filter (fun t => kThrQueueTestUnblock t mode ref k))

theorem unblocked_sublist : (unblocked q max mode ref k).Sublist (k.members q) := by
  unfold unblocked picked
  split
  · exact filter_sublist
  · exact (take_sublist _ _).trans filter_sublist

theorem unblockCommon_eq {k : Kernel} {q : KThrQueue} (h : Core k) (hn : ∀ o, q ≠ .waiters o) :
    kThrQueueUnblockCommon q max mode ref k =
        kThreadReschedule ((unblocked q max mode ref k).find? (fun t => decide (k.suspend t = 0)))
          (wake q mode ref (unblocked q max mode ref k) k) ∧
      Core (wake q mode ref (unblocked q max mode ref k) k) := by
  have hsub := unblocked_sublist q max mode ref k
  obtain ⟨h1,h2⟩ := foldl_unblockOne mode ref hn (unblocked q max mode ref k) h
    ((h.shape.queue_nodup q).sublist hsub)
    (fun u hu => (h.shape.queue_mem q u).mp (hsub.subset hu))
  refine ⟨?_,h2⟩
  rw [← h1, kThrQueueUnblockCommon, unblockLoop_eq q mode ref max _ (h.shape.queue_nodup q)]
  rfl

/-! Handing over a mutex. -/

structure Handed (o : Tid) (cs : List Tid) (k k' : Kernel) : Prop where
  state : k'.state = k.state
  suspend : k'.suspend = k.suspend
  prio : k'.prio = k.prio
  baseprio : k'.baseprio = k.baseprio
  token : k'.token = k.token
  rc : k'.rc = k.rc
  owner : k'.owner = k.owner
  first : k'.firstThread = k.firstThread
  ctx : SameCtx k k'
  waitQueue : ∀ u, k'.waitQueue u = if u ∈ cs then some (.waiters o) else k.waitQueue u

theorem moveWaiter_token (o c : Tid) (k : Kernel) : (moveWaiter t o c k).token = k.token := by
  simp only [moveWaiter, kThrQueueRemove]
  split <;> rfl

theorem removeWaiterLoop_some (token : ℕ) (l : List Tid) (o : Tid) (k : Kernel) :
    removeWaiterLoop t token l (some o) k =
      (some o, (l.filter (fun c => decide (k.token c = token))).foldl
        (fun k c => moveWaiter t o c k) k) := by
  induction l generalizing k with
  | nil => rfl
  | cons c l ih =>
    rw [removeWaiterLoop]
    by_cases hc : k.token c = token
    · simp only [ih, moveWaiter_token, filter_cons, hc, decide_true, if_true,
        foldl_cons]
    · simp only [ih, filter_cons, hc, decide_false, Bool.false_eq_true, if_false]

theorem takeOver_token (c : Tid) (k : Kernel) : (takeOver t c k).token = k.token := by
  simp only [takeOver, kThrQueueRemove]
  split <;> rfl

theorem removeWaiterLoop_uncontended {t : Tid} {k : Kernel}
    (hl : l.filter (fun c => decide (k.token c = token)) = []) :
    removeWaiterLoop t token l none k = (none, k) := by
  induction l with
  | nil => rfl
  | cons c l ih =>
    obtain ⟨hc,hl'⟩ : k.token c ≠ token ∧ ∀ d ∈ l, k.token d ≠ token := by simpa using hl
    rw [removeWaiterLoop, if_neg hc]
    exact ih (by simpa using hl')

theorem removeWaiterLoop_contended {t : Tid} {k : Kernel} {c : Tid}
    {cs : List Tid} (hl : l.filter (fun c => decide (k.token c = token)) = c::cs) :
    removeWaiterLoop t token l none k =
      (some c, cs.foldl (fun k d => moveWaiter t c d k) (takeOver t c k)) := by
  induction l with
  | nil => simp at hl
  | cons d l ih =>
    by_cases hd : k.token d = token
    · rw [filter_cons, if_pos (by simpa using hd)] at hl
      obtain ⟨rfl,rfl⟩ := List.cons.inj hl
      rw [removeWaiterLoop, if_pos hd]
      simp only [removeWaiterLoop_some, takeOver_token]
    · rw [filter_cons, if_neg (by simpa using hd)] at hl
      rw [removeWaiterLoop, if_neg hd]
      exact ih hl

theorem foldl_moveWaiter {E : Tid → Prop} {t o : Tid} (hot : o ≠ t) (het : E t) (heo : E o)
    (cs : List Tid) {k : Kernel} (hs : Shape k) (ho : Sorted k) (hp : PrioExcept E k)
    (hnd : cs.Nodup) (hcs : ∀ c ∈ cs, k.waitQueue c = some (.waiters t)) :
    Shape (cs.foldl (fun k c => moveWaiter t o c k) k) ∧
      Sorted (cs.foldl (fun k c => moveWaiter t o c k) k) ∧
      PrioExcept E (cs.foldl (fun k c => moveWaiter t o c k) k) ∧
      Handed o cs k (cs.foldl (fun k c => moveWaiter t o c k) k) := by
  induction cs generalizing k with
  | nil => exact ⟨hs,ho,hp,rfl,rfl,rfl,rfl,rfl,rfl,rfl,rfl,⟨rfl,rfl,rfl⟩,by simp⟩
  | cons c cs ih =>
    obtain ⟨hc,hcs'⟩ := nodup_cons.mp hnd
    have hq := hcs c (by simp)
    have hw : (moveWaiter t o c k).waitQueue =
        update k.waitQueue c (some (.waiters o)) := by rw [moveWaiter_eq hq hot]
    obtain ⟨h1,h2,h3,h4⟩ := ih (moveWaiter_shape hs hq hot) (moveWaiter_sorted ho hq hot)
      (moveWaiter_prio hp hq hot het heo) hcs' (by
        intro d hd
        rw [hw, update_of_ne (by rintro rfl; exact hc hd)]
        exact hcs d (by simp [hd]))
    refine ⟨h1,h2,h3,?_⟩
    have hm : Handed o [c] k (moveWaiter t o c k) := by
      rw [moveWaiter_eq hq hot]
      refine ⟨rfl,rfl,rfl,rfl,rfl,rfl,rfl,rfl,⟨rfl,rfl,rfl⟩,?_⟩
      intro u
      by_cases hu : u = c <;> simp [hu]
    refine ⟨h4.state.trans hm.state,h4.suspend.trans hm.suspend,h4.prio.trans hm.prio,
      h4.baseprio.trans hm.baseprio,h4.token.trans hm.token,h4.rc.trans hm.rc,
      h4.owner.trans hm.owner,h4.first.trans hm.first,hm.ctx.trans h4.ctx,?_⟩
    intro u
    rw [foldl_cons, h4.waitQueue, hm.waitQueue]
    by_cases hu : u = c <;> by_cases hu' : u ∈ cs <;> simp [hu']

theorem foldl_moveWaiter_fifo {t o : Tid} {m : ℕ} (hot : o ≠ t) (cs : List Tid)
    {k : Kernel} (hs : Shape k) (ho : Sorted k) (hf : Fifo since k) (hnd : cs.Nodup)
    (hcs : ∀ c ∈ cs, k.waitQueue c = some (.waiters t) ∧ k.token c = m)
    (hord : cs.Pairwise (fun a b => k.prio a < k.prio b ∨ since a ≤ since b))
    (hx : ∀ x ∈ k.members (.waiters o), k.token x = m → ∀ d ∈ cs,
      k.prio x < k.prio d ∨ since x ≤ since d) :
    Fifo since (cs.foldl (fun k c => moveWaiter t o c k) k) := by
  induction cs generalizing k with
  | nil => exact hf
  | cons c cs ih =>
    obtain ⟨hc,hnd'⟩ := nodup_cons.mp hnd
    obtain ⟨hcx,hord'⟩ := pairwise_cons.mp hord
    obtain ⟨hq,htok⟩ := hcs c (by simp)
    have hf' : Fifo since (moveWaiter t o c k) := by
      apply moveWaiter_fifo ho hq hot hf
      intro x hm hxc
      exact hx x hm (hxc.trans htok) c (by simp)
    have heq := moveWaiter_eq hq hot
    have hprio : (moveWaiter t o c k).prio = k.prio := by rw [heq]
    have htoken : (moveWaiter t o c k).token = k.token := by rw [heq]
    refine ih (k := moveWaiter t o c k) (moveWaiter_shape hs hq hot) (moveWaiter_sorted ho hq hot)
      hf' hnd' ?_ ?_ ?_
    · intro d hd
      have hdc : d ≠ c := by
        rintro rfl
        exact hc hd
      rw [heq]
      exact ⟨(update_of_ne hdc _ _).trans (hcs d (by simp [hd])).1,
        (hcs d (by simp [hd])).2⟩
    · rwa [hprio]
    · intro x hm hxm d hd
      rw [hprio]
      rw [htoken] at hxm
      rw [heq] at hm
      dsimp only at hm
      rw [update_self, mem_insertAfter] at hm
      rcases hm with rfl | hm
      · exact hcx d hd
      · exact hx x hm hxm d (by simp [hd])

theorem takeOver_leave {k : Kernel} {t c : Tid} (hq : k.waitQueue c = some (.waiters t)) :
    takeOver t c k = leave (.waiters t) c (k.token c) (awake k c) k := by
  simp only [takeOver, kThrQueueRemove, hq, if_true, setState, leave, awake,
    update_eq_self]

end Libogc.QueueLoop
