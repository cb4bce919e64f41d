import Libogc.Tuxedo.QueueLoop

/-!
# Taking and handing over a mutex

A release picks the waiters of one mutex out of the list of its owner, makes
the first of them the owner and gives it the others. While that happens the
owner pointer still names the old thread; no step in between reads it. A
blocked lock puts the caller into the list of the owner and passes its
priority on.
-/

set_option autoImplicit false

namespace Libogc.MutexStep
open Option Function PrefixInsert ThreadKernel ThreadInvariant PrioUpdate List
open QueueStep QueueLoop

def contenders (m : ℕ) (k : Kernel) : List Tid :=
  (k.members (.waiters k.self)).filter (fun c => decide (k.token c = m))

structure Released (m : ℕ) (k k' : Kernel) : Prop where
  core : Core k'
  ctx : SameCtx k k'
  suspend : k'.suspend = k.suspend
  baseprio : k'.baseprio = k.baseprio
  token : k'.token = k.token
  rc : k'.rc = k.rc
  owner : k'.owner = update k.owner m (contenders m k).head?
  state : ∀ u, k'.state u = if (contenders m k).head? = some u then awake k u else k.state u
  waitQueue : ∀ u, k'.waitQueue u = if u ∈ contenders m k then
    (if (contenders m k).head? = some u then none else (contenders m k).head?.map .waiters)
    else k.waitQueue u
  prio : ∀ u, u ≠ k.self → k'.prio u = k.prio u
  self_prio : k.prio k.self ≤ k'.prio k.self
  fifo : ∀ since, Fifo since k → Fifo since k'

variable {k : Kernel} {d : Tid} {m : ℕ}

theorem setOwner_core {o : Option Tid} (h : Core k)
    (hw : ∀ u t, k.waitQueue u = some (.waiters t) → k.token u ≠ m)
    (hl : ∀ t, o = some t → Live k t ∧ t ≠ idleThread) : Core (setOwner m o k) := by
  refine ⟨⟨h.shape.first_nodup,h.shape.first_live,h.shape.queue_nodup,h.shape.queue_mem,
    h.shape.queued,h.shape.running,h.shape.mutex,h.shape.base,h.shape.idle_running,
    h.shape.idle_base⟩,⟨?_,?_⟩,⟨h.sorted.first,h.sorted.queue⟩,h.prio⟩
  · intro u t hu
    change update k.owner m o (k.token u) = some t
    rw [update_of_ne (hw u t hu)]
    exact h.owned.waits u t hu
  · intro m' t hm
    change update k.owner m o m' = some t at hm
    by_cases he : m' = m
    · rw [he, update_self] at hm
      exact hl t hm
    · rw [update_of_ne he] at hm
      exact h.owned.live m' t hm

theorem mem_contenders (h : Core k) (ho : k.owner m = some k.self) (u : Tid) :
    u ∈ contenders m k ↔ (∃ t, k.waitQueue u = some (.waiters t)) ∧ k.token u = m := by
  simp only [contenders, mem_filter, decide_eq_true_eq, h.shape.queue_mem]
  constructor
  · rintro ⟨h1,h2⟩
    exact ⟨⟨_,h1⟩,h2⟩
  · rintro ⟨⟨t,h1⟩,h2⟩
    have hw := h.owned.waits u t h1
    rw [h2, ho] at hw
    cases hw
    exact ⟨h1,h2⟩

theorem released_uncontended (h : Core k) (ho : k.owner m = some k.self)
    (hc : contenders m k = []) : Released m k (setOwner m none k) := by
  have hcore : Core (setOwner m none k) := by
    apply setOwner_core h
    · intro u t hu hm
      have : u ∈ contenders m k := (mem_contenders h ho u).mpr ⟨⟨t,hu⟩,hm⟩
      simp [hc] at this
    · simp
  exact ⟨hcore,⟨rfl,rfl,rfl⟩,rfl,rfl,rfl,rfl,by simp [hc, setOwner],by simp [hc, setOwner],
    by simp [hc, setOwner],fun _ _ => rfl,le_refl _,fun _ hf => hf⟩

/-! The state in which the waiters have changed lists and the priorities have
not been refreshed yet. -/

def handover (t c : Tid) (cs : List Tid) (k : Kernel) : Kernel :=
  cs.foldl (fun k d => moveWaiter t c d k) (takeOver t c k)

def passOn (t c : Tid) (cs : List Tid) (k : Kernel) : Kernel :=
  refresh c (refresh t (handover t c cs k))

section Contended

variable {m : ℕ} {k : Kernel} {c : Tid} {cs : List Tid} (h : Core k)
  (hc : contenders m k = c::cs)

include h hc

theorem contender_waits (hd : d ∈ c::cs) :
    k.waitQueue d = some (.waiters k.self) ∧ k.token d = m := by
  rw [← hc] at hd
  simpa [contenders, h.shape.queue_mem] using hd

theorem contender_live : Live k c :=
  h.shape.queued_live (contender_waits h hc (by simp : c ∈ c::cs)).1

theorem contenders_nodup : (c::cs).Nodup := by
  rw [← hc]
  exact (h.shape.queue_nodup _).filter _

theorem contender_prio (hd : d ∈ cs) : k.prio c ≤ k.prio d := by
  have hs : ByPrio k (c::cs) := by
    rw [← hc]
    exact (h.sorted.queue _).sublist filter_sublist
  exact (pairwise_cons.mp hs).1 d hd

variable (hr : k.state k.self = .running)

include hr

theorem contender_ne_self (hd : d ∈ c::cs) : d ≠ k.self := by
  rintro rfl
  have hw := (contender_waits h hc hd).1
  rw [h.shape.not_queued hr] at hw
  simp at hw

theorem handover_spec : Shape (handover k.self c cs k) ∧ Sorted (handover k.self c cs k) ∧
      PrioExcept (fun u => u = k.self ∨ u = c) (handover k.self c cs k) ∧
      Handed c cs (leave (.waiters k.self) c (k.token c) (awake k c) k)
        (handover k.self c cs k) := by
  have hq := (contender_waits h hc (by simp : c ∈ c::cs)).1
  obtain ⟨hcs,hnd⟩ := nodup_cons.mp (contenders_nodup h hc)
  have hst : awake k c = .running ∨ awake k c = .waiting := (awake_cases k c).imp_left And.left
  have hp : PrioExcept _ (leave (.waiters k.self) c (k.token c) (awake k c) k) :=
    leave_prio (E := fun _ => False) h.shape hq hst (fun u hu _ => h.prio u hu)
  have hp' : PrioExcept (fun u => u = k.self ∨ u = c)
      (leave (.waiters k.self) c (k.token c) (awake k c) k) := by
    apply prioExcept_mono hp
    intro u hu
    left
    simpa [eq_comm] using hu
  unfold handover
  rw [takeOver_leave hq]
  apply foldl_moveWaiter (contender_ne_self h hc hr (by simp)) (Or.inl rfl) (Or.inr rfl) cs
    (leave_shape h.shape hq (awake_cases k c)) (leave_sorted h.sorted) hp' hnd
  intro d hd
  change update k.waitQueue c none d = _
  rw [update_of_ne (by rintro rfl; exact hcs hd)]
  exact (contender_waits h hc (by simp [hd])).1

theorem handover_waitQueue (u : Tid) : (handover k.self c cs k).waitQueue u =
    if u = c then none else if u ∈ cs then some (.waiters c) else k.waitQueue u := by
  obtain ⟨hcs,-⟩ := nodup_cons.mp (contenders_nodup h hc)
  rw [(handover_spec h hc hr).2.2.2.waitQueue]
  change (if u ∈ cs then _ else update k.waitQueue c none u) = _
  by_cases hu : u = c
  · subst hu
    simp [hcs]
  · simp [hu]

/-- The new owner keeps its priority: whoever now waits for it was behind it
in the list it comes from. -/
theorem new_owner_expected : expectedPrio (handover k.self c cs k) c = k.prio c := by
  obtain ⟨hs,hso,-,hh⟩ := handover_spec h hc hr
  have hcs := contender_ne_self h hc hr (by simp : c ∈ c::cs)
  have hlc : Live k c := h.shape.queued_live (contender_waits h hc (by simp : c ∈ c::cs)).1
  have hpc : k.prio c = expectedPrio k c := h.prio c hlc
  have hprio : (handover k.self c cs k).prio = k.prio := hh.prio
  have hbase : (handover k.self c cs k).baseprio = k.baseprio := hh.baseprio
  have hmem : ∀ w, w ∈ (handover k.self c cs k).members (.waiters c) ↔
      w ∈ cs ∨ (w ≠ c ∧ w ∉ cs ∧ w ∈ k.members (.waiters c)) := by
    intro w
    obtain ⟨hccs,-⟩ := nodup_cons.mp (contenders_nodup h hc)
    rw [hs.queue_mem, handover_waitQueue h hc hr, h.shape.queue_mem]
    by_cases hw : w = c
    · subst hw
      simp [hccs]
    · by_cases hw' : w ∈ cs <;> simp [hw, hw']
  apply le_antisymm
  · rcases expectedPrio_attained k c with he | ⟨w,hw,he⟩
    · rw [hpc, he, ← hbase]
      exact expectedPrio_le_base _ c
    · have hwc : w ≠ c := by
        rintro rfl
        have h1 := (h.shape.queue_mem _ w).mp hw
        rw [(contender_waits h hc (by simp : w ∈ w::cs)).1] at h1
        exact hcs (by simpa using h1.symm)
      have hwcs : w ∉ cs := by
        intro hcs'
        have h1 := (h.shape.queue_mem _ w).mp hw
        rw [(contender_waits h hc (by simp [hcs'] : w ∈ c::cs)).1] at h1
        exact hcs (by simpa using h1.symm)
      rw [hpc, he, ← hprio]
      exact expectedPrio_le_waiter _ c w (hso.queue _) ((hmem w).mpr (Or.inr ⟨hwc,hwcs,hw⟩))
  · apply expectedPrio_ge
    · rw [hbase, hpc]
      exact expectedPrio_le_base k c
    · intro w hw
      rw [hprio]
      rcases (hmem w).mp hw with hw | ⟨-,-,hw⟩
      · exact contender_prio h hc hw
      · exact prio_le_waiter h.sorted hpc hw

theorem old_owner_expected : k.prio k.self ≤ expectedPrio (handover k.self c cs k) k.self := by
  obtain ⟨hs,-,-,hh⟩ := handover_spec h hc hr
  have hps : k.prio k.self = expectedPrio k k.self := h.prio _ (running_live hr)
  have hprio : (handover k.self c cs k).prio = k.prio := hh.prio
  have hbase : (handover k.self c cs k).baseprio = k.baseprio := hh.baseprio
  apply expectedPrio_ge
  · rw [hbase, hps]
    exact expectedPrio_le_base k _
  · intro w hw
    rw [hprio]
    apply prio_le_waiter h.sorted hps
    rw [hs.queue_mem, handover_waitQueue h hc hr] at hw
    rw [h.shape.queue_mem]
    by_cases hwc : w = c
    · simp [hwc] at hw
    · by_cases hwcs : w ∈ cs
      · simp only [hwc, hwcs, if_true, if_false, some.injEq, KThrQueue.waiters.injEq] at hw
        exact absurd hw (contender_ne_self h hc hr (by simp))
      · simpa [hwc, hwcs] using hw

theorem handover_live (u : Tid) : Live (handover k.self c cs k) u ↔ Live k u := by
  obtain ⟨hs,-,-,hh⟩ := handover_spec h hc hr
  rw [← hs.first_live, hh.first]
  exact h.shape.first_live u

theorem handover_self : (handover k.self c cs k).waitQueue k.self = none := by
  have hself : k.self ∉ cs := fun hm => contender_ne_self h hc hr (by simp [hm]) rfl
  rw [handover_waitQueue h hc hr, if_neg (contender_ne_self h hc hr (by simp)).symm, if_neg hself]
  exact h.shape.not_queued hr

theorem refreshed_reorder :
    Reorder (handover k.self c cs k) (refresh k.self (handover k.self c cs k)) :=
  refresh_reorder _ _ (handover_spec h hc hr).1
    ((handover_live h hc hr _).mpr (running_live hr))

theorem refreshed_new : (refresh k.self (handover k.self c cs k)).waitQueue c = none := by
  rw [(refreshed_reorder h hc hr).waitQueue, handover_waitQueue h hc hr, if_pos rfl]

theorem passOn_reorder : Reorder (handover k.self c cs k) (passOn k.self c cs k) := by
  have h1 := refreshed_reorder h hc hr
  refine h1.trans (refresh_reorder _ _ (h1.shape (handover_spec h hc hr).1) ?_)
  rw [h1.live, handover_live h hc hr]
  exact contender_live h hc

theorem removeWaiter_contended :
    kThreadRemoveWaiter k.self m k = some (some c,passOn k.self c cs k) := by
  unfold kThreadRemoveWaiter
  rw [removeWaiterLoop_contended hc]
  dsimp only
  rw [show cs.foldl _ _ = handover k.self c cs k from rfl,
    update_unqueued _ _ (handover_self h hc hr), bind_some,
    update_unqueued _ _ (refreshed_new h hc hr)]
  rfl

theorem passOn_waitQueue (u : Tid) : (passOn k.self c cs k).waitQueue u =
    if u = c then none else if u ∈ cs then some (.waiters c) else k.waitQueue u := by
  rw [(passOn_reorder h hc hr).waitQueue, handover_waitQueue h hc hr]

theorem passOn_token : (passOn k.self c cs k).token = k.token := by
  rw [(passOn_reorder h hc hr).token, (handover_spec h hc hr).2.2.2.token]
  exact update_eq_self _ _

theorem passOn_owner : (passOn k.self c cs k).owner = k.owner :=
  (passOn_reorder h hc hr).owner.trans (handover_spec h hc hr).2.2.2.owner

theorem passOn_live (u : Tid) : Live (passOn k.self c cs k) u ↔ Live k u :=
  ((passOn_reorder h hc hr).live u).trans (handover_live h hc hr u)

theorem refreshed_expected :
    expectedPrio (refresh k.self (handover k.self c cs k)) c = k.prio c := by
  have hnotin : k.self ∉ (handover k.self c cs k).members (.waiters c) := by
    rw [(handover_spec h hc hr).1.queue_mem, handover_self h hc hr]
    simp
  rw [← new_owner_expected h hc hr]
  apply expectedPrio_congr
  · rw [(refreshed_reorder h hc hr).baseprio]
  · rw [refresh_members _ _ (handover_self h hc hr)]
  · intro w hw
    rw [refresh_prio, update_of_ne (by rintro rfl; exact hnotin hw)]

theorem passOn_prio (u : Tid) (hu : u ≠ k.self) : (passOn k.self c cs k).prio u = k.prio u := by
  rw [passOn, refresh_prio]
  by_cases huc : u = c
  · rw [huc, update_self, refreshed_expected h hc hr]
  · rw [update_of_ne huc, refresh_prio, update_of_ne hu,
      (handover_spec h hc hr).2.2.2.prio]
    rfl

theorem passOn_prio_self : k.prio k.self ≤ (passOn k.self c cs k).prio k.self := by
  rw [passOn, refresh_prio, update_of_ne (contender_ne_self h hc hr (by simp)).symm,
    refresh_prio, update_self]
  exact old_owner_expected h hc hr

theorem passOn_prioAt (u : Tid) (hu : Live (passOn k.self c cs k) u) :
    PrioAt (passOn k.self c cs k) u := by
  obtain ⟨hs,-,hpe,-⟩ := handover_spec h hc hr
  apply refresh_prioAt c _ ((refreshed_reorder h hc hr).shape hs) (refreshed_new h hc hr)
  intro huc
  apply refresh_prioAt k.self _ hs (handover_self h hc hr)
  intro hus
  exact hpe u (((passOn_reorder h hc hr).live u).mp hu) (by simp [huc, hus])

theorem passOn_sorted : Sorted (passOn k.self c cs k) := by
  obtain ⟨hs,hso,-,-⟩ := handover_spec h hc hr
  exact refresh_sorted c _ ((refreshed_reorder h hc hr).shape hs) (refresh_sorted k.self _ hs hso)

section

variable (ho : k.owner m = some k.self)
include ho

theorem passOn_owned : Owned (setOwner m (some c) (passOn k.self c cs k)) where
  waits u t hu := by
    change (passOn k.self c cs k).waitQueue u = _ at hu
    change update (passOn k.self c cs k).owner m (some c)
      ((passOn k.self c cs k).token u) = some t
    rw [passOn_token h hc hr, passOn_owner h hc hr]
    rw [passOn_waitQueue h hc hr] at hu
    by_cases huc : u = c
    · simp [huc] at hu
    · by_cases hucs : u ∈ cs
      · obtain rfl : c = t := by simpa [huc, hucs] using hu
        rw [(contender_waits h hc (by simp [hucs] : u ∈ c::cs)).2, update_self]
      · rw [if_neg huc, if_neg hucs] at hu
        have hum : k.token u ≠ m := by
          intro hm
          have hin := (mem_contenders h ho u).mpr ⟨⟨t,hu⟩,hm⟩
          simp [hc, huc, hucs] at hin
        rw [update_of_ne hum]
        exact h.owned.waits u t hu
  live m' t hm := by
    change update (passOn k.self c cs k).owner m (some c) m' = some t at hm
    change Live (passOn k.self c cs k) t ∧ _
    rw [passOn_live h hc hr]
    by_cases he : m' = m
    · rw [he, update_self] at hm
      cases hm
      refine ⟨contender_live h hc,?_⟩
      rintro rfl
      have hw := (contender_waits h hc (by simp : idleThread ∈ idleThread::cs)).1
      rw [h.shape.not_queued h.shape.idle_running] at hw
      simp at hw
    · rw [update_of_ne he, passOn_owner h hc hr] at hm
      exact h.owned.live m' t hm

/-- The waiters of the mutex are new in the list of the new owner, which did
not own the mutex before. -/
theorem handover_fifo {since : Tid → ℕ} (hf : Fifo since k) :
    Fifo since (handover k.self c cs k) := by
  have hq := (contender_waits h hc (by simp : c ∈ c::cs)).1
  have hcs := contender_ne_self h hc hr (by simp : c ∈ c::cs)
  obtain ⟨hccs,hnd⟩ := nodup_cons.mp (contenders_nodup h hc)
  have hord : (contenders m k).Pairwise (fun a b => k.prio a < k.prio b ∨ since a ≤ since b) := by
    refine Pairwise.imp_of_mem ?_ ((hf _).sublist filter_sublist)
    intro a b ha hb hab
    apply hab
    rw [hc] at ha hb
    rw [(contender_waits h hc ha).2, (contender_waits h hc hb).2]
  rw [hc] at hord
  unfold handover
  rw [takeOver_leave hq]
  apply foldl_moveWaiter_fifo hcs cs (leave_shape h.shape hq (awake_cases k c))
    (leave_sorted h.sorted) (leave_fifo h.shape hq hf) hnd _ (pairwise_cons.mp hord).2
  · intro x hx hxm
    exfalso
    change x ∈ update k.members _ _ (.waiters c) at hx
    change update k.token c (k.token c) x = m at hxm
    rw [update_of_ne (by simpa using hcs)] at hx
    rw [update_eq_self] at hxm
    have hw := h.owned.waiter_owner h.shape hx
    rw [hxm, ho] at hw
    exact hcs (some.inj hw).symm
  · intro d hd
    have hdc : d ≠ c := by
      rintro rfl
      exact hccs hd
    obtain ⟨hw,ht⟩ := contender_waits h hc (by simp [hd] : d ∈ c::cs)
    exact ⟨(update_of_ne hdc _ _).trans hw,(update_of_ne hdc _ _).trans ht⟩

theorem passOn_fifo {since : Tid → ℕ} (hf : Fifo since k) : Fifo since (passOn k.self c cs k) := by
  have hmem : (passOn k.self c cs k).members = (handover k.self c cs k).members := by
    rw [passOn, refresh_members _ _ (refreshed_new h hc hr),
      refresh_members _ _ (handover_self h hc hr)]
  apply (handover_fifo h hc hr ho hf).congr
  · intro q
    rw [hmem]
  · intro q u hu
    rw [hmem, (handover_spec h hc hr).1.queue_mem] at hu
    have hus : u ≠ k.self := by
      rintro rfl
      simp [handover_self h hc hr] at hu
    refine ⟨congrFun (passOn_reorder h hc hr).token u,?_,rfl⟩
    rw [passOn_prio h hc hr u hus, (handover_spec h hc hr).2.2.2.prio]
    rfl

theorem released_contended : Released m k (setOwner m (some c) (passOn k.self c cs k)) := by
  have hr₁ := passOn_reorder h hc hr
  have hh := (handover_spec h hc hr).2.2.2
  have hx : SameCtx (handover k.self c cs k) (passOn k.self c cs k) :=
    (refresh_ctx _ _).trans (refresh_ctx _ _)
  have hsh := hr₁.shape (handover_spec h hc hr).1
  have hso := passOn_sorted h hc hr
  refine ⟨⟨⟨hsh.first_nodup,hsh.first_live,hsh.queue_nodup,hsh.queue_mem,hsh.queued,hsh.running,
    hsh.mutex,hsh.base,hsh.idle_running,hsh.idle_base⟩,passOn_owned h hc hr ho,
    ⟨hso.first,hso.queue⟩,passOn_prioAt h hc hr⟩,?_,hr₁.suspend.trans hh.suspend,
    hr₁.baseprio.trans hh.baseprio,passOn_token h hc hr,hr₁.rc.trans hh.rc,?_,?_,?_,
    passOn_prio h hc hr,passOn_prio_self h hc hr,fun _ => passOn_fifo h hc hr ho⟩
  · exact ⟨hx.self.trans hh.ctx.self,hx.nextCtx.trans hh.ctx.nextCtx,
      hx.inExcpt.trans hh.ctx.inExcpt⟩
  · change update (passOn k.self c cs k).owner m (some c) = _
    rw [passOn_owner h hc hr, hc]
    rfl
  · intro u
    change (passOn k.self c cs k).state u = _
    rw [hr₁.state, hh.state, hc]
    change update k.state c (awake k c) u = _
    by_cases huc : u = c
    · simp [huc]
    · simp [huc, Ne.symm huc]
  · intro u
    change (passOn k.self c cs k).waitQueue u = _
    rw [passOn_waitQueue h hc hr, hc]
    by_cases huc : u = c
    · simp [huc]
    · simp [huc, Ne.symm huc]

end

end Contended

theorem release_spec (h : Core k) (hr : k.state k.self = .running) (ho : k.owner m = some k.self) :
    ∃ k', releaseMutex m k = some k' ∧ Released m k k' := by
  unfold releaseMutex
  rw [if_pos ho]
  cases hc : contenders m k with
  | nil =>
    refine ⟨setOwner m none k,?_,released_uncontended h ho hc⟩
    rw [kThreadRemoveWaiter, removeWaiterLoop_uncontended hc]
    rfl
  | cons c cs =>
    refine ⟨_,?_,released_contended h hc hr ho⟩
    rw [removeWaiter_contended h hc hr]
    rfl

/-! Locking. -/

theorem lock_free (h : Core k) (hr : k.state k.self = .running) (hi : k.self ≠ idleThread)
    (ho : k.owner m = none) : Core (setOwner m (some k.self) k) := by
  apply setOwner_core h
  · intro u t hu hm
    have hw := h.owned.waits u t hu
    rw [hm, ho] at hw
    simp at hw
  · intro t ht
    cases ht
    exact ⟨running_live hr,hi⟩

def blockOn (o : Tid) (m : ℕ) (k : Kernel) : Kernel :=
  enterQueue (.waiters o) .waitingMutex m k.self k

theorem blockOn_prioAt (o : Tid) (m : ℕ) (h : Core k) (hl : Live k o)
    (hp : k.prio o ≤ k.prio k.self) : PrioAt (blockOn o m k) o := by
  have hpo : k.prio o = expectedPrio k o := h.prio o hl
  have hso : Sorted (blockOn o m k) := enterQueue_sorted h.sorted
  have hmem : ∀ w, w ∈ (blockOn o m k).members (.waiters o) ↔
      w = k.self ∨ w ∈ k.members (.waiters o) := by
    intro w
    change w ∈ update k.members (.waiters o) _ _ ↔ _
    rw [update_self]
    exact mem_insertAfter _ _ _ _
  change k.prio o = expectedPrio (blockOn o m k) o
  apply le_antisymm
  · apply expectedPrio_ge
    · rw [hpo]
      exact expectedPrio_le_base k o
    · intro w hw
      rcases (hmem w).mp hw with rfl | hw
      · exact hp
      · exact prio_le_waiter h.sorted hpo hw
  · rw [hpo]
    rcases expectedPrio_attained k o with he | ⟨w,hw,he⟩
    · rw [he]
      exact expectedPrio_le_base (blockOn o m k) o
    · rw [he]
      exact expectedPrio_le_waiter (blockOn o m k) o w (hso.queue _) ((hmem w).mpr (Or.inr hw))

theorem blockOn_spec {o : Tid} (h : Core k) (hr : k.state k.self = .running)
    (hi : k.self ≠ idleThread) (ho : k.owner m = some o) :
    Shape (blockOn o m k) ∧ Owned (blockOn o m k) ∧ Sorted (blockOn o m k) ∧
      PrioExcept (· = o) (blockOn o m k) ∧ Live (blockOn o m k) o := by
  have hst : KThrState.waitingMutex = .waiting ∨ KThrState.waitingMutex = .waitingMutex :=
    Or.inr rfl
  refine ⟨enterQueue_shape h.shape hr hi hst ⟨fun _ => ⟨o,rfl⟩,fun _ => rfl⟩,?_,
    enterQueue_sorted h.sorted,?_,(enterQueue_live hr hst o).mpr (h.owned.live m o ho).1⟩
  · apply enterQueue_owned h.owned hr hst
    intro o' ho'
    obtain rfl : o = o' := by simpa using ho'
    exact ho
  · apply prioExcept_mono (enterQueue_prio hr hst h.prio)
    intro u hu
    simpa [eq_comm] using hu

theorem lock_blocked {o : Tid} (h : Core k) (hr : k.state k.self = .running)
    (hi : k.self ≠ idleThread) (ho : k.owner m = some o) :
    ∃ k', Settled (blockOn o m k) k' ∧ Core k' ∧
      kMutexLock m k = if k.prio k.self < k.prio o ∧ k'.state o = .running
        then some (kThreadSwitchTo o k') else switchToRunnable k' := by
  obtain ⟨hs,hw,hso,hpe,hlo⟩ := blockOn_spec h hr hi ho
  have hcore : ∀ k', Settled (blockOn o m k) k' → Core k' := fun k' hk' =>
    ⟨hk'.reorder.shape hs,hk'.reorder.owned hw,hk'.sorted,hk'.prio⟩
  have hlock : kMutexLock m k = if k.prio k.self < k.prio o then
      (kThreadUpdateDynamicPrio o (blockOn o m k)).bind (fun k =>
        if k.state o = .running then some (kThreadSwitchTo o k) else switchToRunnable k)
      else switchToRunnable (blockOn o m k) := by
    rw [kMutexLock, ho]
    rfl
  by_cases hp : k.prio k.self < k.prio o
  · obtain ⟨k',hk',hset⟩ := update_settles o (blockOn o m k) hs hw hso hpe hlo
    refine ⟨k',hset,hcore k' hset,?_⟩
    rw [hlock, hk']
    simp [hp]
  · have hset : Settled (blockOn o m k) (blockOn o m k) :=
      Settled.of_prioAt hso o hpe
        (blockOn_prioAt o m h (h.owned.live m o ho).1 (by omega))
    refine ⟨_,hset,hcore _ hset,?_⟩
    rw [hlock, if_neg hp, if_neg (fun hc => hp hc.1)]

end Libogc.MutexStep
