import Libogc.Tuxedo.PrioUpdate

/-!
# Single moves of threads

Every kernel call is made of a few moves: a running thread enters a queue, a
queued thread leaves its queue, a waiter changes owners, an unqueued thread
starts or stops running, a thread is created or ends. Each move keeps the
shape and the order of the state. The inheritance equation can fail only at
the threads whose list of waiters the move has changed.
-/

set_option autoImplicit false

namespace Libogc.QueueStep
open Function PrefixInsert ThreadKernel ThreadInvariant PrioUpdate List

variable {k : Kernel} {t : Tid} {E F : Tid → Prop} {k' : Kernel} {since : Tid → ℕ}

theorem prioExcept_mono (h : PrioExcept E k) (hef : ∀ u, E u → F u) : PrioExcept F k :=
  fun u hu hf => h u hu (fun he => hf (hef u he))

theorem prioExcept_congr (h : PrioExcept E k)
    (hl : ∀ u, Live k' u → Live k u) (hp : k'.prio = k.prio)
    (hb : ∀ u, ¬F u → k'.baseprio u = k.baseprio u)
    (hm : ∀ u, ¬F u → k'.members (.waiters u) = k.members (.waiters u)) (hef : ∀ u, E u → F u) :
    PrioExcept F k' := by
  intro u hu hf
  have hk : k.prio u = expectedPrio k u := h u (hl u hu) (fun he => hf (hef u he))
  unfold PrioAt
  rw [expectedPrio_congr k k' u (hb u hf) (hm u hf) (fun w _ => by rw [hp]), hp]
  exact hk

/-! A move changes one thread. -/

theorem live_update {st : KThrState} (hk : k'.state = update k.state t st)
    (hl : Live k t) (hst : st ≠ .uninit ∧ st ≠ .finished) (u : Tid) : Live k' u ↔ Live k u := by
  unfold Live
  rw [hk]
  by_cases hu : u = t
  · subst hu
    rw [update_self]
    exact iff_of_true hst hl
  · rw [update_of_ne hu]

theorem shape_moved {st : KThrState} {w : Option KThrQueue} (hs : Shape k)
    (hi : t ≠ idleThread) (hout : ∀ u, u ≠ t → k'.state u = k.state u ∧
      k'.waitQueue u = k.waitQueue u ∧ k'.suspend u = k.suspend u ∧ k'.baseprio u = k.baseprio u)
    (hst : k'.state t = st) (hw : k'.waitQueue t = w)
    (hfirst : k'.firstThread.Nodup ∧ ∀ u, u ∈ k'.firstThread ↔ Live k' u)
    (hnodup : ∀ q, (k'.members q).Nodup) (hmem : ∀ q u, u ∈ k'.members q ↔ k'.waitQueue u = some q)
    (hqueued : w ≠ none → st = .waiting ∨ st = .waitingMutex)
    (hrun : st = .running → k'.suspend t = 0)
    (hmutex : st = .waitingMutex ↔ ∃ o, w = some (.waiters o)) (hbase : k'.baseprio t ≤ minPrio) :
    Shape k' := by
  subst hst hw
  obtain ⟨histate,-,-,hibase⟩ := hout idleThread (Ne.symm hi)
  refine ⟨hfirst.1,hfirst.2,hnodup,hmem,fun u q huq => ?_,fun u hur => ?_,fun u => ?_,
    fun u hu hui => ?_,histate.trans hs.idle_running,hibase.trans hs.idle_base⟩
  · by_cases hut : u = t
    · subst hut
      exact hqueued (by simp [huq])
    · rw [(hout u hut).2.1] at huq
      rw [(hout u hut).1]
      exact hs.queued u q huq
  · by_cases hut : u = t
    · subst hut
      exact hrun hur
    · rw [(hout u hut).1] at hur
      rw [(hout u hut).2.2.1]
      exact hs.running u hur
  · by_cases hut : u = t
    · subst hut
      exact hmutex
    · rw [(hout u hut).1, (hout u hut).2.1]
      exact hs.mutex u
  · by_cases hut : u = t
    · subst hut
      exact hbase
    · unfold Live at hu
      rw [(hout u hut).1] at hu
      rw [(hout u hut).2.2.2]
      exact hs.base u hu hui

/-! A running thread enters a queue. -/

section Enter

variable {k : Kernel} {q : KThrQueue} {st : KThrState} {tok : ℕ} {t : Tid}

theorem enterQueue_live (hr : k.state t = .running) (hst : st = .waiting ∨ st = .waitingMutex)
    (u : Tid) : Live (enterQueue q st tok t k) u ↔ Live k u :=
  live_update rfl (running_live hr) (by rcases hst with rfl | rfl <;> decide) u

theorem enterQueue_shape (hs : Shape k) (hr : k.state t = .running) (hi : t ≠ idleThread)
    (hst : st = .waiting ∨ st = .waitingMutex)
    (hm : st = .waitingMutex ↔ ∃ o, q = .waiters o) : Shape (enterQueue q st tok t k) := by
  have hw := hs.not_queued hr
  have hnr : st ≠ .running := by rcases hst with rfl | rfl <;> decide
  refine shape_moved hs hi (fun u hu => ⟨update_of_ne hu _ _,update_of_ne hu _ _,rfl,rfl⟩)
    (update_self ..) (update_self ..)
    ⟨hs.first_nodup,fun u => (hs.first_live u).trans (enterQueue_live hr hst u).symm⟩ ?_ ?_
    (fun _ => hst) (fun h => absurd h hnr) (by simpa using hm) (hs.base t (running_live hr) hi)
  · intro r
    change (update k.members q _ r).Nodup
    by_cases hrq : r = q
    · subst hrq
      rw [update_self]
      apply insertAfter_nodup _ _ _ _ (hs.queue_nodup r)
      rw [hs.queue_mem, hw]
      simp
    · rw [update_of_ne hrq]
      exact hs.queue_nodup r
  · intro r u
    change u ∈ update k.members q _ r ↔ update k.waitQueue t _ u = _
    by_cases hrq : r = q <;> by_cases hu : u = t
    · simp [hrq, hu]
    · simp [hrq, hu, hs.queue_mem, setToken, setState]
    · subst hu
      simp [hrq, Ne.symm hrq, hs.queue_mem, hw]
    · simp [hrq, hu, hs.queue_mem]

theorem enterQueue_sorted (ho : Sorted k) : Sorted (enterQueue q st tok t k) := by
  refine ⟨ho.first,?_⟩
  intro r
  change ByPrio k (update k.members q _ r)
  by_cases hrq : r = q
  · subst hrq
    rw [update_self]
    exact (ho.queue r).insert t
  · rw [update_of_ne hrq]
    exact ho.queue r

theorem enterQueue_fifo {now : ℕ} (hs : Shape k) (ho : Sorted k)
    (hr : k.state t = .running) (hf : Fifo since k) (hn : ∀ u, since u ≤ now) :
    Fifo (update since t now) (enterQueue q st tok t k) := by
  have hne : ∀ r, ∀ u ∈ k.members r, u ≠ t := by
    rintro r u hu rfl
    have := (hs.queue_mem r u).mp hu
    simp [hs.not_queued hr] at this
  have hold : ∀ r, (k.members r).Pairwise (fun a b =>
      (enterQueue q st tok t k).token a = (enterQueue q st tok t k).token b →
        k.prio a < k.prio b ∨ update since t now a ≤ update since t now b) := by
    intro r
    refine Pairwise.imp_of_mem ?_ (hf r)
    intro a b ha hb hab
    change update k.token t tok a = update k.token t tok b → _
    rwa [update_of_ne (hne r a ha), update_of_ne (hne r b hb),
      update_of_ne (hne r a ha), update_of_ne (hne r b hb)]
  intro r
  change (update k.members q _ r).Pairwise _
  by_cases hrq : r = q
  · rw [hrq, update_self]
    apply fifo_insert (k := enterQueue q st tok t k) (ho.queue q) (hold q)
    intro u hu _
    rw [update_of_ne (hne q u hu), update_self]
    exact Or.inr (hn u)
  · rw [update_of_ne hrq]
    exact hold r

theorem enterQueue_prio (hr : k.state t = .running) (hst : st = .waiting ∨ st = .waitingMutex)
    (hp : ∀ u, Live k u → PrioAt k u) :
    PrioExcept (fun u => q = .waiters u) (enterQueue q st tok t k) := by
  apply prioExcept_congr (E := fun _ => False) (fun u hu _ => hp u hu)
    (fun u hu => (enterQueue_live hr hst u).mp hu) rfl (fun _ _ => rfl) _ (fun _ h => h.elim)
  intro u hu
  exact update_of_ne (Ne.symm hu) _ _

theorem enterQueue_owned (ho : Owned k) (hr : k.state t = .running)
    (hst : st = .waiting ∨ st = .waitingMutex)
    (hq : ∀ o, q = .waiters o → k.owner tok = some o) : Owned (enterQueue q st tok t k) := by
  constructor
  · intro u o huo
    change update k.waitQueue t _ u = _ at huo
    change k.owner (update k.token t tok u) = some o
    by_cases hu : u = t
    · subst hu
      rw [update_self] at huo ⊢
      exact hq o (Option.some.inj huo)
    · rw [update_of_ne hu] at huo ⊢
      exact ho.waits u o huo
  · intro m o hm
    rw [enterQueue_live hr hst]
    exact ho.live m o hm

end Enter

/-! A queued thread leaves its queue. -/

def leave (q : KThrQueue) (t : Tid) (tok : ℕ) (st : KThrState) (k : Kernel) : Kernel :=
  { k with
    members := update k.members q ((k.members q).erase t)
    waitQueue := update k.waitQueue t none
    token := update k.token t tok
    state := update k.state t st }

section Leave

variable {k : Kernel} {q : KThrQueue} {st : KThrState} {tok : ℕ} {t : Tid}

theorem leave_live (hs : Shape k) (hq : k.waitQueue t = some q)
    (hst : st = .running ∨ st = .waiting) (u : Tid) : Live (leave q t tok st k) u ↔ Live k u :=
  live_update rfl (hs.queued_live hq) (by rcases hst with rfl | rfl <;> decide) u

theorem leave_sublist (r : KThrQueue) : ((leave q t tok st k).members r).Sublist (k.members r) := by
  change (update k.members q _ r).Sublist _
  by_cases hr : r = q
  · rw [hr, update_self]
    exact erase_sublist
  · rw [update_of_ne hr]

theorem leave_shape (hs : Shape k) (hq : k.waitQueue t = some q)
    (hst : st = .running ∧ k.suspend t = 0 ∨ st = .waiting) : Shape (leave q t tok st k) := by
  have hst' : st = .running ∨ st = .waiting := hst.imp_left And.left
  have hnm : st ≠ .waitingMutex := by rcases hst' with rfl | rfl <;> decide
  have hi : t ≠ idleThread := by
    rintro rfl
    rw [hs.not_queued hs.idle_running] at hq
    simp at hq
  refine shape_moved hs hi (fun u hu => ⟨update_of_ne hu _ _,update_of_ne hu _ _,rfl,rfl⟩)
    (update_self ..) (update_self ..)
    ⟨hs.first_nodup,fun u => (hs.first_live u).trans (leave_live hs hq hst' u).symm⟩
    (fun r => (hs.queue_nodup r).sublist (leave_sublist r)) ?_ (fun h => absurd rfl h) ?_
    (by simpa using hnm) (hs.base t (hs.queued_live hq) hi)
  · intro r u
    change u ∈ update k.members q _ r ↔ update k.waitQueue t _ u = _
    by_cases hrq : r = q <;> by_cases hu : u = t
    · simp [hrq, hu, (hs.queue_nodup q).mem_erase_iff]
    · simp [hrq, hu, hs.queue_mem]
    · subst hu
      simp [hrq, Ne.symm hrq, hs.queue_mem, hq]
    · simp [hrq, hu, hs.queue_mem]
  · rintro rfl
    exact (hst.resolve_right nofun).2

theorem leave_sorted (ho : Sorted k) : Sorted (leave q t tok st k) :=
  ⟨ho.first,fun r => (ho.queue r).sublist (leave_sublist r)⟩

theorem leave_fifo (hs : Shape k) (hq : k.waitQueue t = some q)
    (hf : Fifo since k) : Fifo since (leave q t tok st k) := by
  apply hf.congr leave_sublist
  intro r u hu
  have hut : u ≠ t := by
    rintro rfl
    change u ∈ update k.members q _ r at hu
    by_cases hr : r = q
    · rw [hr, update_self] at hu
      exact ((hs.queue_nodup q).mem_erase_iff.mp hu).1 rfl
    · rw [update_of_ne hr] at hu
      exact hr (hs.queue_unique hu ((hs.queue_mem q u).mpr hq))
  exact ⟨update_of_ne hut _ _,rfl,rfl⟩

theorem leave_prio (hs : Shape k) (hq : k.waitQueue t = some q)
    (hst : st = .running ∨ st = .waiting) (hp : PrioExcept E k) :
    PrioExcept (fun u => E u ∨ q = .waiters u) (leave q t tok st k) := by
  apply prioExcept_congr hp (fun u hu => (leave_live hs hq hst u).mp hu) rfl (fun _ _ => rfl) _
    (fun _ h => Or.inl h)
  intro u hu
  exact update_of_ne (fun h => hu (Or.inr h.symm)) _ _

theorem leave_owned (hs : Shape k) (ho : Owned k) (hq : k.waitQueue t = some q)
    (hst : st = .running ∨ st = .waiting) : Owned (leave q t tok st k) := by
  constructor
  · intro u o huo
    change update k.waitQueue t _ u = _ at huo
    change k.owner (update k.token t tok u) = some o
    by_cases hu : u = t
    · simp [hu] at huo
    · rw [update_of_ne hu] at huo ⊢
      exact ho.waits u o huo
  · intro m o hm
    rw [leave_live hs hq hst]
    exact ho.live m o hm

theorem leave_core (h : Core k) (hq : k.waitQueue t = some q) (hn : ∀ o, q ≠ .waiters o)
    (hst : st = .running ∧ k.suspend t = 0 ∨ st = .waiting) : Core (leave q t tok st k) := by
  have hst' : st = .running ∨ st = .waiting := hst.imp_left And.left
  refine ⟨leave_shape h.shape hq hst,leave_owned h.shape h.owned hq hst',leave_sorted h.sorted,?_⟩
  intro u hu
  have hp : PrioExcept _ (leave q t tok st k) :=
    leave_prio (E := fun _ => False) h.shape hq hst' (fun u hu _ => h.prio u hu)
  exact hp u hu (by simp [hn])

end Leave

/-! A waiter goes from the list of one owner to that of another. -/

section Move

variable {k : Kernel} {t o c : Tid}

theorem moveWaiter_eq (hq : k.waitQueue c = some (.waiters t)) (hot : o ≠ t) :
    moveWaiter t o c k = { k with
      members := update
        (update k.members (.waiters t) ((k.members (.waiters t)).erase c)) (.waiters o)
        (insertAfter (fun u => decide (k.prio u ≤ k.prio c)) c (k.members (.waiters o)))
      waitQueue := update k.waitQueue c (some (.waiters o)) } := by
  have hne : KThrQueue.waiters o ≠ .waiters t := by simpa using hot
  simp only [moveWaiter, kThrQueueRemove, hq, if_true, kThrQueueInsert, update_idem,
    update_of_ne hne]

theorem moveWaiter_shape (hs : Shape k) (hq : k.waitQueue c = some (.waiters t)) (hot : o ≠ t) :
    Shape (moveWaiter t o c k) := by
  have hne : KThrQueue.waiters o ≠ .waiters t := by simpa using hot
  have hco : c ∉ k.members (.waiters o) := by
    rw [hs.queue_mem, hq]
    simpa using Ne.symm hot
  rw [moveWaiter_eq hq hot]
  refine ⟨hs.first_nodup,hs.first_live,?_,?_,?_,hs.running,?_,hs.base,hs.idle_running,hs.idle_base⟩
  · intro r
    dsimp only
    by_cases hro : r = .waiters o
    · subst hro
      rw [update_self]
      exact insertAfter_nodup _ _ _ hco (hs.queue_nodup _)
    · rw [update_of_ne hro]
      by_cases hrt : r = .waiters t
      · subst hrt
        rw [update_self]
        exact (hs.queue_nodup _).erase c
      · rw [update_of_ne hrt]
        exact hs.queue_nodup r
  · intro r u
    by_cases hro : r = .waiters o <;> by_cases huc : u = c
    · simp [hro, huc]
    · simp [hro, huc, hs.queue_mem]
    · subst huc
      by_cases hrt : r = .waiters t
      · simp [hrt, Ne.symm hne, hne, (hs.queue_nodup _).mem_erase_iff]
      · simp [hro, Ne.symm hro, hrt, hs.queue_mem, hq, Ne.symm hrt]
    · by_cases hrt : r = .waiters t
      · simp [hrt, Ne.symm hne, huc, hs.queue_mem]
      · simp [hro, hrt, huc, hs.queue_mem]
  · intro u r hur
    dsimp only at hur
    by_cases huc : u = c
    · rw [huc]
      exact hs.queued c _ hq
    · rw [update_of_ne huc] at hur
      exact hs.queued u r hur
  · intro u
    by_cases huc : u = c
    · simp [huc, (hs.mutex c).mpr ⟨t,hq⟩]
    · simp only [update_of_ne huc]
      exact hs.mutex u

theorem moveWaiter_sorted (ho : Sorted k) (hq : k.waitQueue c = some (.waiters t)) (hot : o ≠ t) :
    Sorted (moveWaiter t o c k) := by
  rw [moveWaiter_eq hq hot]
  refine ⟨ho.first,?_⟩
  intro r
  dsimp only
  by_cases hro : r = .waiters o
  · subst hro
    rw [update_self]
    exact (ho.queue _).insert c
  · rw [update_of_ne hro]
    by_cases hrt : r = .waiters t
    · subst hrt
      rw [update_self]
      exact (ho.queue _).sublist erase_sublist
    · rw [update_of_ne hrt]
      exact ho.queue r

theorem moveWaiter_fifo (ho : Sorted k) (hq : k.waitQueue c = some (.waiters t))
    (hot : o ≠ t) (hf : Fifo since k) (hx : ∀ x ∈ k.members (.waiters o), k.token x = k.token c →
      k.prio x < k.prio c ∨ since x ≤ since c) : Fifo since (moveWaiter t o c k) := by
  rw [moveWaiter_eq hq hot]
  intro r
  change (update (update k.members (.waiters t)
    ((k.members (.waiters t)).erase c)) (.waiters o) _ r).Pairwise _
  by_cases hro : r = .waiters o
  · rw [hro, update_self]
    exact fifo_insert (ho.queue _) (hf _) hx
  · rw [update_of_ne hro]
    by_cases hrt : r = .waiters t
    · rw [hrt, update_self]
      exact (hf _).sublist erase_sublist
    · rw [update_of_ne hrt]
      exact hf r

theorem moveWaiter_prio (hp : PrioExcept E k)
    (hq : k.waitQueue c = some (.waiters t)) (hot : o ≠ t) (het : E t) (heo : E o) :
    PrioExcept E (moveWaiter t o c k) := by
  rw [moveWaiter_eq hq hot]
  refine prioExcept_congr hp ?_ rfl (fun _ _ => rfl) ?_ (fun _ h => h)
  · intro u hu
    exact hu
  intro u hu
  have huo : KThrQueue.waiters u ≠ .waiters o := by
    rintro h
    obtain rfl : u = o := by simpa using h
    exact hu heo
  have hut : KThrQueue.waiters u ≠ .waiters t := by
    rintro h
    obtain rfl : u = t := by simpa using h
    exact hu het
  dsimp only
  rw [update_of_ne huo, update_of_ne hut]

end Move

/-! An unqueued thread starts or stops running. -/

def setRun (t : Tid) (st : KThrState) (n : ℕ) (k : Kernel) : Kernel :=
  { k with
    state := update k.state t st
    suspend := update k.suspend t n }

theorem setRun_core {st : KThrState} {n : ℕ} (h : Core k) (hl : Live k t) (hi : t ≠ idleThread)
    (hq : k.waitQueue t = none) (hst : st = .running ∧ n = 0 ∨ st = .waiting) :
    Core (setRun t st n k) := by
  have hlive : ∀ u, Live (setRun t st n k) u ↔ Live k u :=
    live_update rfl hl (by rcases hst with ⟨rfl,-⟩ | rfl <;> decide)
  have hs := h.shape
  refine ⟨shape_moved hs hi (fun u hu => ⟨update_of_ne hu _ _,rfl,update_of_ne hu _ _,rfl⟩)
    (update_self ..) hq ⟨hs.first_nodup,fun u => (hs.first_live u).trans (hlive u).symm⟩
    hs.queue_nodup hs.queue_mem (fun h => absurd rfl h) ?_ ?_ (hs.base t hl hi),
    ⟨h.owned.waits,fun m o hm => ?_⟩,⟨h.sorted.first,h.sorted.queue⟩,
    fun u hu => h.prio u ((hlive u).mp hu)⟩
  · rintro rfl
    exact (update_self ..).trans (hst.resolve_right nofun).2
  · rcases hst with ⟨rfl,-⟩ | rfl <;> simp
  · rw [hlive]
    exact h.owned.live m o hm

theorem setSuspend_core (n : ℕ) (h : Core k) (hr : k.state t ≠ .running) :
    Core { k with suspend := update k.suspend t n } := by
  refine ⟨⟨h.shape.first_nodup,h.shape.first_live,h.shape.queue_nodup,h.shape.queue_mem,
    h.shape.queued,?_,h.shape.mutex,h.shape.base,h.shape.idle_running,h.shape.idle_base⟩,
    ⟨h.owned.waits,h.owned.live⟩,⟨h.sorted.first,h.sorted.queue⟩,h.prio⟩
  intro u hur
  have hu : u ≠ t := by
    rintro rfl
    exact hr hur
  change update k.suspend t n u = 0
  rw [update_of_ne hu]
  exact h.shape.running u hur

/-! A base priority changes, a thread is created, a thread ends. -/

theorem setBase_shape {b : ℕ} (hs : Shape k) (hi : t ≠ idleThread) (hb : b ≤ minPrio) :
    Shape { k with baseprio := update k.baseprio t b } := by
  refine ⟨hs.first_nodup,hs.first_live,hs.queue_nodup,hs.queue_mem,hs.queued,hs.running,hs.mutex,
    ?_,hs.idle_running,?_⟩
  · intro u hu hui
    dsimp only
    by_cases hut : u = t
    · rwa [hut, update_self]
    · rw [update_of_ne hut]
      exact hs.base u hu hui
  · dsimp only
    rw [update_of_ne (Ne.symm hi)]
    exact hs.idle_base

theorem setBase_prio (t : Tid) (b : ℕ) (hp : ∀ u, Live k u → PrioAt k u) :
    PrioExcept (· = t) { k with baseprio := update k.baseprio t b } := by
  refine prioExcept_congr (E := fun _ => False) (fun u hu _ => hp u hu) ?_ rfl ?_
    (fun _ _ => rfl) (fun _ h => h.elim)
  · intro u hu
    exact hu
  · intro u hu
    exact update_of_ne hu _ _

theorem prepare_live {prio : ℕ} (u : Tid) :
    Live (kThreadPrepare t prio k) u ↔ u = t ∨ Live k u := by
  change (update k.state t .waiting u ≠ _ ∧
    update k.state t .waiting u ≠ _) ↔ _
  by_cases hu : u = t
  · simp [hu]
  · simp [Live, hu]

section Prepare

variable {k : Kernel} {t : Tid}

theorem dead_waitQueue (h : Shape k) (hl : ¬Live k t) : k.waitQueue t = none := by
  cases hc : k.waitQueue t with
  | none => rfl
  | some q => exact absurd (h.queued_live hc) hl

theorem dead_notMember (h : Shape k) (hl : ¬Live k t) (q : KThrQueue) : t ∉ k.members q := by
  intro ht
  rw [h.queue_mem, dead_waitQueue h hl] at ht
  simp at ht

section

variable (prio : ℕ) (h : Shape k)
include prio h

theorem prepare_members (ho : Owned k) (hl : ¬Live k t) :
    (kThreadPrepare t prio k).members = k.members := by
  change update k.members (.waiters t) [] = k.members
  rw [← ho.dead_waiters h hl, update_eq_self]

theorem prepare_waitQueue (hl : ¬Live k t) : (kThreadPrepare t prio k).waitQueue = k.waitQueue := by
  change update k.waitQueue t none = k.waitQueue
  rw [← dead_waitQueue h hl, update_eq_self]

theorem prepare_shape (ho : Owned k) (hl : ¬Live k t)
    (hi : t ≠ idleThread) : Shape (kThreadPrepare t prio k) := by
  have hwq := prepare_waitQueue prio h hl
  have hmem := prepare_members prio h ho hl
  refine shape_moved h hi (fun u hu => ⟨update_of_ne hu _ _,update_of_ne hu _ _,update_of_ne hu _ _,
    update_of_ne hu _ _⟩) (update_self ..) (update_self ..)
    ⟨insertAfter_nodup _ _ _ (by rwa [h.first_live]) h.first_nodup,fun u => ?_⟩ ?_ ?_
    (fun h => absurd rfl h) nofun (by simp) ?_
  · rw [prepare_live, ← h.first_live]
    exact mem_insertAfter _ _ _ _
  · rw [hmem]
    exact h.queue_nodup
  · rw [hmem, hwq]
    exact h.queue_mem
  · change update k.baseprio t _ t ≤ _
    rw [update_self]
    exact Nat.and_le_right

theorem prepare_owned (ho : Owned k) (hl : ¬Live k t) : Owned (kThreadPrepare t prio k) where
  waits u o huo := by
    rw [prepare_waitQueue prio h hl] at huo
    change k.owner (update k.token t 0 u) = some o
    have hut : u ≠ t := by
      rintro rfl
      exact absurd ((dead_waitQueue h hl).symm.trans huo) (by simp)
    rw [update_of_ne hut]
    exact ho.waits u o huo
  live m o hm := by
    rw [prepare_live]
    obtain ⟨h1,h2⟩ := ho.live m o hm
    exact ⟨Or.inr h1,h2⟩

theorem prepare_sorted (ho : Owned k) (hs : Sorted k) (hl : ¬Live k t) :
    Sorted (kThreadPrepare t prio k) := by
  have hlist : ∀ l : List Tid, t ∉ l → ByPrio k l → ByPrio (kThreadPrepare t prio k) l := by
    intro l ht hp
    apply hp.congr
    intro u hu
    have hut : u ≠ t := fun he => ht (he ▸ hu)
    exact update_of_ne hut _ _
  refine ⟨?_,?_⟩
  · have hfirst : t ∉ k.firstThread := by rwa [h.first_live]
    exact ByPrio.insert (hlist _ hfirst hs.first) t
  · intro q
    rw [prepare_members prio h ho hl]
    exact hlist _ (dead_notMember h hl q) (hs.queue q)

end

theorem prepare_prio (prio : ℕ) (h : Core k) (hl : ¬Live k t) {u : Tid}
    (hu : Live (kThreadPrepare t prio k) u) : PrioAt (kThreadPrepare t prio k) u := by
  have hmem := prepare_members prio h.shape h.owned hl
  unfold PrioAt
  by_cases hut : u = t
  · subst hut
    have hn : (kThreadPrepare u prio k).members (.waiters u) = [] := update_self _ _ _
    rw [expectedPrio, hn]
    change update k.prio u _ u = update k.baseprio u _ u
    simp
  · have hk : k.prio u = expectedPrio k u := h.prio u (((prepare_live u).mp hu).resolve_left hut)
    have hwaiter : ∀ v ∈ k.members (.waiters u), (kThreadPrepare t prio k).prio v = k.prio v := by
      intro v hv
      have hvt : v ≠ t := fun he => dead_notMember h.shape hl _ (he ▸ hv)
      exact update_of_ne hvt _ _
    rw [expectedPrio_congr k _ u (update_of_ne hut _ _) (by rw [hmem]) hwaiter, ← hk]
    exact update_of_ne hut _ _

theorem prepare_core (prio : ℕ) (h : Core k) (hl : ¬Live k t) (hi : t ≠ idleThread) :
    Core (kThreadPrepare t prio k) :=
  ⟨prepare_shape prio h.shape h.owned hl hi,prepare_owned prio h.shape h.owned hl,
    prepare_sorted prio h.shape h.owned h.sorted hl,fun _ => prepare_prio prio h hl⟩

end Prepare

def finish (t : Tid) (rc : ℤ) (k : Kernel) : Kernel :=
  { k with
    firstThread := k.firstThread.erase t
    state := update k.state t .finished
    rc := update k.rc t rc }

theorem finish_core (rc : ℤ) (h : Core k) (hr : k.state t = .running) (hi : t ≠ idleThread)
    (ho : ∀ m, k.owner m ≠ some t) : Core (finish t rc k) := by
  have hlive : ∀ u, Live (finish t rc k) u ↔ u ≠ t ∧ Live k u := by
    intro u
    change (update k.state t .finished u ≠ _ ∧
      update k.state t .finished u ≠ _) ↔ _
    by_cases hu : u = t
    · simp [hu]
    · simp [Live, hu]
  have hs := h.shape
  refine ⟨shape_moved hs hi (fun u hu => ⟨update_of_ne hu _ _,rfl,rfl,rfl⟩) (update_self ..)
    (hs.not_queued hr) ⟨hs.first_nodup.erase t,fun u => ?_⟩ hs.queue_nodup hs.queue_mem
    (fun h => absurd rfl h) (by simp) (by simp) (hs.base t (running_live hr) hi),
    ⟨h.owned.waits,fun m o hm => ?_⟩,⟨h.sorted.first.sublist erase_sublist,h.sorted.queue⟩,
    fun u hu => h.prio u ((hlive u).mp hu).2⟩
  · rw [hlive, ← hs.first_live]
    exact hs.first_nodup.mem_erase_iff
  · rw [hlive]
    obtain ⟨h1,h2⟩ := h.owned.live m o hm
    refine ⟨⟨?_,h1⟩,h2⟩
    rintro rfl
    exact ho m hm

end Libogc.QueueStep
