import Libogc.Tuxedo.PriorityInheritance

/-!
# Preemption

The context that runs next is `current`: the remembered one in an interrupt,
otherwise the thread itself. `Best` says that no running thread is better.
Every call decides by a comparison of its own whether to switch. The decision
is right for all calls of a thread but `KThreadSetPrio`, which looks at its
target and at the caller and not at the thread at the end of the chain of
owners. In an interrupt the interrupted thread may be suspended already, and a
comparison with it then says nothing about the remembered context.
-/

set_option autoImplicit false

namespace Libogc.Preemption
open Option Function Relation
open PrefixInsert GuardedReach InheritedValue ThreadKernel
open ThreadInvariant PrioUpdate QueueStep QueueLoop MutexStep
open KernelCall CallEffect PriorityInheritance

def Best (k : Kernel) : Prop := ∀ r, k.state r = .running → k.prio (current k) ≤ k.prio r

/-- A thread becomes ready that is better than the remembered context and not
better than the interrupted thread, which has been suspended. -/
def Missed (r : Tid) (k : Kernel) : Prop :=
  k.state k.self ≠ .running ∧ k.prio k.self ≤ k.prio r ∧ k.prio r < k.prio (current k)

/-- The new base priority of `t` reaches a running thread `e` through the
owners `t` waits for, and the current context is no longer the best. -/
def Upset (t : Tid) (p : ℕ) (k : Kernel) : Prop :=
  ∃ e, Leads (waitsOn k) t e ∧ k.state e = .running ∧
    (e ≠ current k ∧ p < k.prio (current k) ∨
      e = current k ∧ ∃ r, k.state r = .running ∧ r ≠ e ∧ k.prio r < p ∧
        ∀ y, Leads (waitsOn k) y e → y ≠ t → k.prio r < k.baseprio y)

/-- `KThreadSetPrio` offers its target to the scheduler when the target is
ready, and looks for the best thread when the caller lowers itself. -/
def Overlooked (t : Tid) (p : ℕ) (k : Kernel) : Prop :=
  Upset t p k ∧ ¬(t = k.self ∧ t = current k) ∧
    ¬(k.state t = .running ∧ t ≠ k.self ∧ t ≠ current k ∧ p < k.prio k.self)

variable {q : KThrQueue} {k k' : Kernel} {r : Option Tid} {e t : Tid}

theorem switchTo_best {r : Tid} (h : ∀ u, k.state u = .running → k.prio r ≤ k.prio u) :
    Best (kThreadSwitchTo r k) := by
  unfold kThreadSwitchTo
  split
  · split
    · exact h
    · rename_i c hc
      split
      · exact h
      · intro u hu
        have := h u hu
        rw [current, hc]
        change k.prio c ≤ k.prio u
        omega
  · exact h

theorem reschedule_best
    (h : ∀ t, r = some t → k.prio t < k.prio k.self → ∀ u, k.state u = .running →
      k.prio t ≤ k.prio u)
    (hs : (∀ t, r = some t → k.prio k.self ≤ k.prio t) → Best k) :
    Best (kThreadReschedule r k) := by
  unfold kThreadReschedule
  split
  · exact hs (by simp)
  · rename_i t
    split
    · rename_i hlt
      exact switchTo_best (h t rfl hlt)
    · rename_i hge
      apply hs
      intro u hu
      rw [← some.inj hu]
      omega

theorem current_self (hn : k.nextCtx = none) : current k = k.self := by
  simp [current, hn]

theorem switchTo_remembered (h : Best k) (hs : Scheduled k) {r : Tid} (hr : k.state r = .running)
    (hn : k.nextCtx ≠ none) : kThreadSwitchTo r k = k := by
  obtain ⟨c,hc⟩ := ne_none_iff_exists'.mp hn
  have hx : k.inExcpt = true := by
    by_contra hx
    exact hn (hs.thread (by simpa using hx))
  have hle := h r hr
  rw [current, hc] at hle
  unfold kThreadSwitchTo
  rw [if_pos hx, hc]
  exact if_neg (by simpa using hle)

theorem offer_best_of_best (h : Best k) (hs : Scheduled k)
    (hr : ∀ t, r = some t → k.state t = .running) : Best (kThreadReschedule r k) := by
  unfold kThreadReschedule
  split
  · exact h
  · rename_i t
    split
    · rename_i hlt
      have hne : k.nextCtx ≠ none := by
        intro hn
        have ht := h t (hr t rfl)
        rw [current_self hn] at ht
        omega
      rwa [switchTo_remembered h hs (hr t rfl) hne]
    · exact h

theorem offer_best {k₁ : Kernel} (h : Best k) (hs : Scheduled k₁) (hx : SameCtx k k₁)
    (hp : k₁.prio = k.prio) (hr : ∀ t, r = some t → k₁.state t = .running)
    (hnew : ∀ u, k₁.state u = .running → k.state u = .running ∨ ∃ t, r = some t ∧
      k.prio t ≤ k.prio u)
    (hm : ∀ t, r = some t → ¬Missed t k) : Best (kThreadReschedule r k₁) := by
  have hcur := hx.current_eq
  have hnew' : ∀ u, k₁.state u = .running →
      k.prio (current k) ≤ k.prio u ∨ ∃ t, r = some t ∧ k.prio t ≤ k.prio u :=
    fun u hu => (hnew u hu).imp_left (h u)
  by_cases hlt : ∃ t, r = some t ∧ k.prio t < k.prio (current k)
  · obtain ⟨t,rfl,hlt⟩ := hlt
    have hself : k.prio t < k.prio k.self := by
      by_contra hge
      by_cases hrun : k.state k.self = .running
      · have := h k.self hrun
        omega
      · exact hm t rfl ⟨hrun,by omega,hlt⟩
    apply reschedule_best
    · intro v hv _ u hu
      rw [← some.inj hv, hp]
      rcases hnew' u hu with hle | ⟨w,hw,hle⟩
      · omega
      · rwa [← some.inj hw] at hle
    · intro hge
      have := hge t rfl
      rw [hp, hx.self] at this
      omega
  · apply offer_best_of_best _ hs hr
    intro u hu
    rw [hcur, hp]
    rcases hnew' u hu with hle | ⟨t,ht,hle⟩
    · exact hle
    · by_contra hn
      exact hlt ⟨t,ht,by omega⟩

/-! A new base priority. -/

section SetPrio

variable {k k₁ : Kernel} {t : Tid} {prio : ℕ} (hset : Settled (withBase t prio k) k₁)
  (hc₁ : Core k₁)

include hset

theorem settled_waitsOn : waitsOn k₁ = waitsOn k := by
  funext u
  unfold waitsOn
  rw [show k₁.waitQueue = k.waitQueue from hset.reorder.waitQueue]

theorem settled_state : k₁.state = k.state := hset.reorder.state

include hc₁

theorem settled_le_prio (he : k.state e = .running) (x : ℕ) : x ≤ k₁.prio e ↔
    ∀ y, Leads (waitsOn k) y e → x ≤ update k.baseprio t (prio &&& minPrio) y := by
  rw [le_prio_iff hc₁ (by rwa [settled_state hset]), settled_waitsOn hset,
    show k₁.baseprio = _ from hset.reorder.baseprio]
  rfl

theorem settled_prio_other (hc : Core k) (he : k.state e = .running) (ht : ¬Leads (waitsOn k) t e) :
    k₁.prio e = k.prio e := by
  apply eq_of_forall_le_iff
  intro x
  rw [settled_le_prio hset hc₁ he, le_prio_iff hc he]
  refine forall_congr' (fun y => imp_congr_right (fun hy => ?_))
  rw [update_of_ne (by rintro rfl; exact ht hy)]

theorem settled_prio_reached (he : k.state e = .running) (ht : Leads (waitsOn k) t e) (x : ℕ) :
    x ≤ k₁.prio e ↔ x ≤ prio &&& minPrio ∧
      ∀ y, Leads (waitsOn k) y e → y ≠ t → x ≤ k.baseprio y := by
  rw [settled_le_prio hset hc₁ he]
  constructor
  · intro h
    refine ⟨by simpa using h t ht,?_⟩
    intro y hy hne
    simpa [update_of_ne hne] using h y hy
  · rintro ⟨hp,h⟩ y hy
    by_cases hne : y = t
    · rw [hne, update_self]
      exact hp
    · rw [update_of_ne hne]
      exact h y hy hne

theorem settled_best_iff (hc : Core k) (h : Best k) (hcur : k.state (current k) = .running) :
    Best k₁ ↔ ¬Upset t (prio &&& minPrio) k := by
  have hcur₁ : current k₁ = current (withBase t prio k) := hset.ctx.current_eq
  change current k₁ = current k at hcur₁
  have hst := settled_state hset
  have hend : ∀ u, k.state u = .running → waitsOn k u = none :=
    fun u hu => running_end hc.shape hu
  have hother : ∀ e u, Leads (waitsOn k) t e → k.state e = .running → k.state u = .running →
      u ≠ e → k₁.prio u = k.prio u := by
    intro e u hte he hu hne
    apply settled_prio_other hset hc₁ hc hu
    intro htu
    exact hne (leads_end_unique (hend u hu) (hend e he) htu hte)
  unfold Best
  rw [hcur₁, hst]
  constructor
  · rintro hb ⟨e,hte,he,⟨hne,hlt⟩ | ⟨rfl,r,hr,hne,hlt,hall⟩⟩
    · have h1 := hb e he
      rw [hother e _ hte he hcur hne.symm, settled_prio_reached hset hc₁ he hte] at h1
      omega
    · have h1 := hb r hr
      rw [hother _ r hte he hr hne] at h1
      have h2 : k.prio r+1 ≤ k₁.prio (current k) :=
        (settled_prio_reached hset hc₁ he hte _).mpr ⟨hlt,hall⟩
      omega
  · intro hup r hr
    by_contra hlt
    apply hup
    by_cases htr : Leads (waitsOn k) t r
    · have hne : r ≠ current k := by
        rintro rfl
        exact hlt (le_refl _)
      refine ⟨r,htr,hr,Or.inl ⟨hne,?_⟩⟩
      rw [hother r _ htr hr hcur hne.symm, settled_prio_reached hset hc₁ hr htr] at hlt
      by_contra hge
      refine hlt ⟨by omega,?_⟩
      intro y hy _
      exact (le_prio_iff hc hr _).mp (h r hr) y hy
    · rw [settled_prio_other hset hc₁ hc hr htr] at hlt
      have hcurl : Leads (waitsOn k) t (current k) := by
        by_contra hn
        rw [settled_prio_other hset hc₁ hc hcur hn] at hlt
        exact hlt (h r hr)
      refine ⟨current k,hcurl,hcur,Or.inr ⟨rfl,r,hr,?_,?_⟩⟩
      · rintro rfl
        exact htr hcurl
      · have h2 : k.prio r+1 ≤ k₁.prio (current k) := by omega
        exact (settled_prio_reached hset hc₁ hcur hcurl _).mp h2

theorem own_setPrio_best (hb : Best k) (hself : t = k.self) (hcur : t = current k)
    (hsame : ∀ u, u ≠ t → k₁.prio u = k.prio u) :
    Best (kThreadReschedule (setPrioNext t (k.prio k.self) k₁) k₁) := by
  have hself₁ : t = k₁.self := hself.trans hset.ctx.self.symm
  have hcur₁ : current k₁ = current k := SameCtx.current_eq (k := withBase t prio k) hset.ctx
  obtain ⟨b,hfind,-,hbest⟩ := findRunnable_spec hc₁
  apply reschedule_best
  · intro r hr _
    rw [setPrioNext, if_pos hself₁] at hr
    split at hr
    · rw [hfind] at hr
      rwa [← some.inj hr]
    · simp at hr
  · intro hge u hu
    rw [hcur₁, ← hcur]
    by_cases hlt : k.prio k.self < k₁.prio k₁.self
    · have hle := hge b (by rw [setPrioNext, if_pos hself₁, if_pos hlt, hfind])
      rw [← hself₁] at hle
      exact hle.trans (hbest u hu)
    · by_cases hut : u = t
      · rw [hut]
      · have hold := hb u (settled_state hset ▸ hu)
        rw [← hself₁, ← hself] at hlt
        rw [← hcur] at hold
        rw [hsame u hut]
        omega

theorem other_setPrio_best (hb : Best k) (hrun : k.state t = .running) (hts : t ≠ k.self)
    (hlt : prio &&& minPrio < k.prio k.self) (hpc : prio &&& minPrio < k.prio (current k))
    (hsame : ∀ u, u ≠ t → k₁.prio u = k.prio u) :
    Best (kThreadReschedule (setPrioNext t (k.prio k.self) k₁) k₁) := by
  have hself : k₁.self = k.self := hset.ctx.self
  have hst := settled_state hset
  have hle : k₁.prio t ≤ prio &&& minPrio :=
    ((settled_prio_reached hset hc₁ hrun ReflTransGen.refl _).mp (le_refl _)).1
  rw [setPrioNext, if_neg (by rwa [hself]), if_pos (by rwa [hst])]
  apply reschedule_best
  · intro v hv _ u hu
    rw [← some.inj hv]
    by_cases hut : u = t
    · rw [hut]
    · have hold := hb u (hst ▸ hu)
      rw [hsame u hut]
      omega
  · intro hge
    have hworse := hge t rfl
    rw [hself, hsame _ hts.symm] at hworse
    omega

end SetPrio

theorem upset_running {p : ℕ} (hs : Shape k) (hup : Upset t p k) (hrun : k.state t = .running)
    (htc : t ≠ current k) : p < k.prio (current k) := by
  obtain ⟨e,hte,-,hcase⟩ := hup
  obtain rfl := leads_end (running_end hs hrun) hte
  rcases hcase with ⟨-,hlt⟩ | ⟨hec,-⟩
  · exact hlt
  · exact absurd hec htc

theorem setPrio_best {prio : ℕ} (h : Inv k) (hb : Best k) (ht : Target t k)
    (hf : k.state t = .finished → prio &&& minPrio = k.prio t)
    (ho : ¬Overlooked t (prio &&& minPrio) k) (hk : kThreadSetPrio t prio k = some k') :
    Best k' := by
  obtain ⟨k₁,hset,hc₁,hsame,he⟩ := setPrio_spec h ht hf
  obtain rfl := mem_unique he hk
  by_cases hup : Upset t (prio &&& minPrio) k
  · by_cases hcs : t = k.self ∧ t = current k
    · have hrun : k.state t = .running := hcs.2 ▸ h.scheduled.runs
      exact own_setPrio_best hset hc₁ hb hcs.1 hcs.2 (hsame (h.shape.not_queued hrun))
    · have hres : k.state t = .running ∧ t ≠ k.self ∧ t ≠ current k ∧
          prio &&& minPrio < k.prio k.self := by
        by_contra hn
        exact ho ⟨hup,hcs,hn⟩
      obtain ⟨hrun,hts,htc,hlt⟩ := hres
      exact other_setPrio_best hset hc₁ hb hrun hts hlt (upset_running h.shape hup hrun htc)
        (hsame (h.shape.not_queued hrun))
  · have hs₁ : Scheduled k₁ := hset.reorder.scheduled hset.ctx
      (scheduled_of h.scheduled ⟨rfl,rfl,rfl⟩ h.scheduled.runs)
    apply offer_best_of_best _ hs₁ (fun _ => setPrioNext_running)
    exact (settled_best_iff hset hc₁ h.toCore hb h.scheduled.runs).mpr hup

/-! The other calls. -/

theorem prepare_best (prio : ℕ) (h : Inv k) (hb : Best k) (hl : ¬Live k t) :
    Best (kThreadPrepare t prio k) := by
  have hcur : current k ≠ t := by
    rintro rfl
    exact hl (running_live h.scheduled.runs)
  intro u hu
  change update k.state t .waiting u = _ at hu
  change update k.prio t _ (current k) ≤ update k.prio t _ u
  have hut : u ≠ t := by
    rintro rfl
    simp at hu
  rw [update_of_ne hut] at hu
  rw [update_of_ne hut, update_of_ne hcur]
  exact hb u hu

theorem runnable_best (h : Core k) (hk : switchToRunnable k = some k') : Best k' := by
  obtain ⟨r,hf,-,hbest⟩ := findRunnable_spec h
  rw [switchToRunnable, hf] at hk
  cases hk
  exact switchTo_best hbest

theorem resume_best (h : Inv k) (hb : Best k) (ht : Target t k)
    (hf : ¬(k.state t = .finished ∧ k.suspend t = 1))
    (hm : t ≠ k.self → k.suspend t = 1 → k.waitQueue t = none → ¬Missed t k)
    (hk : kThreadResume t k = some k') : Best k' := by
  rcases resume_cases h ht hf with ⟨-,he⟩ | ⟨-,-,he⟩ | ⟨h1,-,hq,hcase⟩
  · obtain rfl := mem_unique he hk
    exact hb
  · obtain rfl := mem_unique he hk
    exact hb
  · have hnew : ∀ u, (setRun t .running 0 k).state u = .running → k.state u = .running ∨ u = t := by
      intro u hu
      by_cases hut : u = t
      · exact Or.inr hut
      · exact Or.inl ((update_of_ne hut _ _).symm.trans hu)
    rcases hcase with ⟨hne,he⟩ | ⟨hself,c,hn,he⟩
    · obtain rfl := mem_unique he hk
      have hrun : (setRun t .running 0 k).state t = .running := update_self _ _ _
      apply offer_best hb (resumed_scheduled t h.scheduled) ⟨rfl,rfl,rfl⟩ rfl
      · intro u hu
        rwa [← some.inj hu]
      · intro u hu
        exact (hnew u hu).imp_right (fun hut => ⟨t,rfl,by rw [hut]⟩)
      · intro u hu
        rw [← some.inj hu]
        exact hm hne h1 hq
    · obtain rfl := mem_unique he hk
      have hcur : current k = c := by simp [current, hn]
      split
      · rename_i hlt
        intro u hu
        change k.prio k.self ≤ k.prio u
        rw [← hself]
        rcases hnew u hu with hu | hu
        · have := hb u hu
          rw [hcur] at this
          omega
        · rw [hu]
      · rename_i hge
        intro u hu
        change k.prio (current k) ≤ k.prio u
        rcases hnew u hu with hu | hu
        · exact hb u hu
        · rw [hu, hcur]
          omega

theorem suspend_best (h : Inv k) (hb : Best k) (ht : Target t k)
    (hk : kThreadSuspend t k = some k') : Best k' := by
  rcases suspend_cases h with ⟨-,he⟩ | ⟨hr,-,hcase⟩
  · obtain rfl := mem_unique he hk
    exact hb
  · have hcore : Core (setRun t .waiting 1 k) :=
      setRun_core h.toCore (running_live hr) ht.1 (h.shape.not_queued hr) (Or.inr rfl)
    rcases hcase with ⟨-,he⟩ | ⟨-,-,he⟩ | ⟨-,-,he⟩
    · exact runnable_best hcore (he.symm.trans hk)
    · obtain rfl := mem_unique he hk
      obtain ⟨r,hf,-,hbest⟩ := findRunnable_spec hcore
      change kThreadFindRunnable k.firstThread (setRun t .waiting 1 k) = some r at hf
      rw [hf]
      split
      · rename_i hrs
        obtain rfl : r = k.self := some.inj hrs
        exact hbest
      · exact hbest
    · obtain rfl := mem_unique he hk
      intro u hu
      refine hb u ?_
      by_cases hut : u = t
      · rw [hut]
        exact hr
      · exact (update_of_ne hut _ _).symm.trans hu

theorem yield_best (h : Inv k) (hb : Best k) (hk : kThreadYield k = some k') : Best k' := by
  obtain ⟨r,hy,hr,hcase⟩ := yieldNext_spec h.toCore
  rw [kThreadYield, hy] at hk
  cases hk
  dsimp only
  split
  · exact hb
  · by_cases hn : k.nextCtx = none
    · apply switchTo_best
      intro u hu
      rcases hcase with hle | hbest
      · have := hb u hu
        rw [current_self hn] at this
        omega
      · exact hbest u hu
    · rwa [switchTo_remembered hb h.scheduled hr hn]

variable {us : List Tid} {mode : KThrUnblockMode} {ref m : ℕ}

theorem woken_best {r u : Tid} (hs : ByPrio k us)
    (hr : us.find? (fun t => decide (k.suspend t = 0)) = some r) (hu : u ∈ us)
    (h0 : k.suspend u = 0) : k.prio r ≤ k.prio u :=
  pairwise_find (R := fun a b => k.prio a ≤ k.prio b) (fun _ => le_refl _) hs hr hu
    (by simpa using h0)

theorem wake_new (hs : ByPrio k us) {u : Tid} (hu : (wake q mode ref us k).state u = .running) :
    k.state u = .running ∨ ∃ t, us.find? (fun t => decide (k.suspend t = 0)) = some t ∧
      k.prio t ≤ k.prio u := by
  change (if u ∈ us then awake k u else k.state u) = _ at hu
  split at hu
  · rename_i hm
    have h0 : k.suspend u = 0 := by
      by_contra h0
      simp [awake, h0] at hu
    right
    cases hf : us.find? (fun t => decide (k.suspend t = 0)) with
    | none =>
      have := List.find?_eq_none.mp hf u hm
      simp [h0] at this
    | some t => exact ⟨t,rfl,woken_best hs hf hm h0⟩
  · exact Or.inl hu

def firstReady (q : KThrQueue) (max : ℤ) (mode : KThrUnblockMode) (ref : ℕ) (k : Kernel) :
    Option Tid := (unblocked q max mode ref k).find? (fun t => decide (k.suspend t = 0))

theorem unblock_best {max : ℤ} (h : Inv k) (hb : Best k)
    (hq : Free q) (hm : ∀ r, firstReady q max mode ref k = some r → ¬Missed r k) :
    Best (kThrQueueUnblockCommon q max mode ref k) := by
  rw [(unblockCommon_eq max mode ref h.toCore hq).1]
  have hs : ByPrio k (unblocked q max mode ref k) :=
    (h.sorted.queue q).sublist (unblocked_sublist q max mode ref k)
  exact offer_best hb (wake_scheduled h hq) ⟨rfl,rfl,rfl⟩ rfl (fun _ => wake_running)
    (fun _ => wake_new hs) hm

theorem cancel_best (h : Inv k) (hb : Best k)
    (hm : k.state t = .waiting → k.waitQueue t = some q → k.suspend t = 0 → ¬Missed t k) :
    Best (kThrQueueCancel q t k) := by
  rcases cancel_cases q t with ⟨-,he⟩ | ⟨hst,hq,he⟩
  · rwa [he]
  · rw [he]
    apply offer_best hb (leave_scheduled q 0 _ h.scheduled hst) ⟨rfl,rfl,rfl⟩ rfl
      (fun _ => cancelled_running)
    · intro u hu
      by_cases hut : u = t
      · right
        rw [hut] at hu ⊢
        change update k.state t (awake k t) t = _ at hu
        have h0 : k.suspend t = 0 := by
          by_contra h0
          simp [awake, h0] at hu
        exact ⟨t,if_pos h0,le_refl _⟩
      · exact Or.inl ((update_of_ne hut _ _).symm.trans hu)
    · intro r hr
      split at hr
      · rename_i h0
        rw [← some.inj hr]
        exact hm hst hq h0
      · simp at hr

theorem blockOn_waitsOn (o : Tid) (m : ℕ) (k : Kernel) :
    waitsOn (blockOn o m k) = update (waitsOn k) k.self (some o) := by
  funext u
  change (update k.waitQueue k.self (some (.waiters o)) u).bind ownerOf = _
  by_cases hu : u = k.self
  · rw [hu, update_self, update_self]
    rfl
  · rw [update_of_ne hu, update_of_ne hu]
    rfl

section

variable (h : Inv k) (hb : Best k) (hc : Caller k)
include h hb hc

theorem lock_best (hk : kMutexLock m k = some k') : Best k' := by
  obtain ⟨hr,hn⟩ := h.caller_running hc.1
  cases ho : k.owner m with
  | none =>
    simp only [kMutexLock, ho] at hk
    cases hk
    exact hb
  | some o =>
    obtain ⟨k₁,hset,hc₁,he⟩ := lock_blocked h.toCore hr hc.2 ho
    rw [hk] at he
    split at he
    · rename_i hcond
      cases he
      have hwait : waitsOn k₁ = update (waitsOn k) k.self (some o) := by
        rw [← blockOn_waitsOn o m k]
        funext u
        unfold waitsOn
        rw [hset.reorder.waitQueue]
      have hbase : k₁.baseprio = k.baseprio := hset.reorder.baseprio
      have hself : ∀ y, Leads (waitsOn k) y k.self → k.prio k.self ≤ k.baseprio y :=
        (le_prio_iff h.toCore hr _).mp (le_refl _)
      have howner : k₁.prio o ≤ k.prio k.self := by
        by_contra hlt
        have h1 := (le_prio_iff hc₁ hcond.2 (k.prio k.self+1)).mp (by omega)
        have h2 : k.prio k.self+1 ≤ k.prio k.self := by
          rw [le_prio_iff h.toCore hr]
          intro y hy
          rw [← hbase]
          apply h1
          rw [hwait]
          exact leads_update (running_end h.shape hr) hy
        omega
      apply switchTo_best
      intro u hu
      refine howner.trans ((le_prio_iff hc₁ hu _).mpr ?_)
      intro y hy
      rw [hwait] at hy
      rw [hbase]
      rcases leads_of_update hy with hyu | hys
      · have huk : k.state u = .running := by
          have hu' : (blockOn o m k).state u = .running := by rwa [← hset.reorder.state]
          change update k.state k.self .waitingMutex u = _ at hu'
          by_cases hus : u = k.self
          · rw [hus] at hu'
            simp at hu'
          · rwa [update_of_ne hus] at hu'
        have h1 := hb u huk
        rw [current_self hn] at h1
        exact h1.trans ((le_prio_iff h.toCore huk _).mp (le_refl _) y hyu)
      · exact hself y hys
    · exact runnable_best hc₁ he.symm

theorem unlock_best (ho : k.owner m = some k.self) (hk : kMutexUnlock m k = some k') : Best k' := by
  obtain ⟨hr,hn⟩ := h.caller_running hc.1
  obtain ⟨k₁,hrel,he⟩ := unlock_cases h hc ho
  obtain rfl := mem_unique he hk
  have hcur : current k₁ = k.self := by
    rw [hrel.ctx.current_eq, current_self hn]
  obtain ⟨b,hf,-,hbest⟩ := findRunnable_spec hrel.core
  apply reschedule_best
  · intro t ht _
    split at ht
    · rw [hf] at ht
      rwa [← some.inj ht]
    · simp at ht
  · intro hge u hu
    rw [hcur]
    by_cases hlt : k.prio k.self < k₁.prio k.self
    · have := hge b (by rw [if_pos hlt, hf])
      rw [hrel.ctx.self] at this
      exact this.trans (hbest u hu)
    · by_cases hus : u = k.self
      · rw [hus]
      · have hle : k.prio k.self ≤ k.prio u := by
          rw [hrel.state] at hu
          split at hu
          · rename_i hh
            have hm : u ∈ contenders m k := List.mem_of_head? hh
            obtain ⟨⟨t,ht⟩,htok⟩ := (mem_contenders h.toCore ho u).mp hm
            have hw := h.owned.waits u t ht
            rw [htok, ho] at hw
            rw [← some.inj hw] at ht
            exact prio_le_waiter h.toCore (running_live hr) ht
          · have := hb u hu
            rwa [current_self hn] at this
        rw [hrel.prio u hus]
        omega

theorem exit_best {rc : ℤ}
    (ho : ∀ m, k.owner m ≠ some k.self) (hk : kThreadExit rc k = some k') : Best k' := by
  obtain ⟨hr,hn⟩ := h.caller_running hc.1
  obtain ⟨r,-,hcase,he⟩ := exit_cases rc h hc ho
  obtain rfl := mem_unique he hk
  intro u hu
  change (afterExit rc k).state u = .running at hu
  change k.prio r ≤ k.prio u
  rcases hcase with hbest | ⟨hlt,hj⟩
  · exact hbest u hu
  · have hs : ByPrio (finish k.self rc k)
        (unblocked .joinQueue (-1) .byValue k.self (finish k.self rc k)) :=
      (h.sorted.queue .joinQueue).sublist (unblocked_sublist _ _ _ _ (finish k.self rc k))
    rcases wake_new hs hu with hu | ⟨t,ht,hle⟩
    · have huk : k.state u = .running := by
        change update k.state k.self .finished u = _ at hu
        by_cases hus : u = k.self
        · rw [hus] at hu
          simp at hu
        · rwa [update_of_ne hus] at hu
      have := hb u huk
      rw [current_self hn] at this
      omega
    · obtain rfl := mem_unique hj ht
      exact hle

end

end Libogc.Preemption
