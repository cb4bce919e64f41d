import Libogc.Tuxedo.CallEffect

/-!
# The order of equal waiters

A waiter has its place in a queue since it entered the queue or last changed
its priority there. Every call keeps the waiters of one token in the order of
priority first and of these times second, also when a release takes waiters
from the list of one owner to that of another.
-/

set_option autoImplicit false

namespace Libogc.QueueOrder
open Function ThreadKernel ThreadInvariant PrioUpdate QueueStep List
open QueueLoop MutexStep KernelCall CallEffect

def stamped (now : ℕ) (since : Tid → ℕ) (k k' : Kernel) (u : Tid) : ℕ :=
  if k.waitQueue u ≠ none ∧ k'.prio u = k.prio u then since u else now

variable {q : KThrQueue} {t u : Tid} {since : Tid → ℕ} {m : ℕ}

theorem stamped_le {now : ℕ} (hn : ∀ u, since u ≤ now) (k k' : Kernel) (u : Tid) :
    stamped now since k k' u ≤ now := by
  unfold stamped
  split
  · exact hn u
  · exact le_refl now

section Stamps

variable {now : ℕ} {since : Tid → ℕ} {k k' : Kernel}

theorem fifo_stamped {since' : Tid → ℕ} (hf : Fifo since' k')
    (hu : ∀ q, ∀ u ∈ k'.members q, stamped now since k k' u = since' u) :
    Fifo (stamped now since k k') k' :=
  hf.congr (fun _ => Sublist.refl _) (fun q u hm => ⟨rfl,rfl,hu q u hm⟩)

theorem fifo_kept (hf : Fifo since k')
    (hu : ∀ q, ∀ u ∈ k'.members q, k.waitQueue u ≠ none ∧ k'.prio u = k.prio u) :
    Fifo (stamped now since k k') k' :=
  fifo_stamped hf (fun q u hm => if_pos (hu q u hm))

theorem queued_of_member (h : Shape k) (hu : u ∈ k.members q) : k.waitQueue u ≠ none := by
  rw [(h.queue_mem q u).mp hu]
  simp

theorem fifo_same (h : Shape k) (hf : Fifo since k) (hm : k'.members = k.members)
    (ht : k'.token = k.token) (hp : k'.prio = k.prio) : Fifo (stamped now since k k') k' := by
  have hf' : Fifo since k' := by
    apply hf.congr
    · intro q
      rw [hm]
    · intro q u _
      rw [ht, hp]
      exact ⟨rfl,rfl,rfl⟩
  apply fifo_kept hf'
  intro q u hu
  rw [hm] at hu
  rw [hp]
  exact ⟨queued_of_member h hu,rfl⟩

theorem fifo_woken (h : Shape k) (hf : Fifo since k') (hp : k'.prio = k.prio)
    (hm : ∀ q, (k'.members q).Sublist (k.members q)) : Fifo (stamped now since k k') k' := by
  apply fifo_kept hf
  intro q u hu
  rw [hp]
  exact ⟨queued_of_member h ((hm q).subset hu),rfl⟩

theorem fifo_unblocked (h : Core k) (hq : Free q) {max : ℤ} {mode : KThrUnblockMode} {ref : ℕ}
    (hf : Fifo since k) :
    Fifo (stamped now since k (wake q mode ref (unblocked q max mode ref k) k))
      (wake q mode ref (unblocked q max mode ref k) k) :=
  fifo_woken h.shape (wake_fifo h.shape (fun _ hu => (unblocked_waiting h hq hu).1) hf) rfl
    (wake_sublist q mode ref _ k)

theorem enterQueue_other {q r : KThrQueue} (st : KThrState) (token : ℕ) (t : Tid) (k : Kernel)
    (hr : r ≠ q) : (enterQueue q st token t k).members r = k.members r := by
  change update k.members q _ r = _
  rw [update_of_ne hr]

theorem entered_member {r : KThrQueue} {st : KThrState} {token : ℕ}
    (hu : u ∈ (enterQueue q st token t k).members r) (hne : u ≠ t) : u ∈ k.members r := by
  by_cases hr : r = q
  · rw [hr] at hu ⊢
    change u ∈ update k.members q _ q at hu
    rw [update_self, PrefixInsert.mem_insertAfter] at hu
    exact hu.resolve_left hne
  · rwa [enterQueue_other st token t k hr] at hu

theorem fifo_entered (h : Shape k) (ho : Sorted k) (hr : k.state k.self = .running)
    (hf : Fifo since k) (hn : ∀ u, since u ≤ now) (q : KThrQueue) (st : KThrState) (token : ℕ) :
    Fifo (stamped now since k (enterQueue q st token k.self k))
      (enterQueue q st token k.self k) := by
  apply fifo_stamped (enterQueue_fifo h ho hr hf hn)
  intro r u hu
  by_cases hus : u = k.self
  · rw [hus, update_self, stamped, if_neg (by simp [h.not_queued hr])]
  · rw [update_of_ne hus]
    exact if_pos ⟨queued_of_member h (entered_member hu hus),rfl⟩

theorem released_queued (h : Core k) (ho : k.owner m = some k.self) (hr : Released m k k')
    (hu : k'.waitQueue u ≠ none) : k.waitQueue u ≠ none := by
  rw [hr.waitQueue] at hu
  split at hu
  · rename_i hm
    obtain ⟨⟨t,ht⟩,-⟩ := (mem_contenders h ho u).mp hm
    simp [ht]
  · exact hu

theorem released_member (h : Inv k) (hx : k.inExcpt = false) (ho : k.owner m = some k.self)
    (hr : Released m k k') (hu : u ∈ k'.members q) :
    k.waitQueue u ≠ none ∧ k'.prio u = k.prio u := by
  have hq := queued_of_member hr.core.shape hu
  refine ⟨released_queued h.toCore ho hr hq,hr.prio u ?_⟩
  rintro rfl
  exact hq (hr.core.shape.not_queued (released_self h hx hr))

theorem fifo_prepared (prio : ℕ) (h : Core k) (hl : ¬Live k t) (hf : Fifo since k) :
    Fifo (stamped now since k (kThreadPrepare t prio k)) (kThreadPrepare t prio k) := by
  have hmem := prepare_members prio h.shape h.owned hl
  have hother : ∀ q, ∀ u ∈ k.members q, u ≠ t := by
    rintro q u hu rfl
    exact dead_notMember h.shape hl q hu
  have hprio : ∀ q, ∀ u ∈ k.members q, (kThreadPrepare t prio k).prio u = k.prio u :=
    fun q u hu => update_of_ne (hother q u hu) _ _
  have hf' : Fifo since (kThreadPrepare t prio k) := by
    apply hf.congr
    · intro q
      rw [hmem]
    · intro q u hu
      rw [hmem] at hu
      exact ⟨update_of_ne (hother q u hu) _ _,hprio q u hu,rfl⟩
  apply fifo_kept hf'
  intro q u hu
  rw [hmem] at hu
  exact ⟨queued_of_member h.shape hu,hprio q u hu⟩

theorem fifo_settled {prio : ℕ} (h : Shape k) (hset : Settled (withBase t prio k) k')
    (hf : Fifo since k) (hn : ∀ u, since u ≤ now) : Fifo (stamped now since k k') k' := by
  apply fifo_stamped (hset.fifo now since hf hn)
  intro q u hu
  have hq : k.waitQueue u ≠ none := by
    rw [(hset.reorder.members q).mem_iff] at hu
    exact queued_of_member h hu
  unfold stamped restamp
  simp only [hq, ne_eq, not_false_eq_true, true_and]
  rfl

theorem fifo_lockBlocked {o : Tid} (h : Shape k) (ho : Sorted k) (hr : k.state k.self = .running)
    (hset : Settled (blockOn o m k) k') (hf : Fifo since k) (hn : ∀ u, since u ≤ now) :
    Fifo (stamped now since k k') k' := by
  have hle : ∀ u, update since k.self now u ≤ now := by
    intro u
    by_cases hu : u = k.self
    · rw [hu, update_self]
    · rw [update_of_ne hu]
      exact hn u
  apply fifo_stamped (hset.fifo now _ (enterQueue_fifo h ho hr hf hn) hle)
  intro q u hu
  unfold stamped restamp
  by_cases hus : u = k.self
  · simp [hus, h.not_queued hr]
  · have hq : k.waitQueue u ≠ none := by
      rw [(hset.reorder.members q).mem_iff] at hu
      exact queued_of_member h (entered_member hu hus)
    rw [update_of_ne hus]
    simp only [hq, ne_eq, not_false_eq_true, true_and]
    rfl

theorem fifo_condVarWait {cv : ℕ} (h : Inv k) (hx : k.inExcpt = false)
    (ho : k.owner m = some k.self) (hr : Released m k k') (hf : Fifo since k)
    (hn : ∀ u, since u ≤ now) :
    Fifo (stamped now since k (enterQueue .cvWaitQueue .waiting cv k.self k'))
      (enterQueue .cvWaitQueue .waiting cv k.self k') := by
  have hself : k'.state k.self = .running := released_self h hx hr
  apply fifo_stamped (enterQueue_fifo hr.core.shape hr.core.sorted hself (hr.fifo since hf) hn)
  intro q u hu
  by_cases hus : u = k.self
  · rw [hus, update_self, stamped,
      if_neg (by simp [h.shape.not_queued (h.caller_running hx).1])]
  · rw [update_of_ne hus]
    exact if_pos (released_member h hx ho hr (entered_member hu hus))

theorem fifo_exited (rc : ℤ) (h : Shape k) (hfin : Core (finish k.self rc k))
    (hf : Fifo since k) : Fifo (stamped now since k (afterExit rc k)) (afterExit rc k) := by
  have hwake : Fifo since (afterExit rc k) :=
    wake_fifo hfin.shape (fun _ hu => (unblocked_waiting hfin (by simp [Free]) hu).1) hf
  exact fifo_woken h hwake rfl (wake_sublist .joinQueue .byValue k.self _ (finish k.self rc k))

end Stamps

theorem effect_fifo {c : Call} {k k' : Kernel} {now : ℕ} (h : Inv k) (hs : Sound c k)
    (he : Effect k c k') (hf : Fifo since k) (hn : ∀ u, since u ≤ now) :
    Fifo (stamped now since k k') k' := by
  cases he with
  | prepare t prio => exact fifo_prepared prio h.toCore hs.1.2 hf
  | setPrio hset => exact fifo_settled h.shape hset hf hn
  | block q token =>
    exact fifo_entered h.shape h.sorted (h.caller_running hs.1.1.1).1 hf hn q .waiting token
  | unblock q max mode ref => exact fifo_unblocked h.toCore hs.1 hf
  | cancel _ hq => exact fifo_woken h.shape (leave_fifo h.shape hq hf) rfl leave_sublist
  | lockBlocked _ hset =>
    exact fifo_lockBlocked h.shape h.sorted (h.caller_running hs.1.1).1 hset hf hn
  | unlock ho hr =>
    exact fifo_kept (hr.fifo since hf) (fun _ _ => released_member h hs.1.1 ho hr)
  | condVarWait ho hr => exact fifo_condVarWait h hs.1.1 ho hr hf hn
  | signal cv | broadcast cv => exact fifo_unblocked h.toCore (by simp [Free]) hf
  | join =>
    exact fifo_entered h.shape h.sorted (h.caller_running hs.1.1).1 hf hn _ .waiting _
  | exit rc =>
    have hr := (h.caller_running hs.1.1.1).1
    exact fifo_exited rc h.shape (finish_core rc h.toCore hr hs.1.1.2 hs.1.2) hf
  | _ => exact fifo_same h.shape hf rfl rfl rfl

def Before (since : Tid → ℕ) (k : Kernel) (a b : Tid) : Prop :=
  k.prio a < k.prio b ∨ k.prio a = k.prio b ∧ since a ≤ since b

theorem head_before {k : Kernel} (ho : Sorted k) (hf : Fifo since k) {token : ℕ} {o : Tid}
    {us : List Tid} (hl : (k.members q).filter (fun u => decide (k.token u = token)) = o::us) :
    ∀ u ∈ us, Before since k o u := by
  intro u hu
  have htoken : ∀ v ∈ o::us, k.token v = token := by
    intro v hv
    rw [← hl] at hv
    simpa using (mem_filter.mp hv).2
  have hprio := (ho.queue q).sublist (filter_sublist (p := fun u => decide (k.token u = token)))
  have hfifo := (hf q).sublist (filter_sublist (p := fun u => decide (k.token u = token)))
  rw [hl] at hprio hfifo
  have hle := (pairwise_cons.mp hprio).1 u hu
  have hsame : k.token o = k.token u :=
    (htoken o mem_cons_self).trans (htoken u (mem_cons_of_mem o hu)).symm
  rcases lt_or_eq_of_le hle with hlt | heq
  · exact Or.inl hlt
  · rcases (pairwise_cons.mp hfifo).1 u hu hsame with hlt | hs
    · exact Or.inl hlt
    · exact Or.inr ⟨heq,hs⟩

end Libogc.QueueOrder
