import Mathlib.Data.List.Count
import Libogc.Tuxedo.ThreadInvariant

/-!
# The dynamic priority update

One iteration gives a thread its expected priority and moves it to its new
places. Only the owner of the mutex that the thread is blocked on can then
miss its own expected priority, so the equation fails at one thread at most
throughout the walk. The walk ends on every graph of owners: a priority that
rises is written to each thread once, and a priority that falls leaves one
thread fewer at the old value.
-/

set_option autoImplicit false

namespace Libogc.PrioUpdate
open List Function PrefixInsert ThreadKernel ThreadInvariant

def rekey (t : Tid) (p : ℕ) (k : Kernel) : Kernel :=
  match k.waitQueue t with
  | none => requeue t p k
  | some q => kThrQueueInsert q t (kThrQueueRemove q t (requeue t p k))

def slot (t : Tid) (p : ℕ) (k : Kernel) (l : List Tid) : List Tid :=
  insertAfter (fun c => decide (update k.prio t p c ≤ p)) t (l.erase t)

variable (n : ℕ) (t : Tid) (p : ℕ) (o : Tid) (k : Kernel) (q : KThrQueue)

theorem requeue_first : (requeue t p k).firstThread = slot t p k k.firstThread := by
  simp [requeue, kThreadEnqueue, kThreadDequeue, slot]

theorem requeue_queue (hq : k.waitQueue t = some q) :
    kThrQueueInsert q t (kThrQueueRemove q t (requeue t p k)) =
      { requeue t p k with members := update k.members q (slot t p k (k.members q)) } := by
  have hr : (requeue t p k).waitQueue t = some q := hq
  have hw : update k.waitQueue t (some q) = k.waitQueue := by
    rw [← hq, update_eq_self]
  simp only [kThrQueueRemove, hr, if_true, kThrQueueInsert, update_idem]
  simp only [requeue, kThreadEnqueue, kThreadDequeue, hw, slot, update_self]

theorem rekey_fields : (rekey t p k).state = k.state ∧ (rekey t p k).suspend = k.suspend ∧
    (rekey t p k).prio = update k.prio t p ∧ (rekey t p k).baseprio = k.baseprio ∧
    (rekey t p k).waitQueue = k.waitQueue ∧ (rekey t p k).token = k.token ∧
    (rekey t p k).rc = k.rc ∧ (rekey t p k).owner = k.owner ∧ (rekey t p k).self = k.self ∧
    (rekey t p k).nextCtx = k.nextCtx ∧ (rekey t p k).inExcpt = k.inExcpt ∧
    (rekey t p k).firstThread = (requeue t p k).firstThread := by
  unfold rekey
  cases hq : k.waitQueue t with
  | none => exact ⟨rfl,rfl,rfl,rfl,rfl,rfl,rfl,rfl,rfl,rfl,rfl,rfl⟩
  | some q =>
    dsimp only
    rw [requeue_queue t p k q hq]
    exact ⟨rfl,rfl,rfl,rfl,rfl,rfl,rfl,rfl,rfl,rfl,rfl,rfl⟩

theorem rekey_prio : (rekey t p k).prio = update k.prio t p := (rekey_fields t p k).2.2.1

theorem rekey_self : (rekey t p k).prio t = p := by rw [rekey_prio, update_self]

theorem rekey_other {t u : Tid} {p : ℕ} {k : Kernel} (hu : u ≠ t) :
    (rekey t p k).prio u = k.prio u := by rw [rekey_prio, update_of_ne hu]

theorem rekey_members_other (hq : k.waitQueue t ≠ some q) :
    (rekey t p k).members q = k.members q := by
  unfold rekey
  cases hr : k.waitQueue t with
  | none => rfl
  | some r =>
    simp only [requeue_queue t p k r hr]
    exact update_of_ne (fun h => hq (by rw [hr, h])) _ _

theorem rekey_members_self (hq : k.waitQueue t = some q) :
    (rekey t p k).members q = slot t p k (k.members q) := by
  unfold rekey
  simp only [hq, requeue_queue t p k q hq, update_self]

theorem slot_perm (l : List Tid) (ht : t ∈ l) : (slot t p k l).Perm l :=
  (insertAfter_perm _ t _).trans (perm_cons_erase ht).symm

theorem slot_sorted (l : List Tid) (hn : l.Nodup) (hs : ByPrio k l) :
    ByPrio (rekey t p k) (slot t p k l) := by
  have he : ByPrio (rekey t p k) (l.erase t) := by
    apply (hs.sublist erase_sublist).congr
    intro u hu
    exact rekey_other (hn.mem_erase_iff.mp hu).1
  have hi := he.insert t
  rwa [rekey_prio, update_self] at hi

theorem rekey_reorder (hs : Shape k) (hl : Live k t) : Reorder k (rekey t p k) := by
  obtain ⟨h1,h2,-,h4,h5,h6,h7,h8,-,-,-,h12⟩ := rekey_fields t p k
  refine ⟨h1,h2,h4,h5,h6,h7,h8,?_,?_⟩
  · rw [h12, requeue_first]
    exact slot_perm t p k _ ((hs.first_live t).mpr hl)
  · intro q
    by_cases hq : k.waitQueue t = some q
    · rw [rekey_members_self t p k q hq]
      exact slot_perm t p k _ ((hs.queue_mem q t).mpr hq)
    · rw [rekey_members_other t p k q hq]

theorem rekey_ctx : SameCtx k (rekey t p k) := by
  obtain ⟨-,-,-,-,-,-,-,-,h9,h10,h11,-⟩ := rekey_fields t p k
  exact ⟨h9,h10,h11⟩

theorem rekey_sorted (hs : Shape k) (ho : Sorted k) : Sorted (rekey t p k) := by
  obtain ⟨-,-,-,-,-,-,-,-,-,-,-,h12⟩ := rekey_fields t p k
  constructor
  · rw [h12, requeue_first]
    exact slot_sorted t p k _ hs.first_nodup ho.first
  · intro q
    by_cases hq : k.waitQueue t = some q
    · rw [rekey_members_self t p k q hq]
      exact slot_sorted t p k _ (hs.queue_nodup q) (ho.queue q)
    · rw [rekey_members_other t p k q hq]
      apply (ho.queue q).congr
      intro u hu
      have hut : u ≠ t := by
        rintro rfl
        exact hq ((hs.queue_mem q u).mp hu)
      exact rekey_other hut

theorem rekey_expected (hs : Shape k) (u : Tid) (hu : k.waitQueue t ≠ some (.waiters u)) :
    expectedPrio (rekey t p k) u = expectedPrio k u := by
  apply expectedPrio_congr
  · rw [(rekey_fields t p k).2.2.2.1]
  · exact rekey_members_other t p k _ hu
  · intro w hw
    have hwt : w ≠ t := by
      rintro rfl
      exact hu ((hs.queue_mem _ w).mp hw)
    exact rekey_other hwt

abbrev renewed (t : Tid) (k : Kernel) : Kernel := rekey t (expectedPrio k t) k

theorem rekey_prioAt (hs : Shape k) (u : Tid) (hu : k.waitQueue t ≠ some (.waiters u))
    (hp : u ≠ t → PrioAt k u) : PrioAt (renewed t k) u := by
  unfold PrioAt
  rw [rekey_expected _ _ _ hs u hu, rekey_prio]
  by_cases hut : u = t
  · rw [hut, update_self]
  · rw [update_of_ne hut]
    exact hp hut

/-! How the expected priority of the owner answers to a new priority of one
of its waiters. -/

theorem prio_le_waiter {k : Kernel} {o u : Tid} (ho : Sorted k) (hp : PrioAt k o)
    (hu : u ∈ k.members (.waiters o)) : k.prio o ≤ k.prio u := by
  rw [hp]
  exact expectedPrio_le_waiter k o u (ho.queue _) hu

theorem rekey_mem {k : Kernel} {t : Tid} (hs : Shape k) (hl : Live k t) (p : ℕ) (q : KThrQueue)
    (u : Tid) : u ∈ (rekey t p k).members q ↔ u ∈ k.members q :=
  ((rekey_reorder t p k hs hl).members q).mem_iff

section Owner

variable {k : Kernel} {t o w : Tid} {p : ℕ} (hs : Shape k) (ho : Sorted k)
  (he : PrioExcept (· = t) k) (hq : k.waitQueue t = some (.waiters o)) (hlo : Live k o)

include hs hq

theorem rekeyed_attained : expectedPrio (rekey t p k) o = k.baseprio o ∨
    ∃ w ∈ k.members (.waiters o), expectedPrio (rekey t p k) o = (rekey t p k).prio w := by
  rcases expectedPrio_attained (rekey t p k) o with h | ⟨w,hw,h⟩
  · exact .inl (h.trans (congrFun (rekey_fields t p k).2.2.2.1 o))
  · exact .inr ⟨w,(rekey_mem hs (hs.queued_live hq) p _ w).mp hw,h⟩

omit hs hq in
theorem rekeyed_le_base : expectedPrio (rekey t p k) o ≤ k.baseprio o :=
  (expectedPrio_le_base _ o).trans_eq (congrFun (rekey_fields t p k).2.2.2.1 o)

theorem rekeyed_ge {x : ℕ} (hb : x ≤ k.baseprio o)
    (hw : ∀ w ∈ k.members (.waiters o), x ≤ (rekey t p k).prio w) :
    x ≤ expectedPrio (rekey t p k) o := by
  rcases rekeyed_attained hs hq with h | ⟨w,hmem,h⟩
  · exact h ▸ hb
  · exact h ▸ hw w hmem

include ho

theorem rekeyed_le (hw : w ∈ k.members (.waiters o)) :
    expectedPrio (rekey t p k) o ≤ (rekey t p k).prio w :=
  expectedPrio_le_waiter _ o w ((rekey_sorted t p k hs ho).queue _)
    ((rekey_mem hs (hs.queued_live hq) p _ w).mpr hw)

theorem self_owner (hot : o = t) : PrioAt (renewed t k) o := by
  subst hot
  apply le_antisymm
  · rw [rekey_self]
    refine rekeyed_ge hs hq (expectedPrio_le_base k o) (fun w hw => ?_)
    by_cases hwo : w = o
    · rw [hwo, rekey_self]
    · rw [rekey_other hwo]
      exact expectedPrio_le_waiter k o w (ho.queue _) hw
  · exact rekeyed_le hs ho hq ((hs.queue_mem _ o).mpr hq)

include he hlo

/-- When the priority of the waiter rises to `p`, the owner either needs no
change or needs the priority `p` itself. -/
theorem owner_raise (hot : o ≠ t) (p : ℕ) (hp : p < k.prio t) (hne : ¬PrioAt (rekey t p k) o) :
    expectedPrio (rekey t p k) o = p ∧ p < (rekey t p k).prio o := by
  have hpo : k.prio o = expectedPrio k o := he o hlo hot
  have hbase : k.prio o ≤ k.baseprio o := hpo ▸ expectedPrio_le_base k o
  have hprio : (rekey t p k).prio o = k.prio o := rekey_other hot
  have hle : expectedPrio (rekey t p k) o ≤ p :=
    (rekeyed_le hs ho hq ((hs.queue_mem _ t).mpr hq)).trans_eq (rekey_self t p k)
  have hcand : expectedPrio (rekey t p k) o = p ∨ k.prio o ≤ expectedPrio (rekey t p k) o := by
    rcases rekeyed_attained hs hq with h | ⟨w,hw,h⟩
    · exact .inr (h ▸ hbase)
    · by_cases hwt : w = t
      · left
        rw [h, hwt, rekey_self]
      · right
        rw [h, rekey_other hwt]
        exact prio_le_waiter ho hpo hw
  by_cases hlt : p < k.prio o
  · rcases hcand with h | h
    · exact ⟨h,by rwa [hprio]⟩
    · omega
  · exfalso
    apply hne
    have hle' : expectedPrio (rekey t p k) o ≤ k.prio o := by
      rcases expectedPrio_attained k o with h | ⟨w,hw,h⟩
      · rw [hpo, h]
        exact rekeyed_le_base
      · have hwt : w ≠ t := by
          rintro rfl
          omega
        rw [hpo, h, ← rekey_other hwt]
        exact rekeyed_le hs ho hq hw
    unfold PrioAt
    omega

/-- When the priority of the waiter falls, the owner needs a change only if
it had inherited the old priority of that waiter. -/
theorem owner_lower (hot : o ≠ t) (p : ℕ) (hp : k.prio t < p) (hne : ¬PrioAt (rekey t p k) o) :
    (rekey t p k).prio o = k.prio t ∧ k.prio t < expectedPrio (rekey t p k) o := by
  have hpo : k.prio o = expectedPrio k o := he o hlo hot
  have hbase : k.prio o ≤ k.baseprio o := hpo ▸ expectedPrio_le_base k o
  have hprio : (rekey t p k).prio o = k.prio o := rekey_other hot
  have hot' : k.prio o ≤ k.prio t := prio_le_waiter ho hpo ((hs.queue_mem _ t).mpr hq)
  have hge : k.prio o ≤ expectedPrio (rekey t p k) o := by
    refine rekeyed_ge hs hq hbase (fun w hw => ?_)
    by_cases hwt : w = t
    · rw [hwt, rekey_self]
      omega
    · rw [rekey_other hwt]
      exact prio_le_waiter ho hpo hw
  have hne' : k.prio o ≠ expectedPrio (rekey t p k) o := by
    intro h
    exact hne (by unfold PrioAt; omega)
  have heq : k.prio o = k.prio t := by
    rcases expectedPrio_attained k o with h | ⟨w,hw,h⟩
    · have : expectedPrio (rekey t p k) o ≤ k.baseprio o := rekeyed_le_base
      omega
    · by_cases hwt : w = t
      · rw [hpo, h, hwt]
      · have hle : expectedPrio (rekey t p k) o ≤ (rekey t p k).prio w := rekeyed_le hs ho hq hw
        rw [rekey_other hwt] at hle
        omega
  omega

end Owner

/-! The walk itself. -/

def restamp (now : ℕ) (since : Tid → ℕ) (k k' : Kernel) (u : Tid) : ℕ :=
  if k'.prio u = k.prio u then since u else now

structure Settled (k k' : Kernel) : Prop where
  reorder : Reorder k k'
  ctx : SameCtx k k'
  sorted : Sorted k'
  prio : ∀ t, Live k' t → PrioAt k' t
  fifo : ∀ now since, Fifo since k → (∀ u, since u ≤ now) → Fifo (restamp now since k k') k'

theorem restamp_self (now : ℕ) (since : Tid → ℕ) (k : Kernel) : restamp now since k k = since := by
  funext u
  exact if_pos rfl

theorem restamp_rekey (now : ℕ) (since : Tid → ℕ) (k : Kernel) {t : Tid} {p : ℕ}
    (hp : p ≠ k.prio t) : restamp now since k (rekey t p k) = update since t now := by
  funext u
  rw [restamp, rekey_prio]
  by_cases hu : u = t
  · rw [hu, update_self, update_self, if_neg hp]
  · rw [update_of_ne hu, update_of_ne hu, if_pos rfl]

theorem rekey_fifo {now p : ℕ} {since : Tid → ℕ} {k : Kernel} {t : Tid} (hs : Shape k)
    (ho : Sorted k) (hp : p ≠ k.prio t) (hf : Fifo since k) (hn : ∀ u, since u ≤ now) :
    Fifo (restamp now since k (rekey t p k)) (rekey t p k) := by
  have htok : (rekey t p k).token = k.token := (rekey_fields t p k).2.2.2.2.2.1
  have hother : ∀ u, u ≠ t → (rekey t p k).prio u = k.prio u ∧
      update since t now u = since u := fun u hu => ⟨rekey_other hu,update_of_ne hu _ _⟩
  rw [restamp_rekey now since k hp]
  intro q
  by_cases hq : k.waitQueue t = some q
  · have hmem : (rekey t p k).members q = insertAfter
        (fun c => decide ((rekey t p k).prio c ≤ (rekey t p k).prio t)) t
        ((k.members q).erase t) := by
      rw [rekey_members_self t p k q hq, slot, rekey_prio, update_self]
    have hne : ∀ u ∈ (k.members q).erase t, u ≠ t :=
      fun u hu => ((hs.queue_nodup q).mem_erase_iff.mp hu).1
    rw [hmem]
    apply fifo_insert
    · apply ((ho.queue q).sublist erase_sublist).congr
      intro u hu
      exact (hother u (hne u hu)).1
    · refine Pairwise.imp_of_mem ?_ ((hf q).sublist erase_sublist)
      intro a b ha hb hab
      rw [htok, (hother a (hne a ha)).1, (hother b (hne b hb)).1, (hother a (hne a ha)).2,
        (hother b (hne b hb)).2]
      exact hab
    · intro u hu _
      rw [(hother u (hne u hu)).2, update_self]
      exact Or.inr (hn u)
  · rw [rekey_members_other t p k q hq]
    refine Pairwise.imp_of_mem ?_ (hf q)
    have hne : ∀ u ∈ k.members q, u ≠ t := by
      rintro u hu rfl
      exact hq ((hs.queue_mem q u).mp hu)
    intro a b ha hb hab
    rw [htok, (hother a (hne a ha)).1, (hother b (hne b hb)).1, (hother a (hne a ha)).2,
      (hother b (hne b hb)).2]
    exact hab

theorem updateLoop_done (h : PrioAt k t) : updateLoop (n+1) t k = some k := by
  rw [updateLoop, if_pos (show k.prio t = expectedPrio k t from h)]

theorem updateLoop_unqueued (h : ¬PrioAt k t) (hq : k.waitQueue t = none) :
    updateLoop (n+1) t k = some (renewed t k) := by
  have hr : (requeue t (expectedPrio k t) k).waitQueue t = none := hq
  rw [updateLoop, if_neg (show ¬k.prio t = expectedPrio k t from h), renewed, rekey, hq]
  dsimp only
  split
  · rfl
  · rw [hr]

theorem updateLoop_queued (hs : Shape k) (h : ¬PrioAt k t) (q : KThrQueue)
    (hq : k.waitQueue t = some q) (hn : ∀ o, q ≠ .waiters o) :
    updateLoop (n+1) t k = some (renewed t k) := by
  have hr : (requeue t (expectedPrio k t) k).waitQueue t = some q := hq
  have hst : k.state t = .waiting := by
    rcases hs.queued t q hq with h | h
    · exact h
    · obtain ⟨o,ho⟩ := (hs.mutex t).mp h
      exact absurd (Option.mem_unique hq ho) (hn o)
  have hst' : (requeue t (expectedPrio k t) k).state t = .waiting := hst
  have hst2 := congrFun (rekey_fields t (expectedPrio k t) k).1 t
  rw [rekey, hq] at hst2
  rw [updateLoop, if_neg (show ¬k.prio t = expectedPrio k t from h), renewed, rekey, hq]
  dsimp only at hst2 ⊢
  rw [hst', if_neg (by decide), hr]
  dsimp only
  rw [hst2, hst, if_pos (by decide)]

theorem updateLoop_owner (hs : Shape k) (ho : Owned k) (h : ¬PrioAt k t)
    (hq : k.waitQueue t = some (.waiters o)) :
    updateLoop (n+1) t k = updateLoop n o (renewed t k) := by
  have hr : (requeue t (expectedPrio k t) k).waitQueue t = some (.waiters o) := hq
  have hst : k.state t = .waitingMutex := (hs.mutex t).mpr ⟨o,hq⟩
  have hst' : (requeue t (expectedPrio k t) k).state t = .waitingMutex := hst
  obtain ⟨h1,-,-,-,-,h6,-,h8,-⟩ := rekey_fields t (expectedPrio k t) k
  have hst2 := congrFun h1 t
  have hown : (renewed t k).owner ((renewed t k).token t) =
      some o := by
    rw [h8, h6]
    exact ho.waits t o hq
  rw [renewed, rekey, hq] at hown
  rw [rekey, hq] at hst2
  rw [updateLoop, if_neg (show ¬k.prio t = expectedPrio k t from h), renewed, rekey, hq]
  dsimp only at hst2 hown ⊢
  rw [hst', if_neg (by decide), hr]
  dsimp only
  rw [hst2, hst, if_neg (by decide), hown]

theorem rekey_count (hs : Shape k) (hl : Live k t) (f g : Tid → Bool) (hf : f t = true)
    (hg : g t = false) (hfg : ∀ u, u ≠ t → g u = f u) :
    (rekey t p k).firstThread.countP g < k.firstThread.countP f := by
  have ht : t ∈ k.firstThread := (hs.first_live t).mpr hl
  have hp := perm_cons_erase ht
  rw [((rekey_reorder t p k hs hl).first.trans hp).countP_eq, hp.countP_eq,
    countP_cons_of_neg (by simp [hg]), countP_cons_of_pos hf]
  apply Nat.lt_succ_of_le
  apply countP_mono_left
  intro u hu hgu
  rwa [hfg u (hs.first_nodup.mem_erase_iff.mp hu).1] at hgu

/-- One iteration at a thread that misses its expected priority. The walk
ends there, or it goes on at the owner, where alone the equation may fail. -/
theorem rekey_settled (hs : Shape k) (ho : Sorted k) (he : PrioExcept (· = t) k) (hl : Live k t)
    (hne : ¬PrioAt k t) (hq : ∀ o, k.waitQueue t ≠ some (.waiters o)) :
    Settled k (renewed t k) := by
  have hr := rekey_reorder t (expectedPrio k t) k hs hl
  exact ⟨hr,rekey_ctx _ _ k,rekey_sorted _ _ k hs ho,
    fun u hu => rekey_prioAt t k hs u (hq u) (he u ((hr.live u).mp hu)),
    fun _ _ => rekey_fifo hs ho (Ne.symm hne)⟩

theorem rekey_except (hs : Shape k) (he : PrioExcept (· = t) k) (hl : Live k t)
    (hq : k.waitQueue t = some (.waiters o)) :
    PrioExcept (· = o) (renewed t k) := by
  intro u hu huo
  have hr := rekey_reorder t (expectedPrio k t) k hs hl
  refine rekey_prioAt t k hs u ?_ (he u ((hr.live u).mp hu))
  rw [hq]
  simpa using Ne.symm huo

theorem Settled.of_prioAt {k : Kernel} (ho : Sorted k) (o : Tid) (he : PrioExcept (· = o) k)
    (hp : PrioAt k o) : Settled k k := by
  refine ⟨.refl k,⟨rfl,rfl,rfl⟩,ho,?_,?_⟩
  · intro u hu
    by_cases huo : u = o
    · exact huo ▸ hp
    · exact he u hu huo
  · intro now since hf _
    rwa [restamp_self]

/-- A way to follow the walk: `pending` holds where the walk stands, the
measure falls from each thread to the owner it goes on to, and all priorities
go one way. -/
structure Progress (le : ℕ → ℕ → Prop) (pending : Kernel → Tid → Prop) (measure : Kernel → ℕ) :
    Prop where
  refl : ∀ p, le p p
  trans : ∀ p q r, le p q → le q r → le p r
  antisymm : ∀ p q, le p q → le q p → p = q
  missing : ∀ k t, pending k t → ¬PrioAt k t
  toward : ∀ k t, pending k t → le (k.prio t) (expectedPrio k t)
  positive : ∀ k t, Shape k → Live k t → pending k t → 0 < measure k
  next : ∀ k t o, Shape k → Sorted k → PrioExcept (· = t) k → Live k o →
    k.waitQueue t = some (.waiters o) → o ≠ t → pending k t →
    ¬PrioAt (rekey t (expectedPrio k t) k) o →
    pending (rekey t (expectedPrio k t) k) o ∧
      measure (rekey t (expectedPrio k t) k) < measure k

section Walk

variable {le : ℕ → ℕ → Prop} {pending : Kernel → Tid → Prop} {measure : Kernel → ℕ}
  (hm : Progress le pending measure)

include hm

theorem rekey_toward {k : Kernel} {t : Tid} (hp : pending k t) (u : Tid) :
    le (k.prio u) ((renewed t k).prio u) := by
  rw [rekey_prio]
  by_cases hu : u = t
  · rw [hu, update_self]
    exact hm.toward k t hp
  · rw [update_of_ne hu]
    exact hm.refl _

theorem restamp_restamp (now : ℕ) (since : Tid → ℕ) {k k₁ k₂ : Kernel}
    (h₁ : ∀ u, le (k.prio u) (k₁.prio u)) (h₂ : ∀ u, le (k₁.prio u) (k₂.prio u)) :
    restamp now (restamp now since k k₁) k₁ k₂ = restamp now since k k₂ := by
  funext u
  unfold restamp
  by_cases h : k₂.prio u = k.prio u
  · have h1 : k₁.prio u = k.prio u := by
      apply hm.antisymm _ _ _ (h₁ u)
      rw [← h]
      exact h₂ u
    simp [h1]
  · by_cases h' : k₂.prio u = k₁.prio u
    · simp [h']
    · simp [h, h']

theorem updateLoop_settles (n : ℕ) (t : Tid) (k : Kernel) (hs : Shape k) (hw : Owned k)
    (ho : Sorted k) (he : PrioExcept (· = t) k) (hl : Live k t) (hp : pending k t)
    (hn : measure k ≤ n) : ∃ k', updateLoop (n+1) t k = some k' ∧ Settled k k' ∧
      ∀ u, le (k.prio u) (k'.prio u) := by
  induction n generalizing t k with
  | zero =>
    have hpos := hm.positive k t hs hl hp
    omega
  | succ n ih =>
    have hne : ¬PrioAt k t := hm.missing k t hp
    have hto := rekey_toward hm hp
    by_cases hq : ∃ o, k.waitQueue t = some (.waiters o)
    · obtain ⟨o,hq⟩ := hq
      have hlo : Live k o := (hw.live _ o (hw.waits t o hq)).1
      have hr := rekey_reorder t (expectedPrio k t) k hs hl
      have hso := rekey_sorted t (expectedPrio k t) k hs ho
      have hex := rekey_except t o k hs he hl hq
      have hff : ∀ now since, Fifo since k → (∀ u, since u ≤ now) →
          Fifo (restamp now since k (renewed t k)) (renewed t k) :=
            fun _ _ => rekey_fifo hs ho (Ne.symm hne)
      rw [updateLoop_owner _ t o k hs hw hne hq]
      by_cases hpo : PrioAt (renewed t k) o
      · have hset := Settled.of_prioAt hso o hex hpo
        exact ⟨_,updateLoop_done n o _ hpo,⟨hr,rekey_ctx _ _ k,hso,hset.prio,hff⟩,hto⟩
      · have hot : o ≠ t := fun h => hpo (self_owner hs ho hq h)
        obtain ⟨hp',hlt⟩ := hm.next k t o hs ho he hlo hq hot hp hpo
        obtain ⟨k',hk',hset,hle⟩ := ih o _ (hr.shape hs) (hr.owned hw) hso hex
          ((hr.live o).mpr hlo) hp' (by omega)
        refine ⟨k',hk',⟨hr.trans hset.reorder,(rekey_ctx _ _ k).trans hset.ctx,hset.sorted,
          hset.prio,?_⟩,fun u => hm.trans _ _ _ (hto u) (hle u)⟩
        intro now since hf hnow
        rw [← restamp_restamp hm now since hto hle]
        apply hset.fifo now _ (hff now since hf hnow)
        intro u
        unfold restamp
        split
        · exact hnow u
        · exact le_refl _
    · refine ⟨renewed t k,?_,
        rekey_settled t k hs ho he hl hne (by simpa using hq),hto⟩
      cases hc : k.waitQueue t with
      | none => exact updateLoop_unqueued _ t k hne hc
      | some q =>
        exact updateLoop_queued _ t k hs hne q hc (fun o h => hq ⟨o,by rw [hc, h]⟩)

end Walk

theorem raise_progress :
    Progress (fun a b => b ≤ a) (fun k t => expectedPrio k t = p ∧ p < k.prio t)
      (fun k => k.firstThread.countP (fun u => decide (p < k.prio u))) where
  refl := le_refl
  trans _ _ _ h h' := h'.trans h
  antisymm _ _ h h' := le_antisymm h' h
  toward k t h := by omega
  missing k t h := by
    unfold PrioAt
    omega
  positive k t hs hl h :=
    countP_pos_iff.mpr ⟨t,(hs.first_live t).mpr hl,by simpa using h.2⟩
  next k t o hs ho he hlo hq hot h hpo := by
    rw [h.1] at hpo ⊢
    refine ⟨owner_raise hs ho he hq hlo hot p h.2 hpo,?_⟩
    apply rekey_count t p k hs (hs.queued_live hq)
    · simpa using h.2
    · simp [rekey_prio]
    · intro u hu
      simp [rekey_prio, update_of_ne hu]

theorem lower_progress (a : ℕ) :
    Progress (fun a b => a ≤ b) (fun k t => k.prio t = a ∧ a < expectedPrio k t)
      (fun k => k.firstThread.countP (fun u => decide (k.prio u = a))) where
  refl := le_refl
  trans _ _ _ := le_trans
  antisymm _ _ := le_antisymm
  toward k t h := by omega
  missing k t h := by
    unfold PrioAt
    omega
  positive k t hs hl h :=
    countP_pos_iff.mpr ⟨t,(hs.first_live t).mpr hl,by simpa using h.1⟩
  next k t o hs ho he hlo hq hot h hpo := by
    obtain ⟨rfl,hlt⟩ := h
    refine ⟨owner_lower hs ho he hq hlo hot _ hlt hpo,?_⟩
    apply rekey_count t _ k hs (hs.queued_live hq)
    · simp
    · simpa [rekey_prio] using Nat.ne_of_gt hlt
    · intro u hu
      simp [rekey_prio, update_of_ne hu]

theorem update_settles (hs : Shape k) (hw : Owned k) (ho : Sorted k) (he : PrioExcept (· = t) k)
    (hl : Live k t) : ∃ k', kThreadUpdateDynamicPrio t k = some k' ∧ Settled k k' := by
  rcases lt_trichotomy (expectedPrio k t) (k.prio t) with h | h | h
  · obtain ⟨k',hk',hset,-⟩ := updateLoop_settles (raise_progress _) _ t k hs hw ho he hl ⟨rfl,h⟩
      countP_le_length
    exact ⟨k',hk',hset⟩
  · exact ⟨k,updateLoop_done _ t k h.symm,Settled.of_prioAt ho t he h.symm⟩
  · obtain ⟨k',hk',hset,-⟩ := updateLoop_settles (lower_progress _) _ t k hs hw ho he hl ⟨rfl,h⟩
      countP_le_length
    exact ⟨k',hk',hset⟩

/-- At a thread in no queue the update is at most one iteration, whoever owns
the mutexes. -/
def refresh (t : Tid) (k : Kernel) : Kernel :=
  if k.prio t = expectedPrio k t then k else rekey t (expectedPrio k t) k

theorem update_unqueued (hq : k.waitQueue t = none) :
    kThreadUpdateDynamicPrio t k = some (refresh t k) := by
  unfold kThreadUpdateDynamicPrio refresh
  split
  · rename_i h
    exact updateLoop_done _ t k h
  · rename_i h
    exact updateLoop_unqueued _ t k h hq

theorem refresh_prio : (refresh t k).prio = update k.prio t (expectedPrio k t) := by
  unfold refresh
  split
  · rename_i h
    rw [← h, update_eq_self]
  · exact rekey_prio t _ k

theorem refresh_ctx : SameCtx k (refresh t k) := by
  unfold refresh
  split
  · exact ⟨rfl,rfl,rfl⟩
  · exact rekey_ctx t _ k

theorem refresh_reorder (hs : Shape k) (hl : Live k t) : Reorder k (refresh t k) := by
  unfold refresh
  split
  · exact .refl k
  · exact rekey_reorder t _ k hs hl

theorem refresh_sorted (hs : Shape k) (ho : Sorted k) : Sorted (refresh t k) := by
  unfold refresh
  split
  · exact ho
  · exact rekey_sorted t _ k hs ho

theorem refresh_members (hq : k.waitQueue t = none) : (refresh t k).members = k.members := by
  unfold refresh
  split
  · rfl
  · funext q
    exact rekey_members_other t _ k q (by simp [hq])

theorem refresh_prioAt (hs : Shape k) (hq : k.waitQueue t = none) (u : Tid)
    (hp : u ≠ t → PrioAt k u) : PrioAt (refresh t k) u := by
  unfold refresh
  split
  · rename_i h
    by_cases hu : u = t
    · exact hu ▸ h
    · exact hp hu
  · exact rekey_prioAt t k hs u (by simp [hq]) hp

end Libogc.PrioUpdate
