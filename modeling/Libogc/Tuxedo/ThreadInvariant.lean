import Mathlib.Data.List.Perm.Basic
import Mathlib.Order.Bounds.Basic
import Libogc.Tuxedo.ThreadKernel

/-!
# What a kernel state keeps

The facts are split by what they speak of. `Shape` relates the lists, the
queue pointers and the states of threads. `Owned` relates the queue pointers
to the owners of mutexes. `Sorted` is the order of every list by current
priority, and `PrioAt` is the inheritance equation of one thread. A change of
priorities reorders the lists and leaves `Shape` and `Owned` alone.
-/

set_option autoImplicit false

namespace Libogc.ThreadInvariant
open PrefixInsert ThreadKernel List

def Live (k : Kernel) (t : Tid) : Prop := k.state t ≠ .uninit ∧ k.state t ≠ .finished

def current (k : Kernel) : Tid := k.nextCtx.getD k.self

structure Shape (k : Kernel) : Prop where
  first_nodup : k.firstThread.Nodup
  first_live : ∀ t, t ∈ k.firstThread ↔ Live k t
  queue_nodup : ∀ q, (k.members q).Nodup
  queue_mem : ∀ q t, t ∈ k.members q ↔ k.waitQueue t = some q
  queued : ∀ t q, k.waitQueue t = some q → k.state t = .waiting ∨ k.state t = .waitingMutex
  running : ∀ t, k.state t = .running → k.suspend t = 0
  mutex : ∀ t, k.state t = .waitingMutex ↔ ∃ o, k.waitQueue t = some (.waiters o)
  base : ∀ t, Live k t → t ≠ idleThread → k.baseprio t ≤ minPrio
  idle_running : k.state idleThread = .running
  idle_base : k.baseprio idleThread = minPrio+1

structure Owned (k : Kernel) : Prop where
  waits : ∀ t o, k.waitQueue t = some (.waiters o) → k.owner (k.token t) = some o
  live : ∀ m o, k.owner m = some o → Live k o ∧ o ≠ idleThread

def ByPrio (k : Kernel) (l : List Tid) : Prop := l.Pairwise (fun a b => k.prio a ≤ k.prio b)

structure Sorted (k : Kernel) : Prop where
  first : ByPrio k k.firstThread
  queue : ∀ q, ByPrio k (k.members q)

def PrioAt (k : Kernel) (t : Tid) : Prop := k.prio t = expectedPrio k t

def PrioExcept (E : Tid → Prop) (k : Kernel) : Prop := ∀ t, Live k t → ¬E t → PrioAt k t

structure Scheduled (k : Kernel) : Prop where
  runs : k.state (current k) = .running
  thread : k.inExcpt = false → k.nextCtx = none
  other : k.nextCtx ≠ some k.self

structure Core (k : Kernel) : Prop where
  shape : Shape k
  owned : Owned k
  sorted : Sorted k
  prio : ∀ t, Live k t → PrioAt k t

structure Inv (k : Kernel) : Prop extends Core k where
  scheduled : Scheduled k

variable {k k' : Kernel} {l : List Tid} {o : Tid} {t : Tid} {since : Tid → ℕ} {k'' : Kernel}

theorem Shape.not_queued (h : Shape k) (hr : k.state t = .running) : k.waitQueue t = none := by
  cases hq : k.waitQueue t with
  | none => rfl
  | some q => rcases h.queued t q hq with hs | hs <;> simp [hr] at hs

theorem Shape.queued_live (h : Shape k) {q : KThrQueue} (hq : k.waitQueue t = some q) :
    Live k t := by
  rcases h.queued t q hq with hs | hs <;> simp [Live, hs]

theorem running_live (hr : k.state t = .running) : Live k t := by
  simp [Live, hr]

theorem Shape.queue_unique (h : Shape k) {q r : KThrQueue} (hq : t ∈ k.members q)
    (hr : t ∈ k.members r) : q = r := by
  have h1 := (h.queue_mem q t).mp hq
  have h2 := (h.queue_mem r t).mp hr
  exact Option.mem_unique h1 h2

theorem Owned.waiter_owner (h : Owned k) (hs : Shape k)
    (ht : t ∈ k.members (.waiters o)) : k.owner (k.token t) = some o :=
  h.waits t o ((hs.queue_mem _ t).mp ht)

theorem Owned.no_waiters (h : Owned k) (hs : Shape k) (ho : ∀ m, k.owner m ≠ some o) :
    k.members (.waiters o) = [] := by
  rw [eq_nil_iff_forall_not_mem]
  intro t ht
  exact ho _ (h.waiter_owner hs ht)

theorem Owned.dead_waiters (h : Owned k) (hs : Shape k) (ho : ¬Live k o) :
    k.members (.waiters o) = [] :=
  h.no_waiters hs (fun m hm => ho (h.live m o hm).1)

/-! The expected priority is the least of the base priority and the
priorities of the waiters, by the order of the waiters. -/

theorem expectedPrio_le_base (k : Kernel) (t : Tid) : expectedPrio k t ≤ k.baseprio t := by
  unfold expectedPrio
  split
  · exact le_refl _
  · split <;> omega

theorem expectedPrio_le_waiter (k : Kernel) (t w : Tid) (hs : ByPrio k (k.members (.waiters t)))
    (hw : w ∈ k.members (.waiters t)) : expectedPrio k t ≤ k.prio w := by
  unfold expectedPrio
  cases hl : k.members (.waiters t) with
  | nil => simp [hl] at hw
  | cons v vs =>
    rw [hl] at hs hw
    have hv : k.prio v ≤ k.prio w := by
      rcases mem_cons.mp hw with rfl | hw
      · exact le_refl _
      · exact (pairwise_cons.mp hs).1 w hw
    simp only
    split <;> omega

theorem expectedPrio_attained (k : Kernel) (t : Tid) :
    expectedPrio k t = k.baseprio t ∨ ∃ w ∈ k.members (.waiters t), expectedPrio k t =
      k.prio w := by
  unfold expectedPrio
  cases hl : k.members (.waiters t) with
  | nil => exact Or.inl rfl
  | cons v vs =>
    simp only
    split
    · exact Or.inr ⟨v,by simp,rfl⟩
    · exact Or.inl rfl

theorem expectedPrio_ge (k : Kernel) (t : Tid) (p : ℕ) (hb : p ≤ k.baseprio t)
    (hw : ∀ w ∈ k.members (.waiters t), p ≤ k.prio w) : p ≤ expectedPrio k t := by
  rcases expectedPrio_attained k t with h | ⟨w,hm,h⟩
  · omega
  · have := hw w hm
    omega

theorem expectedPrio_congr (k k' : Kernel) (t : Tid) (hb : k'.baseprio t = k.baseprio t)
    (hm : k'.members (.waiters t) = k.members (.waiters t))
    (hp : ∀ w ∈ k.members (.waiters t), k'.prio w = k.prio w) :
    expectedPrio k' t = expectedPrio k t := by
  unfold expectedPrio
  rw [hm, hb]
  cases hl : k.members (.waiters t) with
  | nil => rfl
  | cons v vs =>
    simp only
    rw [hp v (by simp [hl])]

theorem ByPrio.congr (h : ByPrio k l) (hp : ∀ t ∈ l, k'.prio t = k.prio t) : ByPrio k' l := by
  refine Pairwise.imp_of_mem ?_ h
  intro a b ha hb hab
  rw [hp a ha, hp b hb]
  exact hab

theorem ByPrio.sublist {l' : List Tid} (h : ByPrio k l) (hs : l'.Sublist l) :
    ByPrio k l' := Pairwise.sublist hs h

theorem ByPrio.insert (h : ByPrio k l) (t : Tid) :
    ByPrio k (insertAfter (fun c => decide (k.prio c ≤ k.prio t)) t l) := by
  apply insertAfter_sorted k.prio _ _ h
  · intro a _ ha
    exact of_decide_eq_true ha
  · intro a _ ha
    have := of_decide_eq_false ha
    omega

/-- Among threads of one queue with the same token and priority, the order is
that of the times since which they have their place. -/
def Fifo (since : Tid → ℕ) (k : Kernel) : Prop :=
  ∀ q, (k.members q).Pairwise
    (fun a b => k.token a = k.token b → k.prio a < k.prio b ∨ since a ≤ since b)

theorem Fifo.congr {since' : Tid → ℕ} (h : Fifo since k)
    (hm : ∀ q, (k'.members q).Sublist (k.members q))
    (hu : ∀ q, ∀ u ∈ k'.members q, k'.token u = k.token u ∧ k'.prio u = k.prio u ∧
      since' u = since u) :
    Fifo since' k' := by
  intro q
  refine Pairwise.imp_of_mem ?_ ((h q).sublist (hm q))
  intro a b ha hb hab
  obtain ⟨ht,hp,hs⟩ := hu q a ha
  obtain ⟨ht',hp',hs'⟩ := hu q b hb
  rwa [ht, ht', hp, hp', hs, hs']

theorem fifo_insert (hs : ByPrio k l)
    (hf : l.Pairwise (fun a b => k.token a = k.token b → k.prio a < k.prio b ∨ since a ≤ since b))
    (hn : ∀ u ∈ l, k.token u = k.token t → k.prio u < k.prio t ∨ since u ≤ since t) :
    (insertAfter (fun c => decide (k.prio c ≤ k.prio t)) t l).Pairwise
      (fun a b => k.token a = k.token b → k.prio a < k.prio b ∨ since a ≤ since b) := by
  apply insertAfter_pairwise hf
  · intro a ha _
    exact hn a ha
  · intro a ha _
    left
    apply left_of_stop hs _ _ a ha
    · intro b _ hb
      have := of_decide_eq_false hb
      omega
    · intro b c hb hbc
      omega

/-! A change of priorities permutes the lists, a switch changes the context,
and both keep every other field. -/

structure Reorder (k k' : Kernel) : Prop where
  state : k'.state = k.state
  suspend : k'.suspend = k.suspend
  baseprio : k'.baseprio = k.baseprio
  waitQueue : k'.waitQueue = k.waitQueue
  token : k'.token = k.token
  rc : k'.rc = k.rc
  owner : k'.owner = k.owner
  first : k'.firstThread.Perm k.firstThread
  members : ∀ q, (k'.members q).Perm (k.members q)

structure SameCtx (k k' : Kernel) : Prop where
  self : k'.self = k.self
  nextCtx : k'.nextCtx = k.nextCtx
  inExcpt : k'.inExcpt = k.inExcpt

theorem SameCtx.trans (h : SameCtx k k') (h' : SameCtx k' k'') : SameCtx k k'' :=
  ⟨h'.self.trans h.self,h'.nextCtx.trans h.nextCtx,h'.inExcpt.trans h.inExcpt⟩

theorem SameCtx.current_eq (h : SameCtx k k') : current k' = current k := by
  simp [current, h.nextCtx, h.self]

theorem Reorder.refl (k : Kernel) : Reorder k k :=
  ⟨rfl,rfl,rfl,rfl,rfl,rfl,rfl,.refl _,fun _ => .refl _⟩

section

variable (h : Reorder k k')
include h

theorem Reorder.trans (h' : Reorder k' k'') : Reorder k k'' where
  state := h'.state.trans h.state
  suspend := h'.suspend.trans h.suspend
  baseprio := h'.baseprio.trans h.baseprio
  waitQueue := h'.waitQueue.trans h.waitQueue
  token := h'.token.trans h.token
  rc := h'.rc.trans h.rc
  owner := h'.owner.trans h.owner
  first := h'.first.trans h.first
  members q := (h'.members q).trans (h.members q)

theorem Reorder.live (t : Tid) : Live k' t ↔ Live k t := by
  simp [Live, h.state]

theorem Reorder.shape (hs : Shape k) : Shape k' where
  first_nodup := h.first.nodup_iff.mpr hs.first_nodup
  first_live t := by rw [h.first.mem_iff, hs.first_live, h.live]
  queue_nodup q := (h.members q).nodup_iff.mpr (hs.queue_nodup q)
  queue_mem q t := by rw [(h.members q).mem_iff, h.waitQueue, hs.queue_mem]
  queued t q hq := by
    rw [h.state]
    exact hs.queued t q (by rwa [h.waitQueue] at hq)
  running t hr := by
    rw [h.suspend]
    exact hs.running t (by rwa [h.state] at hr)
  mutex t := by rw [h.state, h.waitQueue, hs.mutex]
  base t hl ht := by
    rw [h.baseprio]
    exact hs.base t ((h.live t).mp hl) ht
  idle_running := by rw [h.state, hs.idle_running]
  idle_base := by rw [h.baseprio, hs.idle_base]

theorem Reorder.owned (ho : Owned k) : Owned k' where
  waits t o ht := by
    rw [h.owner, h.token]
    exact ho.waits t o (by rwa [h.waitQueue] at ht)
  live m o hm := by
    rw [h.live]
    exact ho.live m o (by rwa [h.owner] at hm)

theorem Reorder.scheduled (hx : SameCtx k k') (hc : Scheduled k) : Scheduled k' where
  runs := by
    rw [h.state, hx.current_eq]
    exact hc.runs
  thread hi := by
    rw [hx.nextCtx]
    exact hc.thread (by rwa [hx.inExcpt] at hi)
  other := by
    rw [hx.nextCtx, hx.self]
    exact hc.other

end

/-! The context alone. -/

theorem Core.withCtx (h : Core k) (s : Tid) (n : Option Tid) (e : Bool) :
    Core { k with self := s, nextCtx := n, inExcpt := e } :=
  ⟨⟨h.shape.first_nodup,h.shape.first_live,h.shape.queue_nodup,h.shape.queue_mem,h.shape.queued,
    h.shape.running,h.shape.mutex,h.shape.base,h.shape.idle_running,h.shape.idle_base⟩,
    ⟨h.owned.waits,h.owned.live⟩,⟨h.sorted.first,h.sorted.queue⟩,h.prio⟩

structure Remembered (k : Kernel) : Prop where
  running : ∀ c, k.nextCtx = some c → k.state c = .running
  other : k.nextCtx ≠ some k.self

theorem Scheduled.remembered (h : Scheduled k) : Remembered k := by
  refine ⟨?_,h.other⟩
  intro c hc
  have hr := h.runs
  rwa [current, hc] at hr

theorem Inv.caller_running (h : Inv k) (hc : k.inExcpt = false) :
    k.state k.self = .running ∧ k.nextCtx = none := by
  have hn := h.scheduled.thread hc
  have hr := h.scheduled.runs
  rw [current, hn] at hr
  exact ⟨hr,hn⟩

theorem init_inv : Inv kThreadInit := by
  have hl : ∀ t, Live kThreadInit t ↔ t = mainThread ∨ t = idleThread := by
    intro t
    by_cases h : t = mainThread ∨ t = idleThread <;> simp [Live, kThreadInit, h]
  refine ⟨⟨⟨by decide,?_,by simp [kThreadInit],by simp [kThreadInit],by simp [kThreadInit],
    by simp [kThreadInit],?_,?_,by decide,by decide⟩,⟨by simp [kThreadInit],by simp [kThreadInit]⟩,
    ⟨?_,?_⟩,?_⟩,⟨by decide,fun _ => rfl,by simp [kThreadInit]⟩⟩
  · intro t
    rw [hl]
    simp [kThreadInit]
  · intro t
    simp only [kThreadInit]
    split <;> simp
  · intro t ht hi
    rcases (hl t).mp ht with rfl | rfl
    · decide
    · exact absurd rfl hi
  · simp [ByPrio, kThreadInit, mainThread, idleThread, mainPrio, minPrio]
  · simp [ByPrio, kThreadInit]
  · intro t _
    simp [PrioAt, expectedPrio, kThreadInit]

end Libogc.ThreadInvariant
