import Libogc.Tuxedo.TickTask

/-!
# The invariant of the tick tasks

The links hold a list of the active tasks in the order in which they are due.
The target of an active task is the tick count, cut to 64 bits, that its start
is due at after the firings that the log has for that start. As long as the
tasks are due within half of the range of each other, the comparison that
wraps around puts targets in the order of these tick counts.
-/

set_option autoImplicit false

namespace Libogc.TimerInvariant
open Option GuardedReach LinkedChain PrefixInsert TickTask BitVec

/-! Comparison of tick counts. -/

def halfRange : ℕ := 9223372036854775808

variable {a b now : ℕ}

theorem toInt_tickCount_sub (hab : a < b+halfRange) (hba : b < a+halfRange) :
    (tickCount b-tickCount a).toInt = (b : ℤ)-a := by
  unfold halfRange at hab hba
  unfold tickCount
  rw [toInt_eq_toNat_cond, toNat_sub, toNat_ofNat, toNat_ofNat]
  split <;> omega

theorem sequential_iff (hab : a < b+halfRange) (hba : b < a+halfRange) :
    kTickIsSequential (tickCount a) (tickCount b) = true ↔ a < b := by
  rw [kTickIsSequential, decide_eq_true_eq, toInt_tickCount_sub hab hba]
  omega

theorem tickCount_add (a : ℕ) (d : BitVec 64) : tickCount a+d = tickCount (a+d.toNat) := by
  unfold tickCount
  rw [ofNat_add, ofNat_toNat, setWidth_eq]

theorem Start.dueAt_succ (σ : Start) (k : ℕ) :
    tickCount (σ.dueAt k)+σ.period = tickCount (σ.dueAt (k+1)) := by
  rw [tickCount_add, Start.dueAt, Start.dueAt, Nat.succ_mul, Nat.add_assoc]

/-! The records. -/

theorem firings_append (i : ℕ) (log : List Firing) (f : Firing) :
    firings i (log ++ [f]) = firings i log ++ if f.serial = i then [f] else [] := by
  unfold firings
  by_cases hf : f.serial = i <;> simp [hf]

structure Tracked (s : Timers) (t i : ℕ) (σ : Start) : Prop where
  task : σ.task = t
  fn : (s.ticks.task t).fn = σ.fn
  target : (s.ticks.task t).target = tickCount (σ.dueAt (firings i s.log).length)
  period : (s.ticks.task t).period = σ.period
  once : σ.period = 0 → firings i s.log = []

structure FiredAs (σ : Start) (fs : List Firing) : Prop where
  each : ∀ j f, fs[j]? = some f → f.task = σ.task ∧ f.fn = σ.fn ∧
    f.target = tickCount (σ.dueAt j) ∧ kTickIsSequential (tickCount f.now) f.target = false
  once : σ.period = 0 → fs.length ≤ 1

structure TimerInv (s : Timers) (l : List ℕ) : Prop where
  holds : s.ticks.links.Holds l
  nodup : l.Nodup
  mem : ∀ t, t ∈ l ↔ s.active t ≠ none
  sorted : l.Pairwise (fun a b => s.due a ≤ s.due b)
  tracked : ∀ t i, s.active t = some i → ∃ σ, s.starts[i]? = some σ ∧ Tracked s t i σ
  nonnull : ∀ σ ∈ s.starts, σ.fn ≠ 0
  known : ∀ f ∈ s.log, f.serial < s.starts.length
  fired : ∀ i σ, s.starts[i]? = some σ → FiredAs σ (firings i s.log)

def Spread (s : Timers) : Prop :=
  ∀ a b, s.active a ≠ none → s.active b ≠ none → s.due a < s.due b+halfRange

variable {cur i t : ℕ}

section Facts

variable {s : Timers} {l : List ℕ}

theorem due_eq {σ : Start} (ha : s.active t = some i) (hσ : s.starts[i]? = some σ) :
    s.due t = σ.dueAt (firings i s.log).length := by
  rw [Timers.due, ha]
  simp [hσ]

section

variable (h : TimerInv s l)
include h

theorem target_eq (ht : s.active t ≠ none) : (s.ticks.task t).target = tickCount (s.due t) := by
  obtain ⟨i,hi⟩ := ne_none_iff_exists'.mp ht
  obtain ⟨σ,hσ,htr⟩ := h.tracked t i hi
  rw [htr.target, due_eq hi hσ]

theorem active_fn (ht : s.active t ≠ none) : (s.ticks.task t).fn ≠ 0 := by
  obtain ⟨i,hi⟩ := ne_none_iff_exists'.mp ht
  obtain ⟨σ,hσ,htr⟩ := h.tracked t i hi
  rw [htr.fn]
  exact h.nonnull σ (List.mem_of_getElem? hσ)

theorem serial_injective {u : ℕ} (ht : s.active t = some i) (hu : s.active u = some i) : t = u := by
  obtain ⟨σ,hσ,htr⟩ := h.tracked t i ht
  obtain ⟨σ',hσ',htr'⟩ := h.tracked u i hu
  obtain rfl := mem_unique hσ hσ'
  rw [← htr.task, ← htr'.task]

theorem serial_lt (ht : s.active t = some i) : i < s.starts.length := by
  obtain ⟨σ,hσ,-⟩ := h.tracked t i ht
  exact (List.getElem?_eq_some_iff.mp hσ).1

theorem firings_new : firings s.starts.length s.log = [] := by
  apply List.filter_eq_nil_iff.mpr
  intro f hf
  have := h.known f hf
  simp
  omega

theorem first_least {head : ℕ} (hf : s.ticks.links.first = some head)
    (ht : s.active t ≠ none) : s.due head ≤ s.due t := by
  have hin := (h.mem t).mpr ht
  have hhead := Chain.first_eq h.holds
  cases l with
  | nil => simp at hin
  | cons a l =>
    obtain rfl := mem_unique hf hhead
    rcases List.mem_cons.mp hin with rfl | hin
    · exact le_refl _
    · exact (List.pairwise_cons.mp h.sorted).1 t hin

end

end Facts

/-! What the operations do to the list and to the task objects. -/

section Operations

variable {k k' : Ticks} {l : List ℕ} {n t : ℕ}

@[simp] theorem reschedule_links (now : ℕ) (k : Ticks) :
    (kTickTaskReschedule now k).links = k.links := by
  unfold kTickTaskReschedule
  split <;> rfl

@[simp] theorem reschedule_task (now : ℕ) (k : Ticks) :
    (kTickTaskReschedule now k).task = k.task := by
  unfold kTickTaskReschedule
  split <;> rfl

def placed (task : ℕ → KTickTask) (t : ℕ) (l : List ℕ) : List ℕ :=
  insertAfter (fun cur => kTickIsSequential (task cur).target (task t).target) t l

section

variable (h : k.links.Holds l) (hl : l.Nodup)
include h hl

theorem enqueue_cases (ht : t ∉ l) (hs : kTickTaskEnqueue n t k = some k') :
    k'.links.Holds (placed k.task t l) ∧ k' = { k with links := k'.links } := by
  obtain ⟨links,hlinks,rfl⟩ := map_eq_some_iff.mp hs
  exact ⟨enqueue_holds h hl ht hlinks,rfl⟩

theorem dequeue_cases (hs : kTickTaskDequeue n t k = some k') :
    k'.links.Holds (l.erase t) ∧ k' = { k with links := k'.links } := by
  obtain ⟨links,hlinks,rfl⟩ := map_eq_some_iff.mp hs
  exact ⟨dequeue_holds h hl hlinks,rfl⟩

theorem start_cases {fn later : ℕ} {delay period : BitVec 64} (hfn : (k.task t).fn = 0 → t ∉ l)
    (hs : kTickTaskStart n t fn delay period now later k = some k') :
    ∃ k₁, k₁.links.Holds (placed k₁.task t (l.erase t)) ∧
      k₁.task = Function.update k.task t ⟨fn,tickCount now+delay,period⟩ ∧
      k₁.loaded = k.loaded ∧ k₁.deadline = k.deadline ∧
      k' = if k₁.links.first ≠ k.links.first then kTickTaskReschedule later k₁ else k₁ := by
  obtain ⟨k₀,hk₀,hs⟩ := bind_eq_some_iff.mp hs
  obtain ⟨k₁,hk₁,rfl⟩ := map_eq_some_iff.mp hs
  have hout : k₀.links.Holds (l.erase t) ∧ k₀ = { k with links := k₀.links } := by
    split at hk₀
    · exact dequeue_cases h hl hk₀
    · rename_i hn
      cases hk₀
      rw [List.erase_of_not_mem (hfn (not_not.mp hn))]
      exact ⟨h,rfl⟩
  obtain ⟨hheld,heq⟩ := hout
  obtain ⟨hin,heq'⟩ := enqueue_cases (k := setTask t _ k₀) hheld (hl.erase t) hl.not_mem_erase hk₁
  have htask : k₁.task = (setTask t ⟨fn,tickCount now+delay,period⟩ k₀).task := by rw [heq']
  refine ⟨k₁,by rw [htask]; exact hin,?_,?_,?_,rfl⟩
  · rw [htask, setTask, heq]
  · rw [heq', heq]
    rfl
  · rw [heq', heq]
    rfl

theorem stop_cases (hs : kTickTaskStop n t now k = some k') : k' = k ∧ (k.task t).fn = 0 ∨
      ∃ k₁, k₁.links.Holds (l.erase t) ∧ k₁ = { k with links := k₁.links } ∧
        k' = clearFn t (if k.links.first = some t then kTickTaskReschedule now k₁ else k₁) := by
  unfold kTickTaskStop at hs
  split at hs
  · rename_i hfn
    exact Or.inl ⟨(some.inj hs).symm,hfn⟩
  · obtain ⟨k₁,hk₁,rfl⟩ := map_eq_some_iff.mp hs
    obtain ⟨hheld,heq⟩ := dequeue_cases h hl hk₁
    exact Or.inr ⟨k₁,hheld,heq,rfl⟩

end

theorem dueTask_some (h : dueTask now k = some cur) : k.links.first = some cur ∧
      kTickIsSequential (tickCount now) (k.task cur).target = false := by
  obtain ⟨hf,hseq⟩ := filter_eq_some_iff.mp h
  exact ⟨hf,by simpa using hseq⟩

theorem pop_cases (h : k.links.Holds (cur::l)) (hl : (cur::l).Nodup)
    (hs : popTask n cur k = some k') :
    (k.task cur).period ≠ 0 ∧ k'.links.Holds (placed k'.task cur l) ∧
        k'.task = Function.update k.task cur
          { k.task cur with target := (k.task cur).target+(k.task cur).period } ∨
      (k.task cur).period = 0 ∧ k'.links.Holds l ∧
        k'.task = Function.update k.task cur { k.task cur with fn := 0 } := by
  have hrest := Chain.tail h
  obtain ⟨hcur,hl'⟩ := List.nodup_cons.mp hl
  dsimp only [popTask] at hs
  split at hs
  · rename_i hp
    obtain ⟨hin,heq⟩ := enqueue_cases (by exact hrest) hl' hcur hs
    left
    refine ⟨hp,?_,by rw [heq]; rfl⟩
    rw [heq]
    exact hin
  · rename_i hp
    cases hs
    exact Or.inr ⟨not_not.mp hp,hrest,rfl⟩

/-! The operations return when the searches may take enough steps. -/

theorem enqueueTick_returns (h : k.links.Holds l) (hn : l.length < n) :
    ∃ k', kTickTaskEnqueue n t k = some k' := by
  obtain ⟨links,hlinks⟩ := enqueue_returns
    (fun cur => kTickIsSequential (k.task cur).target (k.task t).target) t h hn
  exact ⟨_,by rw [kTickTaskEnqueue, hlinks]; rfl⟩

theorem dequeueTick_returns (h : k.links.Holds l) (hn : l.length < n) :
    ∃ k', kTickTaskDequeue n t k = some k' := by
  obtain ⟨links,hlinks⟩ := dequeue_returns t h hn
  exact ⟨_,by rw [kTickTaskDequeue, hlinks]; rfl⟩

theorem start_returns (h : k.links.Holds l) (hl : l.Nodup) (hn : l.length < n) (fn : ℕ)
    (delay period : BitVec 64) (now later : ℕ) :
    ∃ k', kTickTaskStart n t fn delay period now later k = some k' := by
  have hout : ∃ k₀, (if (k.task t).fn ≠ 0 then kTickTaskDequeue n t k else some k) = some k₀ ∧
      ∃ l', k₀.links.Holds l' ∧ l'.length < n := by
    split
    · obtain ⟨k₀,hk₀⟩ := dequeueTick_returns h hn
      exact ⟨k₀,hk₀,_,(dequeue_cases h hl hk₀).1,lt_of_le_of_lt List.length_erase_le hn⟩
    · exact ⟨k,rfl,l,h,hn⟩
  obtain ⟨k₀,hk₀,l',hl',hn'⟩ := hout
  obtain ⟨k₁,hk₁⟩ := enqueueTick_returns (k := setTask t ⟨fn,tickCount now+delay,period⟩ k₀)
    hl' hn'
  exact ⟨_,by rw [kTickTaskStart, hk₀, bind_some, hk₁]; rfl⟩

theorem stop_returns (h : k.links.Holds l) (hn : l.length < n) (now : ℕ) :
    ∃ k', kTickTaskStop n t now k = some k' := by
  unfold kTickTaskStop
  split
  · exact ⟨k,rfl⟩
  · obtain ⟨k₁,hk₁⟩ := dequeueTick_returns h hn
    exact ⟨_,by rw [hk₁]; rfl⟩

theorem pop_returns (h : k.links.Holds (cur::l)) (hn : l.length < n) :
    ∃ k', popTask n cur k = some k' := by
  dsimp only [popTask]
  split
  · exact enqueueTick_returns (Chain.tail h) hn
  · exact ⟨_,rfl⟩

end Operations

end Libogc.TimerInvariant
