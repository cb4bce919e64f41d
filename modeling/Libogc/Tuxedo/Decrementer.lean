import Libogc.Tuxedo.TimerList

/-!
# The decrementer

The decrementer is loaded for the first task of the list, and it is loaded
again when another task becomes the first and when `KTickTaskRun` ends. A start
of the first task that leaves it the first does not load it, so there the
decrementer is in time only if it was in time for the new target already.
-/

set_option autoImplicit false

namespace Libogc.Decrementer
open Option Function GuardedReach LinkedChain PrefixInsert TickTask List Bool
open TimerInvariant TimerStep TimerList

/-- Outside of `KTickTaskRun` the decrementer has counted down when a task is
due, or it had when it was loaded. -/
def Armed (s : Timers) : Prop := s.phase = .outside → ∀ t, s.active t ≠ none →
  s.ticks.deadline ≤ s.due t ∨ s.ticks.deadline ≤ s.ticks.loaded

def Current (s : Timers) : Prop := ∀ t, s.active t ≠ none →
  s.due t < s.clock+halfRange ∧ s.clock < s.due t+halfRange

def Timely (a : ℕ × TimerAction) (s : Timers) : Prop :=
  TimerOk a.2 s ∧ ∀ s', boundedStep a s = some s' → Spread s' ∧ Current s'

/-- A start of the first task that leaves it the first does not give it a
target before the decrementer has counted down. -/
def Keeps : TimerAction → Timers → Prop
  | .start t _ delay _ now _, s => s.phase = .outside → s.ticks.links.first = some t →
    (∀ u, s.active u ≠ none → u ≠ t → now+delay.toNat ≤ s.due u) →
      s.ticks.deadline ≤ now+delay.toNat ∨ s.ticks.deadline ≤ s.ticks.loaded
  | _, _ => True

theorem reschedule_deadline {now head d : ℕ} {k : Ticks} (hf : k.links.first = some head)
    (htarget : (k.task head).target = tickCount d) (h1 : d < now+halfRange)
    (h2 : now < d+halfRange) : (kTickTaskReschedule now k).deadline ≤ d ∨
      (kTickTaskReschedule now k).deadline ≤ (kTickTaskReschedule now k).loaded := by
  simp only [kTickTaskReschedule, hf, htarget, toInt_tickCount_sub h2 h1, decrementer]
  split
  · right
    omega
  · left
    split <;> omega

section Steps

variable {s s' : Timers} {l : List ℕ} {n : ℕ}

section

variable (h : TimerInv s l)
include h

theorem armed_of_first (hf : ∀ head, s.ticks.links.first = some head → s.active head ≠ none →
      s.ticks.deadline ≤ s.due head ∨ s.ticks.deadline ≤ s.ticks.loaded) : Armed s := by
  intro _ t ht
  have hin := (h.mem t).mpr ht
  have hhead := Chain.first_eq h.holds
  cases l with
  | nil => simp at hin
  | cons head l =>
    have hact : s.active head ≠ none := (h.mem head).mp mem_cons_self
    rcases hf head hhead hact with hd | hd
    · exact Or.inl (hd.trans (first_least h hhead ht))
    · exact Or.inr hd

theorem rescheduled_armed {k : Ticks} (hc : Current s) (hlinks : s.ticks.links = k.links)
    (htarget : ∀ t, s.active t ≠ none → (s.ticks.task t).target = (k.task t).target)
    (hload : s.ticks.loaded = (kTickTaskReschedule s.clock k).loaded ∧
      s.ticks.deadline = (kTickTaskReschedule s.clock k).deadline) : Armed s := by
  apply armed_of_first h
  intro head hf hact
  rw [hload.1, hload.2]
  apply reschedule_deadline (by rw [← hlinks, hf]) _ (hc head hact).1 (hc head hact).2
  rw [← htarget head hact, target_eq h hact]

variable {t fn now later : ℕ} {delay period : BitVec 64} {l' : List ℕ}

theorem start_loads (hs : timerStep n (.start t fn delay period now later) s = some s') :
    ∃ k k₁, s' = started ⟨t,fn,now,delay,period⟩ later s k ∧ k.links = k₁.links ∧
      k.task = k₁.task ∧ k₁.links.Holds (placed k₁.task t (l.erase t)) ∧
      k₁.task = update s.ticks.task t ⟨fn,tickCount now+delay,period⟩ ∧
      (k₁.links.first ≠ s.ticks.links.first ∧ k = kTickTaskReschedule later k₁ ∨
        k₁.links.first = s.ticks.links.first ∧ k.loaded = s.ticks.loaded ∧
          k.deadline = s.ticks.deadline) := by
  obtain ⟨k,hk,rfl⟩ := map_eq_some_iff.mp hs
  obtain ⟨k₁,hl,htask,hload,hdead,hk'⟩ := start_cases h.holds h.nodup (inactive_notMem h) hk
  split at hk'
  · rename_i hf
    refine ⟨k,k₁,rfl,?_,?_,hl,htask,Or.inl ⟨hf,hk'⟩⟩
    · rw [hk', reschedule_links]
    · rw [hk', reschedule_task]
  · rename_i hf
    subst hk'
    exact ⟨k,k,rfl,rfl,rfl,hl,htask,Or.inr ⟨not_not.mp hf,hload,hdead⟩⟩

theorem start_armed (harm : Armed s) (hkeep : Keeps (.start t fn delay period now later) s)
    (hs : timerStep n (.start t fn delay period now later) s = some s') (h' : TimerInv s' l')
    (hc : Current s') : Armed s' := by
  obtain ⟨k,k₁,rfl,hlinks,htask,-,-,hload | ⟨hfirst,hload,hdead⟩⟩ := start_loads h hs
  · refine rescheduled_armed h' hc hlinks (fun u _ => ?_) ?_
    · change (k.task u).target = _
      rw [htask]
    · change k.loaded = _ ∧ k.deadline = _
      rw [hload.2]
      exact ⟨rfl,rfl⟩
  · intro hphase
    refine armed_of_first h' ?_ hphase
    intro head hf hact
    have hold : s.ticks.links.first = some head := by
      rw [← hfirst, ← hlinks]
      exact hf
    change k.deadline ≤ _ ∨ k.deadline ≤ k.loaded
    rw [hdead, hload]
    by_cases hht : head = t
    · subst hht
      have hdue : (started ⟨head,fn,now,delay,period⟩ later s k).due head = now+delay.toNat := by
        rw [started_due_self (σ := ⟨head,fn,now,delay,period⟩) h]
        simp [Start.dueAt]
      rw [hdue]
      refine hkeep hphase hold ?_
      intro u hu hne
      have hu' : (started ⟨head,fn,now,delay,period⟩ later s k).active u ≠ none := by
        rwa [started_active_other (σ := ⟨head,fn,now,delay,period⟩) hne]
      have hle := first_least h' hf hu'
      rwa [hdue, started_due_other h hne] at hle
    · have hact' : s.active head ≠ none := by
        rwa [started_active_other (σ := ⟨t,fn,now,delay,period⟩) hht] at hact
      rw [started_due_other h hht]
      exact harm hphase head hact'

theorem stop_armed (harm : Armed s)
    (hs : timerStep n (.stop t now) s = some s') (h' : TimerInv s' l') (hc : Current s') :
    Armed s' := by
  obtain ⟨k,hk,rfl⟩ := map_eq_some_iff.mp hs
  have hne : ∀ u, (stopped t now s k).active u ≠ none → u ≠ t ∧ s.active u ≠ none := by
    intro u hu
    have hut : u ≠ t := by
      rintro rfl
      simp [stopped] at hu
    exact ⟨hut,by simpa [stopped, update_of_ne hut] using hu⟩
  have hdue : ∀ u, u ≠ t → (stopped t now s k).due u = s.due u := by
    intro u hu
    simp only [Timers.due, stopped, update_of_ne hu]
  have hkept : k.loaded = s.ticks.loaded → k.deadline = s.ticks.deadline →
      Armed (stopped t now s k) := by
    intro hload hdead hphase u hu
    obtain ⟨hut,hact⟩ := hne u hu
    change k.deadline ≤ _ ∨ k.deadline ≤ k.loaded
    rw [hdead, hload, hdue u hut]
    exact harm hphase u hact
  rcases stop_cases h.holds h.nodup hk with ⟨rfl,-⟩ | ⟨k₁,-,hk₁,rfl⟩
  · exact hkept rfl rfl
  · by_cases hf : s.ticks.links.first = some t
    · simp only [if_pos hf] at *
      refine rescheduled_armed h' hc ?_ ?_ ⟨rfl,rfl⟩
      · change (kTickTaskReschedule now k₁).links = _
        rw [reschedule_links]
      · intro u hu
        obtain ⟨hut,-⟩ := hne u hu
        change (update (kTickTaskReschedule now k₁).task t _ u).target = _
        rw [update_of_ne hut, reschedule_task]
    · simp only [if_neg hf] at *
      apply hkept
      · rw [hk₁]
        rfl
      · rw [hk₁]
        rfl

end

theorem check_armed {now later : ℕ} {l' : List ℕ} (hs : checked n now later s = some s')
    (h' : TimerInv s' l') (hc : Current s') : Armed s' := by
  unfold checked at hs
  split at hs
  · obtain ⟨k,-,rfl⟩ := map_eq_some_iff.mp hs
    intro hphase
    simp [fired] at hphase
  · cases hs
    exact rescheduled_armed h' hc (by simp) (by simp) ⟨rfl,rfl⟩

theorem timer_armed {a : TimerAction} (h : TimerInv s l) (harm : Armed s) (hok : TimerOk a s)
    (hkeep : Keeps a s) (hs : timerStep n a s = some s') (hspread : Spread s')
    (hc : Current s') : Armed s' := by
  obtain ⟨l',h'⟩ := timer_inv h hok hs hspread
  cases a with
  | start t fn delay period now later => exact start_armed h harm hkeep hs h' hc
  | stop t now => exact stop_armed h harm hs h' hc
  | check now later => exact check_armed hs h' hc
  | scribble t task next =>
    cases hs
    exact harm
  | _ =>
    cases hs
    intro hphase
    simp at hphase

theorem placed_first {task : ℕ → KTickTask} {t : ℕ}
    (h : ∀ u ∈ l, kTickIsSequential (task u).target (task t).target = false) :
    (placed task t l).head? = some t := by
  cases l with
  | nil => rfl
  | cons u l =>
    rw [placed, insertAfter, takeWhile_cons_of_neg (by simp [h u mem_cons_self])]
    rfl

theorem start_keeps {t fn now later : ℕ} {delay period : BitVec 64} (h : TimerInv s l)
    (hs : timerStep n (.start t fn delay period now later) s = some s') (hspread : Spread s')
    (harm : Armed s') : Keeps (.start t fn delay period now later) s := by
  intro hphase hfirst hearly
  obtain ⟨k,k₁,rfl,-,-,hl,htask,hload⟩ := start_loads h hs
  have hdue : (started ⟨t,fn,now,delay,period⟩ later s k).due t = now+delay.toNat := by
    rw [started_due_self (σ := ⟨t,fn,now,delay,period⟩) h]
    simp [Start.dueAt]
  have hself : (started ⟨t,fn,now,delay,period⟩ later s k).active t ≠ none := by simp [started]
  have hsame : k₁.links.first = some t := by
    rw [Chain.first_eq hl]
    apply placed_first
    intro u hu
    obtain ⟨hne,hact⟩ := (erase_mem h t u).mp hu
    have hact' : (started ⟨t,fn,now,delay,period⟩ later s k).active u ≠ none := by
      rwa [started_active_other (σ := ⟨t,fn,now,delay,period⟩) hne]
    have h1 := hspread u t hact' hself
    have h2 := hspread t u hself hact'
    rw [hdue, started_due_other (σ := ⟨t,fn,now,delay,period⟩) h hne] at h1 h2
    rw [htask, update_self, update_of_ne hne, target_eq h hact, tickCount_add,
      eq_false_iff, ne_eq, sequential_iff h1 h2]
    have := hearly u hact hne
    omega
  rcases hload with ⟨hne,-⟩ | ⟨-,hload,hdead⟩
  · exact absurd (hsame.trans hfirst.symm) hne
  · have hres := harm hphase t hself
    change k.deadline ≤ _ ∨ k.deadline ≤ k.loaded at hres
    rwa [hdue, hdead, hload] at hres

end Steps

/-- A run in which no start of the first task outruns the decrementer has it
armed in time in every state, and a step from such a run leaves it armed
exactly if it is not such a start. -/
theorem decrementer_armed {next : ℕ → Option ℕ} {task : ℕ → KTickTask} {s : Timers}
    (h : Reach boundedStep (fun a s => Timely a s ∧ Keeps a.2 s) (timersInit next task) s) :
    Armed s ∧ ∀ a s', Timely a s → boundedStep a s = some s' → (Armed s' ↔ Keeps a.2 s) := by
  have hinv : (∃ l, TimerInv s l) ∧ Armed s := by
    refine reach_invariant (P := fun s => (∃ l, TimerInv s l) ∧ Armed s)
      ⟨⟨[],init_timerInv next task⟩,?_⟩ ?_ h
    · intro _ t ht
      simp [timersInit] at ht
    · rintro a s s' ⟨⟨l,hi⟩,harm⟩ ⟨⟨hok,hnear⟩,hkeep⟩ hs
      obtain ⟨hspread,hc⟩ := hnear s' hs
      exact ⟨timer_inv hi hok hs hspread,timer_armed hi harm hok hkeep hs hspread hc⟩
  obtain ⟨⟨l,hi⟩,harm⟩ := hinv
  refine ⟨harm,?_⟩
  intro a s' hok hs
  obtain ⟨hspread,hc⟩ := hok.2 s' hs
  refine ⟨?_,fun hkeep => timer_armed hi harm hok.1 hkeep hs hspread hc⟩
  intro harm'
  obtain ⟨n,act⟩ := a
  cases act with
  | start t fn delay period now later => exact start_keeps hi hs hspread harm'
  | _ => trivial

def timelyTest (a : ℕ × TimerAction) (s : Timers) : Bool :=
  nearTest a s && (boundedStep a s).all (fun s' => decide (s'.clock < halfRange))

theorem timelyTest_timely (a : ℕ × TimerAction) (s : Timers) (h : timelyTest a s = true) :
    Timely a s := by
  simp only [timelyTest, and_eq_true] at h
  obtain ⟨hok,hspread⟩ := nearTest_near a s h.1
  refine ⟨hok,fun s' hs' => ⟨hspread s' hs',?_⟩⟩
  intro t _
  have hsmall : isSmall s' = true := by
    have htest := h.1
    simp only [nearTest, and_eq_true] at htest
    simpa [hs'] using htest.2
  have hdue := isSmall_due hsmall t
  have hclock : s'.clock < halfRange := by simpa [hs'] using h.2
  omega

def keepsTest : TimerAction → Timers → Bool
  | .start t _ delay _ now _, s => decide (s.ticks.links.first ≠ some t) ||
    decide (s.ticks.deadline ≤ now+delay.toNat) || decide (s.ticks.deadline ≤ s.ticks.loaded)
  | _, _ => true

theorem keepsTest_keeps (a : ℕ × TimerAction) (s : Timers)
    (h : (timelyTest a s && keepsTest a.2 s) = true) : Timely a s ∧ Keeps a.2 s := by
  rw [and_eq_true] at h
  refine ⟨timelyTest_timely a s h.1,?_⟩
  obtain ⟨n,act⟩ := a
  cases act with
  | start t fn delay period now later =>
    intro _ hfirst _
    simpa [keepsTest, hfirst] using h.2
  | _ => trivial

theorem decrementer_armed_again : ∃ s, Reach boundedStep (fun a s => Timely a s ∧ Keeps a.2 s)
    (timersInit (fun _ => none) (fun _ => ⟨0,0,0⟩)) s ∧ s.phase = .outside ∧ s.active 5 ≠ none ∧
    s.ticks.deadline = 1000 ∧ Armed s := by
  have hrun : (runChecked boundedStep (fun a s => timelyTest a s && keepsTest a.2 s)
      [(9,.start 5 1 1000 0 0 0), (9,.start 6 1 10 0 3 3), (9,.run), (9,.check 13 13), (9,.ret),
        (9,.check 14 15)] (timersInit (fun _ => none) (fun _ => ⟨0,0,0⟩))).any
      (fun s => decide (s.phase = .outside ∧ s.active 5 ≠ none ∧ s.ticks.deadline = 1000)) =
        true := by decide +kernel
  obtain ⟨s,hreach,hphase,hact,hdead⟩ := run_reaches keepsTest_keeps hrun
  exact ⟨s,hreach,hphase,hact,hdead,(decrementer_armed hreach).1⟩

/-- The only task is started again with a shorter delay. -/
theorem restart_outruns_decrementer : ∃ s, Reach boundedStep Timely
    (timersInit (fun _ => none) (fun _ => ⟨0,0,0⟩)) s ∧ s.phase = .outside ∧
    s.ticks.links.first = some 5 ∧ s.due 5 = 10 ∧ s.ticks.loaded = 0 ∧ s.ticks.deadline = 1000 ∧
    ¬Armed s := by
  have hrun : (runChecked boundedStep timelyTest [(9,.start 5 1 1000 0 0 0),
      (9,.start 5 1 10 0 0 0)] (timersInit (fun _ => none) (fun _ => ⟨0,0,0⟩))).any
      (fun s => decide (s.phase = .outside ∧ s.ticks.links.first = some 5 ∧ s.due 5 = 10 ∧
        s.ticks.loaded = 0 ∧ s.ticks.deadline = 1000 ∧ s.active 5 ≠ none)) = true := by
    decide +kernel
  obtain ⟨s,hreach,hphase,hfirst,hdue,hload,hdead,hact⟩ := run_reaches timelyTest_timely hrun
  refine ⟨s,hreach,hphase,hfirst,hdue,hload,hdead,?_⟩
  intro harm
  have hres := harm hphase 5 hact
  omega

end Libogc.Decrementer
