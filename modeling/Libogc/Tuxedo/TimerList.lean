import Libogc.Tuxedo.TimerStep

/-!
# The list of the tick tasks

Runs in which the active tasks are always due within half of the range of each
other. In every state the links hold exactly the active tasks, each once and in
the order of their targets, and the callbacks that have been called are, for
each start, the ones of its schedule and no others.
-/

set_option autoImplicit false

namespace Libogc.TimerList
open GuardedReach LinkedChain TickTask TimerInvariant List Option
open TimerStep

def boundedStep (a : ℕ × TimerAction) (s : Timers) : Option Timers := timerStep a.1 a.2 s

def Near (a : ℕ × TimerAction) (s : Timers) : Prop :=
  TimerOk a.2 s ∧ ∀ s', boundedStep a s = some s' → Spread s'

theorem init_spread (next : ℕ → Option ℕ) (task : ℕ → KTickTask) :
    Spread (timersInit next task) := by
  intro a b ha
  simp [timersInit] at ha

variable {s : Timers}

theorem reach_timerInv {next : ℕ → Option ℕ} {task : ℕ → KTickTask}
    (h : Reach boundedStep Near (timersInit next task) s) : (∃ l, TimerInv s l) ∧ Spread s := by
  refine reach_invariant (P := fun s => (∃ l, TimerInv s l) ∧ Spread s)
    ⟨⟨[],init_timerInv next task⟩,init_spread next task⟩ ?_ h
  rintro a s s' ⟨⟨l,hi⟩,-⟩ hok hs
  exact ⟨timer_inv hi hok.1 hs (hok.2 s' hs),hok.2 s' hs⟩

theorem sorted_targets {l : List ℕ} (h : TimerInv s l) (hs : Spread s) : l.Pairwise (fun a b =>
      kTickIsSequential (s.ticks.task b).target (s.ticks.task a).target = false) := by
  refine Pairwise.imp_of_mem ?_ h.sorted
  intro a b ha hb hab
  have ha' := (h.mem a).mp ha
  have hb' := (h.mem b).mp hb
  rw [target_eq h ha', target_eq h hb', Bool.eq_false_iff, ne_eq,
    sequential_iff (hs b a hb' ha') (hs a b ha' hb')]
  omega

theorem fired_notEarly {σ : Start} {fs : List Firing} (h : FiredAs σ fs) {j : ℕ} {f : Firing}
    (hf : fs[j]? = some f) (hnear : σ.dueAt j < f.now+halfRange) : σ.dueAt j ≤ f.now := by
  obtain ⟨-,-,htarget,hseq⟩ := h.each j f hf
  by_contra hlt
  rw [htarget] at hseq
  have htrue := (sequential_iff (by omega) hnear).mpr (by omega)
  simp [htrue] at hseq

structure Orderly (s : Timers) : Prop where
  list : ∃ l, s.ticks.links.Holds l ∧ l.Nodup ∧ (∀ t, t ∈ l ↔ s.active t ≠ none) ∧
    l.Pairwise (fun a b =>
      kTickIsSequential (s.ticks.task b).target (s.ticks.task a).target = false)
  known : ∀ f ∈ s.log, f.serial < s.starts.length
  fired : ∀ i σ, s.starts[i]? = some σ → FiredAs σ (firings i s.log)
  notEarly : ∀ i σ, s.starts[i]? = some σ → ∀ j f, (firings i s.log)[j]? = some f →
    σ.dueAt j < f.now+halfRange → σ.dueAt j ≤ f.now
  returns : ∃ bound, ∀ n, bound ≤ n → ∀ a, ∃ s', timerStep n a s = some s'

theorem timer_list {next : ℕ → Option ℕ} {task : ℕ → KTickTask} {s : Timers}
    (h : Reach boundedStep Near (timersInit next task) s) : Orderly s := by
  obtain ⟨⟨l,hi⟩,hs⟩ := reach_timerInv h
  refine ⟨⟨l,hi.holds,hi.nodup,hi.mem,sorted_targets hi hs⟩,hi.known,hi.fired,?_,?_⟩
  · intro i σ hσ j f hf
    exact fired_notEarly (hi.fired i σ hσ) hf
  · exact ⟨l.length+1,fun n hn a => timer_returns hi hn a⟩

/-! A test for runs of small tick counts. -/

def timerAdmits : TimerAction → Timers → Bool
  | .start _ fn _ _ now later, s =>
    decide (fn ≠ 0 ∧ s.clock ≤ now ∧ now ≤ later ∧ s.phase ≠ .checking)
  | .stop _ now, s => decide (s.clock ≤ now ∧ s.phase ≠ .checking)
  | .run, s => decide (s.phase = .outside)
  | .check now later, s => decide (s.clock ≤ now ∧ now ≤ later ∧ s.phase = .checking)
  | .ret, s => decide (s.phase ≠ .outside ∧ s.phase ≠ .checking)
  | .scribble t _ _, s => decide (s.active t = none)

theorem timerAdmits_ok {a : TimerAction} (h : timerAdmits a s = true) : TimerOk a s := by
  cases a with
  | ret =>
    simp only [timerAdmits, decide_eq_true_eq] at h
    cases hp : s.phase with
    | outside => exact absurd hp h.1
    | checking => exact absurd hp h.2
    | calling fn t => exact ⟨fn,t,hp⟩
  | _ => simpa [timerAdmits, TimerOk] using h

def isSmall (s : Timers) : Bool :=
  s.starts.all (fun σ => decide (σ.dueAt s.log.length < halfRange))

theorem isSmall_due (h : isSmall s = true) (t : ℕ) : s.due t < halfRange := by
  have hpos : 0 < halfRange := by decide
  unfold Timers.due
  cases ha : s.active t with
  | none => exact hpos
  | some i =>
    cases hσ : s.starts[i]? with
    | none => simpa [hσ] using hpos
    | some σ =>
      have hall := of_decide_eq_true (all_eq_true.mp h σ (mem_of_getElem? hσ))
      have hle : (firings i s.log).length ≤ s.log.length := length_filter_le _ _
      have hmono := Nat.mul_le_mul_right σ.period.toNat hle
      unfold Start.dueAt at hall
      simp only [hσ, bind_some, map_some, getD_some, Start.dueAt]
      omega

def nearTest (a : ℕ × TimerAction) (s : Timers) : Bool :=
  timerAdmits a.2 s && (boundedStep a s).all isSmall

theorem nearTest_near (a : ℕ × TimerAction) (s : Timers) (h : nearTest a s = true) : Near a s := by
  simp only [nearTest, Bool.and_eq_true] at h
  refine ⟨timerAdmits_ok h.1,?_⟩
  intro s' hs' u v _ _
  have hsmall : isSmall s' = true := by simpa [hs'] using h.2
  have hu := isSmall_due hsmall u
  omega

/-- A periodic task fires twice, and its first callback stops one task and
starts it again. -/
theorem timer_list_periodic : ∃ s, Reach boundedStep Near
    (timersInit (fun t => some t) (fun _ => ⟨7,0,0⟩)) s ∧ Orderly s ∧
    s.log.map (fun f => (f.task, f.now, f.target)) = [(6,30,5), (6,31,25), (5,45,40)] ∧
    s.ticks.links.first = some 6 := by
  have hrun : (runChecked boundedStep nearTest [(9,.start 5 1 10 0 0 0), (9,.start 6 2 5 20 0 0),
      (9,.run), (9,.check 30 30), (9,.stop 5 30), (9,.start 5 1 10 0 30 30), (9,.ret),
      (9,.check 31 31), (9,.ret), (9,.check 32 33), (9,.run), (9,.check 45 45)]
      (timersInit (fun t => some t) (fun _ => ⟨7,0,0⟩))).any (fun s => decide
        (s.log.map (fun f => (f.task, f.now, f.target)) = [(6,30,5), (6,31,25), (5,45,40)] ∧
          s.ticks.links.first = some 6)) = true := by decide +kernel
  obtain ⟨s,hreach,hlog,hfirst⟩ := run_reaches nearTest_near hrun
  exact ⟨s,hreach,timer_list hreach,hlog,hfirst⟩

end Libogc.TimerList
