import Mathlib.Data.Option.Basic

/-!
# Runs whose steps meet a guard

A system is a partial step function on labels. The guard states which labels
may be issued in which states, so one step function serves several bodies of
callers, and a stronger guard reaches fewer states.
-/

set_option autoImplicit false

namespace Libogc.GuardedReach

variable {S A : Type*}

inductive Reach (step : A → S → Option S) (ok : A → S → Prop) (init : S) : S → Prop
  | start : Reach step ok init init
  | step {s s' : S} {a : A} (h : Reach step ok init s) (hok : ok a s)
      (hs : step a s = some s') : Reach step ok init s'

variable {step : A → S → Option S} {ok ok' : A → S → Prop} {init : S}

/-- The invariant rule: a property of the first state that every admitted
step keeps holds in every state of every run. -/
theorem reach_invariant {P : S → Prop} (h0 : P init)
    (hstep : ∀ a s s', P s → ok a s → step a s = some s' → P s')
    {s : S} (h : Reach step ok init s) : P s := by
  induction h with
  | start => exact h0
  | step _ hok hs ih => exact hstep _ _ _ ih hok hs

theorem reach_mono (hm : ∀ a s, ok a s → ok' a s) {s : S}
    (h : Reach step ok init s) : Reach step ok' init s := by
  induction h with
  | start => exact .start
  | step _ hok hs ih => exact .step ih (hm _ _ hok) hs

theorem reach_trans {s t : S} (h : Reach step ok init s) (h' : Reach step ok s t) :
    Reach step ok init t := by
  induction h' with
  | start => exact h
  | step _ hok hs ih => exact .step ih hok hs

def runChecked (step : A → S → Option S) (check : A → S → Bool) : List A → S → Option S
  | [], s => some s
  | a::as, s => if check a s then (step a s).bind (runChecked step check as) else none

theorem runChecked_reach {check : A → S → Bool}
    (hc : ∀ a s, check a s = true → ok a s) (as : List A) (s t : S)
    (h : runChecked step check as s = some t) : Reach step ok s t := by
  induction as generalizing s with
  | nil =>
    obtain rfl : s = t := by simpa [runChecked] using h
    exact .start
  | cons a as ih =>
    rw [runChecked] at h
    split at h
    · rename_i ha
      obtain ⟨u,hu,ht⟩ := Option.bind_eq_some_iff.mp h
      exact reach_trans (.step .start (hc a s ha) hu) (ih u ht)
    · exact absurd h (by simp)

theorem check_and {check check' : A → S → Bool} (h : ∀ a s, check a s = true → ok a s)
    (h' : ∀ a s, check' a s = true → ok' a s) (a : A) (s : S)
    (hb : (check a s && check' a s) = true) : ok a s ∧ ok' a s := by
  rw [Bool.and_eq_true] at hb
  exact ⟨h a s hb.1,h' a s hb.2⟩

theorem run_reaches {check : A → S → Bool} {P : S → Prop} [DecidablePred P] {as : List A}
    (hc : ∀ a s, check a s = true → ok a s)
    (h : (runChecked step check as init).any (fun s => decide (P s)) = true) :
    ∃ s, Reach step ok init s ∧ P s := by
  obtain ⟨s,hs,hd⟩ := (Option.any_eq_true _ _).mp h
  exact ⟨s,runChecked_reach hc _ _ _ hs,of_decide_eq_true hd⟩

/-- A run that ends in `P` and goes on under another guard to `Q`. -/
theorem run_continues {check check' : A → S → Bool} {P Q : S → Prop} [DecidablePred P]
    [DecidablePred Q] {as as' : List A} (hc : ∀ a s, check a s = true → ok a s)
    (hc' : ∀ a s, check' a s = true → ok' a s)
    (h : (runChecked step check as init).any (fun s => decide (P s) &&
      (runChecked step check' as' s).any (fun t => decide (Q t))) = true) :
    ∃ s t, Reach step ok init s ∧ P s ∧ Reach step ok' s t ∧ Q t := by
  obtain ⟨s,hs,hd⟩ := (Option.any_eq_true _ _).mp h
  rw [Bool.and_eq_true] at hd
  obtain ⟨t,ht,hq⟩ := run_reaches hc' hd.2
  exact ⟨s,t,runChecked_reach hc _ _ _ hs,of_decide_eq_true hd.1,ht,hq⟩

end Libogc.GuardedReach
