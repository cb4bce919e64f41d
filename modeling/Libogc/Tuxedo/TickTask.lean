import Libogc.Library.GuardedReach
import Libogc.Library.LinkedChain
import Mathlib.Data.Int.Basic

/-!
# Tick tasks

The tasks of the tick driver are in an intrusive list, in the order of their
64-bit targets, and the decrementer is loaded for the first of them. The
searches in the list are given a bound on their steps. `Timers` adds the phase
in which `KTickTaskRun` is, since its callbacks start and stop tasks while it
goes on, and three records that no action reads: the starts so far, the start
that a task is active with, and the callbacks that have been called. Tick
counts that are read are natural numbers and are cut to 64 bits where they are
used.
-/

set_option autoImplicit false

namespace Libogc.TickTask
open Function GuardedReach LinkedChain

structure KTickTask where
  fn : ℕ
  target : BitVec 64
  period : BitVec 64
  deriving DecidableEq, Repr

/-- The list and the fields of all task objects, the tick count at the last
load of the decrementer and the one at which it has counted down. -/
structure Ticks where
  links : Links ℕ
  task : ℕ → KTickTask
  loaded : ℕ
  deadline : ℕ

def kTickIsSequential (lhs rhs : BitVec 64) : Bool := decide (0 < (rhs-lhs).toInt)

def tickCount (now : ℕ) : BitVec 64 := BitVec.ofNat 64 now

def int32Max : ℕ := 0x7fffffff

def setTask (t : ℕ) (task : KTickTask) (k : Ticks) : Ticks :=
  { k with task := update k.task t task }

/-- `KTickTaskGetInsertPosition` is the search that `enqueue` makes, and
`KTickTaskGetPrevious` the one of `dequeue`. -/
def kTickTaskEnqueue (n t : ℕ) (k : Ticks) : Option Ticks :=
  (k.links.enqueue (fun cur => kTickIsSequential (k.task cur).target (k.task t).target) t n).map
    (fun links => { k with links := links })

def kTickTaskDequeue (n t : ℕ) (k : Ticks) : Option Ticks :=
  (k.links.dequeue t n).map (fun links => { k with links := links })

def decrementer (diff : ℤ) : ℕ :=
  if diff < 0 then 0 else if diff ≤ int32Max then diff.toNat else int32Max

def kTickTaskReschedule (now : ℕ) (k : Ticks) : Ticks :=
  match k.links.first with
  | none => k
  | some head => { k with
    loaded := now
    deadline := now+decrementer ((k.task head).target-tickCount now).toInt }

def kTickTaskStart (n t fn : ℕ) (delay period : BitVec 64) (now later : ℕ) (k : Ticks) :
    Option Ticks :=
  let old := k.links.first
  (if (k.task t).fn ≠ 0 then kTickTaskDequeue n t k else some k).bind (fun k =>
    (kTickTaskEnqueue n t (setTask t ⟨fn,tickCount now+delay,period⟩ k)).map (fun k =>
      if k.links.first ≠ old then kTickTaskReschedule later k else k))

def clearFn (t : ℕ) (k : Ticks) : Ticks := setTask t { k.task t with fn := 0 } k

def kTickTaskStop (n t now : ℕ) (k : Ticks) : Option Ticks :=
  if (k.task t).fn = 0 then some k
  else (kTickTaskDequeue n t k).map (fun k' =>
    clearFn t (if k.links.first = some t then kTickTaskReschedule now k' else k'))

def dueTask (now : ℕ) (k : Ticks) : Option ℕ :=
  k.links.first.filter (fun cur => !kTickIsSequential (tickCount now) (k.task cur).target)

/-- The body of the loop of `KTickTaskRun` up to the callback. -/
def popTask (n cur : ℕ) (k : Ticks) : Option Ticks :=
  let k := { k with links := { k.links with first := k.links.next cur } }
  if (k.task cur).period ≠ 0 then
    kTickTaskEnqueue n cur
      (setTask cur { k.task cur with target := (k.task cur).target+(k.task cur).period } k)
  else some (clearFn cur k)

inductive Phase where
  | outside
  | checking
  | calling (fn t : ℕ)
  deriving DecidableEq, Repr

structure Start where
  task : ℕ
  fn : ℕ
  now : ℕ
  delay : BitVec 64
  period : BitVec 64
  deriving DecidableEq, Repr

structure Firing where
  serial : ℕ
  task : ℕ
  fn : ℕ
  now : ℕ
  target : BitVec 64
  deriving DecidableEq, Repr

structure Timers where
  ticks : Ticks
  phase : Phase
  clock : ℕ
  starts : List Start
  active : ℕ → Option ℕ
  log : List Firing

def timersInit (next : ℕ → Option ℕ) (task : ℕ → KTickTask) : Timers where
  ticks := ⟨⟨next,none⟩,task,0,0⟩
  phase := .outside
  clock := 0
  starts := []
  active _ := none
  log := []

inductive TimerAction where
  | start (t fn : ℕ) (delay period : BitVec 64) (now later : ℕ)
  | stop (t now : ℕ)
  | run
  | check (now later : ℕ)
  | ret
  | scribble (t : ℕ) (task : KTickTask) (next : Option ℕ)
  deriving DecidableEq, Repr

def started (σ : Start) (later : ℕ) (s : Timers) (k : Ticks) : Timers :=
  { s with
    ticks := k
    clock := later
    starts := s.starts ++ [σ]
    active := update s.active σ.task (some s.starts.length) }

def stopped (t now : ℕ) (s : Timers) (k : Ticks) : Timers :=
  { s with ticks := k, clock := now, active := update s.active t none }

def firingOf (cur now : ℕ) (s : Timers) : Firing :=
  ⟨(s.active cur).getD 0,cur,(s.ticks.task cur).fn,now,(s.ticks.task cur).target⟩

def fired (cur now later : ℕ) (s : Timers) (k : Ticks) : Timers :=
  { s with
    ticks := k
    phase := .calling (s.ticks.task cur).fn cur
    clock := later
    active := if (s.ticks.task cur).period ≠ 0 then s.active
      else update s.active cur none
    log := s.log ++ [firingOf cur now s] }

def checked (n now later : ℕ) (s : Timers) : Option Timers :=
  match dueTask now s.ticks with
  | some cur => (popTask n cur s.ticks).map (fired cur now later s)
  | none => some { s with
    ticks := kTickTaskReschedule later s.ticks, phase := .outside, clock := later }

def scribbled (t : ℕ) (task : KTickTask) (next : Option ℕ) (s : Timers) : Timers :=
  { s with ticks := { setTask t task s.ticks with
    links := { s.ticks.links with next := update s.ticks.links.next t next } } }

def timerStep (n : ℕ) : TimerAction → Timers → Option Timers
  | .start t fn delay period now later, s =>
    (kTickTaskStart n t fn delay period now later s.ticks).map
      (started ⟨t,fn,now,delay,period⟩ later s)
  | .stop t now, s => (kTickTaskStop n t now s.ticks).map (stopped t now s)
  | .run, s => some { s with phase := .checking }
  | .check now later, s => checked n now later s
  | .ret, s => some { s with phase := .checking }
  | .scribble t task next, s => some (scribbled t task next s)

/-- Tick counts do not go back, callbacks are not `NULL`, `KTickTaskRun` is not
interrupted, and the memory of a task is its owner's while it is not active. -/
def TimerOk : TimerAction → Timers → Prop
  | .start _ fn _ _ now later, s =>
    fn ≠ 0 ∧ s.clock ≤ now ∧ now ≤ later ∧ s.phase ≠ .checking
  | .stop _ now, s => s.clock ≤ now ∧ s.phase ≠ .checking
  | .run, s => s.phase = .outside
  | .check now later, s => s.clock ≤ now ∧ now ≤ later ∧ s.phase = .checking
  | .ret, s => ∃ fn t, s.phase = .calling fn t
  | .scribble t _ _, s => s.active t = none

def firings (i : ℕ) (log : List Firing) : List Firing :=
  log.filter (fun f => decide (f.serial = i))

/-- The tick count that the target of a start stands for after `k` firings. -/
def Start.dueAt (σ : Start) (k : ℕ) : ℕ := σ.now+σ.delay.toNat+k*σ.period.toNat

def Timers.due (s : Timers) (t : ℕ) : ℕ :=
  ((s.active t).bind (fun i =>
    s.starts[i]?.map (fun σ => σ.dueAt (firings i s.log).length))).getD 0

end Libogc.TickTask
