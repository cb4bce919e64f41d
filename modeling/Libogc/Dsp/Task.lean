import Mathlib.Data.Nat.Notation
import Mathlib.Logic.Function.Basic

/-!
# Tasks of the DSP

The task list of `dsp.c` and the handler of the task mails. A task is its
address, and the list is linked through `next` and `prev` with NULL at both
ends. What is sent to the DSP is recorded: the mails that boot a task, those
that hand over the image of a task, and the single control words. A result
`none` is a NULL pointer that is followed, or a list without an end. The calls
that `done_cb` makes are run where the handler calls it; the other callbacks
are called last, so what they do comes after the handler.
-/

set_option autoImplicit false

namespace Libogc.DspTask

inductive TaskState where
  | init
  | run
  | yield
  | done
  deriving DecidableEq, Repr

inductive TaskCb where
  | init
  | res
  | done
  | req
  deriving DecidableEq, Repr

/-- `dsptask_t`; `set` says which of its callbacks are not NULL. -/
structure Task where
  state : TaskState
  prio : ℕ
  attach : Bool
  cancel : Bool
  set : TaskCb → Bool
  next : Option ℕ
  prev : Option ℕ

structure Dsp where
  task : ℕ → Task
  first : Option ℕ
  last : Option ℕ
  curr : Option ℕ
  rude : Option ℕ
  rudePend : Bool

def dspInit (task : ℕ → Task) : Dsp := ⟨task,none,none,none,none,false⟩

/-- `exec` saves the first task, if any, and loads the image of the second with
its initial or its resume vector. -/
inductive Sent where
  | boot (t : ℕ)
  | exec (save : Option ℕ) (hire : ℕ) (initial : Bool)
  | mail (w : ℕ)
  | call (cb : TaskCb) (t : ℕ)
  deriving DecidableEq, Repr

def setTask (t : ℕ) (x : Task) (s : Dsp) : Dsp := { s with task := Function.update s.task t x }

def setNext (t : ℕ) (n : Option ℕ) (s : Dsp) : Dsp := setTask t { s.task t with next := n } s

def setPrev (t : ℕ) (p : Option ℕ) (s : Dsp) : Dsp := setTask t { s.task t with prev := p } s

def setState (t : ℕ) (x : TaskState) (s : Dsp) : Dsp := setTask t { s.task t with state := x } s

/-! The list. -/

def findBehind (prio : ℕ) : ℕ → Option ℕ → Dsp → Option (Option ℕ)
  | 0, _, _ => none
  | _+1, none, _ => some none
  | n+1, some t, s =>
    if prio < (s.task t).prio then some (some t) else findBehind prio n (s.task t).next s

def insertBefore (task t : ℕ) (s : Dsp) : Dsp :=
  let s := setPrev task (s.task t).prev s
  let s := setPrev t (some task) s
  let s := setNext task (some t) s
  match (s.task task).prev with
  | none => { s with first := some task }
  | some p => setNext p (some task) s

def appendTask (task last : ℕ) (s : Dsp) : Dsp :=
  let s := setNext last (some task) s
  let s := setNext task none s
  let s := setPrev task (some last) s
  { s with last := some task }

def dspInserttask (n task : ℕ) (s : Dsp) : Option Dsp :=
  match s.first with
  | none => some (setPrev task none (setNext task none
      { s with curr := some task, last := some task, first := some task }))
  | some f =>
    match findBehind (s.task task).prio n (some f) s, s.last with
    | some (some t), _ => some (insertBefore task t s)
    | some none, some last => some (appendTask task last s)
    | _, _ => none

def clearTask (task : ℕ) (s : Dsp) : Dsp :=
  setTask task { s.task task with state := .done, attach := false, cancel := false } s

def dspRemovetask (task : ℕ) (s : Dsp) : Option Dsp :=
  let s := clearTask task s
  if s.first = some task then
    match (s.task task).next with
    | some n => some (setPrev n none { s with first := some n })
    | none => some { s with curr := none, last := none, first := none }
  else if s.last = some task then
    match (s.task task).prev with
    | some p => some { setNext p none { s with last := some p } with curr := s.first }
    | none => none
  else
    match (s.task task).prev, (s.task task).next with
    | some p, some n => some (setPrev n (some p) (setNext p (some n) { s with curr := some n }))
    | _, _ => none

/-! The calls. -/

inductive Call where
  | add (t : ℕ)
  | assert (t : ℕ)
  | cancel (t : ℕ)
  deriving DecidableEq, Repr

def dspAddTask (n t : ℕ) (s : Dsp) : Option (List Sent × Dsp) :=
  (dspInserttask n t s).map (fun s =>
    let s := setTask t { s.task t with state := .init, attach := true, cancel := false } s
    (if s.first = some t then [.boot t] else [], s))

def dspCancelTask (t : ℕ) (s : Dsp) : Dsp := setTask t { s.task t with cancel := true } s

/-- The DSP is interrupted if its task runs, which is no mail. -/
def dspAssertTask (t : ℕ) (s : Dsp) : Option Dsp :=
  if s.curr = some t then some { s with rude := some t, rudePend := true }
  else
    match s.curr with
    | none => none
    | some c =>
      some (if (s.task t).prio < (s.task c).prio then { s with rude := some t, rudePend := true }
        else s)

def dspCall (n : ℕ) (c : Call) (s : Dsp) : Option (List Sent × Dsp) :=
  match c with
  | .add t => dspAddTask n t s
  | .assert t => (dspAssertTask t s).map (fun s => ([], s))
  | .cancel t => some ([], dspCancelTask t s)

def dspCalls : ℕ → List Call → Dsp → Option (List Sent × Dsp)
  | _, [], s => some ([], s)
  | n, c::cs, s =>
    (dspCall n c s).bind (fun r => (dspCalls (n+1) cs r.2).map (fun q => (r.1 ++ q.1, q.2)))

/-! The mails. -/

inductive Mail where
  | init
  | resume
  | yield
  | done
  | req
  deriving DecidableEq, Repr

def calls (cb : TaskCb) (c : ℕ) (s : Dsp) : List Sent :=
  if (s.task c).set cb then [.call cb c] else []

def execTask (save : Option ℕ) (hire : ℕ) (s : Dsp) : Sent :=
  .exec save hire (decide ((s.task hire).state = .init))

def switchTo (c hire : ℕ) (s : Dsp) : List Sent × Dsp :=
  ([.mail 0xCDD10001, execTask (some c) hire s], { setState c .yield s with curr := some hire })

def dspYield (c : ℕ) (s : Dsp) : Option (List Sent × Dsp) :=
  if s.rudePend then
    if s.rude = some c then
      some (.mail 0xCDD10003::calls .res c s, { s with rude := none, rudePend := false })
    else
      s.rude.map (fun r =>
        let q := switchTo c r s
        (q.1, { q.2 with rude := none, rudePend := false }))
  else
    match (s.task c).next with
    | none =>
      if s.first = some c then some (.mail 0xCDD10003::calls .res c s, s)
      else s.first.map (fun f => switchTo c f s)
    | some n => some (switchTo c n s)

/-- What is left to do for a done task once its callback has returned. The
branch was chosen before the callback. -/
inductive Ending where
  | rude
  | single
  | last
  | inner
  deriving DecidableEq, Repr

def dspEnding (c : ℕ) (s : Dsp) : Ending :=
  if s.rudePend then .rude
  else if (s.task c).next = none then if s.first = some c then .single else .last
  else .inner

def dspFinish (e : Ending) (c : ℕ) (s : Dsp) : Option (List Sent × Dsp) :=
  match e with
  | .rude =>
    s.rude.bind (fun h => (dspRemovetask c s).map (fun u =>
      ([.mail 0xCDD10001, execTask none h s],
        { u with curr := some h, rudePend := false, rude := none })))
  | .single =>
    (dspRemovetask c (setState c .done s)).map (fun u => ([.mail 0xCDD10002], u))
  | .last =>
    let s := setState c .done s
    s.first.bind (fun f => s.last.bind (fun l =>
      (dspRemovetask l { s with curr := some f }).map (fun u =>
        ([.mail 0xCDD10001, execTask none f s], u))))
  | .inner =>
    let s := setState c .done s
    (s.task c).next.bind (fun h => (s.task h).prev.bind (fun p =>
      (dspRemovetask p { s with curr := some h }).map (fun u =>
        ([.mail 0xCDD10001, execTask none h s], u))))

def doneCalls (c : ℕ) (cs : List Call) (s : Dsp) : List Call :=
  if (s.task c).set .done then cs else []

def dspDone (n c : ℕ) (cs : List Call) (s : Dsp) : Option (List Sent × Dsp) :=
  (dspCalls n (doneCalls c cs s) s).bind (fun r => r.2.curr.bind (fun c' =>
    (dspFinish (dspEnding c s) c' r.2).map (fun q => (calls .done c s ++ r.1 ++ q.1, q.2))))

/-- A task that is cancelled is done when it yields. -/
def received (m : Mail) (c : ℕ) (s : Dsp) : Mail :=
  if (s.task c).cancel && decide (m = .yield) then .done else m

/-- `__dsp_def_taskcb`. -/
def dspTaskcb (n : ℕ) (m : Mail) (cs : List Call) (s : Dsp) : Option (List Sent × Dsp) :=
  s.curr.bind (fun c =>
    match received m c s with
    | .init => some (calls .init c s, setState c .run s)
    | .resume => some (calls .res c s, setState c .run s)
    | .yield => dspYield c s
    | .done => dspDone n c cs s
    | .req => some (calls .req c s, s))

end Libogc.DspTask
