import Libogc.Library.RestingRun
import Libogc.Card.Status

/-!
# The card at work

What happens after a call has returned: interrupts of the transfer, of the
card and of its removal, the timeout, callbacks one by one, and the other
users of the EXI channel.
-/

set_option autoImplicit false

namespace Libogc.CardSystem
open ByteStore CardLayout CardControl CardCallbacks

inductive Status
  | good | bad | lost
  deriving DecidableEq

inductive Action
  | dispatch (e : Env)
  | txDone (e : Env)
  | exiIrq (status : Status) (e : Env)
  | timeout
  | remove
  | otherLock
  | otherWait (takes : Bool)
  | otherUnlock (probe : Bool)

def dispatch (e : Env) (s : Card) : Option Card :=
  match s.pending with
  | [] => none
  | (cb,ret)::rest =>
    let s := callback e ret { s with pending := [] } cb
    some { s with pending := s.pending++rest }

def transferred (e : Env) (c : Command) (p : Ptr) (s : Card) : Card :=
  match c.op with
  | .segment => if e.probe then putBytes s p (bytesAt s.flash c.addr) readSize else s
  | .page => { s with armed := some (.program c.addr (getBytes s p)) }
  | _ => s

def txHandler (e : Env) (s : Card) : Card :=
  let s := letGo e s
  match s.txCb with
  | none => s
  | some cb => later (some cb) (if e.probe then errorReady else errorNoCard)
      { s with txCb := none, failed := s.failed || !e.probe }

def callExi (ret : ℤ) (s : Card) : Card :=
  match s.exiCb with
  | none => s
  | some cb => later (some cb) ret { s with exiCb := none, failed := s.failed || decide (ret < 0) }

def worked (s : Card) : Option Work → Card
  | none => s
  | some (.erase a) => { s with flash := fill a s.geo.sector 255 s.flash }
  | some (.program a d) => { s with flash := blit d 0 a 128 s.flash }

def exiHandler (status : Status) (e : Env) (s : Card) : Card :=
  let w := s.armed
  let s := { s with alarm := false, armed := none }
  if !s.attached then s
  else
    match exiLock false s with
    | (false, s) => callExi errorFatal s
    | (true, s) =>
      match status with
      | .good => callExi errorReady (exiUnlock e.woken (worked s w))
      | .lost => callExi errorNoCard (exiUnlock e.woken s)
      | .bad =>
        let s := { s with cmdRetries := dec32 s.cmdRetries }
        if 0 < s.cmdRetries then orElse (retry e s) callExi
        else callExi errorIOError (exiUnlock e.woken s)

def timeoutHandler (s : Card) : Card :=
  let s := { s with alarm := false }
  if s.attached then callExi errorIOError { s with exiHandler := false } else s

def extHandler (s : Card) : Card :=
  if s.attached then
    let s := callExi errorNoCard { s with attached := false, exiHandler := false, alarm := false }
    later s.extCb errorNoCard { s with extCb := none }
  else s

/-- Interrupts and threads run when no callback is under way. The card's own
interrupt is masked while the channel is locked, that of its removal while it
is selected. -/
def step : Action → Card → Option Card
  | .dispatch e, s => dispatch e s
  | .txDone e, s =>
    if s.pending ≠ [] then none
    else
      match s.dma with
      | none => none
      | some (c,p) => some (txHandler e (transferred e c p { s with dma := none }))
  | .exiIrq status e, s =>
    if s.pending = [] ∧ s.armed.isSome ∧ s.exiHandler = true ∧ s.lock = none then
      some (exiHandler status e s)
    else none
  | .timeout, s => if s.pending = [] ∧ s.alarm = true then some (timeoutHandler s) else none
  | .remove, s => if s.pending = [] ∧ s.selected = false then some (extHandler s) else none
  | .otherLock, s =>
    if s.pending = [] ∧ s.lock = none then some { s with lock := some .other } else none
  | .otherWait takes, s =>
    if s.pending = [] ∧ s.lock ≠ none ∧ s.waiters.length < 32 then
      some { s with waiters := s.waiters++[.other takes] }
    else none
  | .otherUnlock probe, s =>
    if s.pending = [] ∧ s.lock = some .other then some (exiUnlock probe s) else none

/-- What comes next while nothing is refused and nobody interferes. -/
def nextAction (now : ℕ) (s : Card) : Option Action :=
  if s.pending ≠ [] then some (.dispatch (fine now))
  else if s.dma.isSome then some (.txDone (fine now))
  else if s.armed.isSome then some (.exiIrq .good (fine now))
  else none

def advance (now : ℕ) (s : Card) : Option Card := (nextAction now s).bind (step · s)

end Libogc.CardSystem
