import Libogc.Library.PrefixInsert

/-!
# The tuxedo thread kernel

Threads, wait queues and mutexes as `thread_priv.h`, `thread.c` and `sync.c`
compute them. A thread, a mutex and a token are addresses. Every field of
`struct KThread` is a function of the thread, an intrusive list is the list
of its nodes, and each function runs with interrupts locked, so it is one
transition. A result `none` is a call that does not return: a NULL pointer
is followed, or the code waits in an endless loop.
-/

set_option autoImplicit false

namespace Libogc.ThreadKernel
open Function PrefixInsert

abbrev Tid := ℕ

inductive KThrState where
  | uninit
  | finished
  | running
  | waiting
  | waitingMutex
  deriving DecidableEq, Repr

/-- The address of a queue: the `waiters` field of a thread, one of the static
queues of the kernel, or a queue that belongs to a client. -/
inductive KThrQueue where
  | waiters (t : Tid)
  | joinQueue
  | sleepQueue
  | cvWaitQueue
  | mailboxRecvQueue
  | client (n : ℕ)
  deriving DecidableEq, Repr

inductive KThrUnblockMode where
  | any
  | byValue
  | byMask
  deriving DecidableEq, Repr

structure Kernel where
  state : Tid → KThrState
  suspend : Tid → ℕ
  prio : Tid → ℕ
  baseprio : Tid → ℕ
  waitQueue : Tid → Option KThrQueue
  token : Tid → ℕ
  rc : Tid → ℤ
  firstThread : List Tid
  members : KThrQueue → List Tid
  owner : ℕ → Option Tid
  self : Tid
  nextCtx : Option Tid
  inExcpt : Bool

def mainPrio : ℕ := 0x3f
def minPrio : ℕ := 0x7f

def mainThread : Tid := 0
def idleThread : Tid := 1

def kThreadInit : Kernel where
  state t := if t = mainThread ∨ t = idleThread then .running else .uninit
  suspend _ := 0
  prio t := if t = mainThread then mainPrio else if t = idleThread then minPrio+1 else 0
  baseprio t := if t = mainThread then mainPrio else if t = idleThread then minPrio+1 else 0
  waitQueue _ := none
  token _ := 0
  rc _ := 0
  firstThread := [mainThread, idleThread]
  members _ := []
  owner _ := none
  self := mainThread
  nextCtx := none
  inExcpt := false

def u16 (n : ℕ) : ℕ := n % 65536

def setState (t : Tid) (s : KThrState) (k : Kernel) : Kernel :=
  { k with state := update k.state t s }

def setToken (t : Tid) (v : ℕ) (k : Kernel) : Kernel :=
  { k with token := update k.token t v }

def setOwner (m : ℕ) (o : Option Tid) (k : Kernel) : Kernel :=
  { k with owner := update k.owner m o }

def kThreadEnqueue (t : Tid) (k : Kernel) : Kernel :=
  { k with firstThread := insertAfter (fun c => decide (k.prio c ≤ k.prio t)) t k.firstThread }

def kThreadDequeue (t : Tid) (k : Kernel) : Kernel :=
  { k with firstThread := k.firstThread.erase t }

def kThreadFindRunnable (first : List Tid) (k : Kernel) : Option Tid :=
  first.find? (fun t => decide (k.state t = .running))

def kThrQueueInsert (q : KThrQueue) (t : Tid) (k : Kernel) : Kernel :=
  { k with
    members := update k.members q
      (insertAfter (fun c => decide (k.prio c ≤ k.prio t)) t (k.members q))
    waitQueue := update k.waitQueue t (some q) }

def kThrQueueRemove (q : KThrQueue) (t : Tid) (k : Kernel) : Kernel :=
  if k.waitQueue t = some q then
    { k with
      members := update k.members q ((k.members q).erase t)
      waitQueue := update k.waitQueue t none }
  else k

def kThrQueueTestUnblock (t : Tid) (mode : KThrUnblockMode) (ref : ℕ) (k : Kernel) : Bool :=
  match mode with
  | .any => true
  | .byValue => decide (k.token t = ref)
  | .byMask => decide (k.token t &&& ref ≠ 0)

/-- In an exception the choice is only remembered, and the better of two is
kept. Outside one the context of the chosen thread is loaded. -/
def kThreadSwitchTo (t : Tid) (k : Kernel) : Kernel :=
  if k.inExcpt then
    match k.nextCtx with
    | none => { k with nextCtx := some t }
    | some c => if k.prio t < k.prio c then { k with nextCtx := some t } else k
  else { k with self := t, nextCtx := none }

def kThreadReschedule (t : Option Tid) (k : Kernel) : Kernel :=
  match t with
  | none => k
  | some t => if k.prio t < k.prio k.self then kThreadSwitchTo t k else k

def switchToRunnable (k : Kernel) : Option Kernel :=
  (kThreadFindRunnable k.firstThread k).map (fun t => kThreadSwitchTo t k)

/-- The dynamic priority a thread should have: its own, or that of the first
thread waiting for it. -/
def expectedPrio (k : Kernel) (t : Tid) : ℕ :=
  match k.members (.waiters t) with
  | [] => k.baseprio t
  | w::_ => if k.prio w < k.baseprio t then k.prio w else k.baseprio t

def requeue (t : Tid) (p : ℕ) (k : Kernel) : Kernel :=
  let k := kThreadDequeue t k
  kThreadEnqueue t { k with prio := update k.prio t p }

/-- The loop of `KThreadUpdateDynamicPrio`, which follows the owners of the
mutexes that the threads on its way are blocked on. -/
def updateLoop : ℕ → Tid → Kernel → Option Kernel
  | 0, _, _ => none
  | n+1, t, k =>
    if k.prio t = expectedPrio k t then some k else
      let k := requeue t (expectedPrio k t) k
      if k.state t = .running then some k else
        match k.waitQueue t with
        | none => some k
        | some q =>
          let k := kThrQueueInsert q t (kThrQueueRemove q t k)
          if k.state t ≠ .waitingMutex then some k else
            match k.owner (k.token t) with
            | none => none
            | some o => updateLoop n o k

def kThreadUpdateDynamicPrio (t : Tid) (k : Kernel) : Option Kernel :=
  updateLoop (k.firstThread.length+1) t k

def kThreadPrepare (t : Tid) (prio : ℕ) (k : Kernel) : Kernel :=
  kThreadEnqueue t { k with
    state := update k.state t .waiting
    suspend := update k.suspend t 1
    prio := update k.prio t (prio &&& minPrio)
    baseprio := update k.baseprio t (prio &&& minPrio)
    waitQueue := update k.waitQueue t none
    token := update k.token t 0
    rc := update k.rc t 0
    members := update k.members (.waiters t) [] }

def kThreadResume (t : Tid) (k : Kernel) : Option Kernel :=
  if k.suspend t = 0 then some k else
    let k := { k with suspend := update k.suspend t (k.suspend t-1) }
    if k.suspend t ≠ 0 ∨ (k.waitQueue t).isSome then some k else
      let k := setState t .running k
      if t ≠ k.self then some (kThreadReschedule (some t) k) else
        match k.nextCtx with
        | none => none
        | some c => some (if k.prio t < k.prio c then { k with nextCtx := none } else k)

def kThreadSuspend (t : Tid) (k : Kernel) : Option Kernel :=
  let old := k.suspend t
  let k := { k with suspend := update k.suspend t (u16 (k.suspend t+1)) }
  if old ≠ 0 ∨ k.state t ≠ .running then some k else
    let k := { setState t .waiting k with waitQueue := update k.waitQueue t none }
    if t = k.self then switchToRunnable k
    else if k.nextCtx = some t then
      let next := kThreadFindRunnable k.firstThread k
      some { k with nextCtx := if next = some k.self then none else next }
    else some k

def kThreadSetPrio (t : Tid) (prio : ℕ) (k : Kernel) : Option Kernel :=
  let curprio := k.prio k.self
  let k := { k with baseprio := update k.baseprio t (prio &&& minPrio) }
  (kThreadUpdateDynamicPrio t k).map (fun k =>
    let next :=
      if t = k.self then
        if curprio < k.prio k.self then kThreadFindRunnable k.firstThread k else none
      else if k.state t = .running then some t else none
    kThreadReschedule next k)

def yieldNext (k : Kernel) : Option Tid :=
  match kThreadFindRunnable (k.firstThread.dropWhile (fun c => decide (c ≠ k.self))).tail k with
  | some t => if k.prio k.self < k.prio t then kThreadFindRunnable k.firstThread k else some t
  | none => kThreadFindRunnable k.firstThread k

def kThreadYield (k : Kernel) : Option Kernel :=
  (yieldNext k).map (fun t => if t = k.self then k else kThreadSwitchTo t k)

def enterQueue (q : KThrQueue) (s : KThrState) (token : ℕ) (t : Tid) (k : Kernel) : Kernel :=
  kThrQueueInsert q t (setToken t token (setState t s k))

/-- The part of `KThrQueueBlock` before the switch. The value returned after
it is the token of the thread when it runs again. -/
def kThrQueueBlock (q : KThrQueue) (token : ℕ) (k : Kernel) : Option Kernel :=
  switchToRunnable (enterQueue q .waiting token k.self k)

def unblockOne (q : KThrQueue) (mode : KThrUnblockMode) (ref : ℕ) (t : Tid) (k : Kernel) :
    Kernel :=
  let k := kThrQueueRemove q t k
  let k := setToken t (if mode = .byMask then k.token t &&& ref else 1) k
  if k.suspend t = 0 then setState t .running k else k

def unblockLoop (q : KThrQueue) (mode : KThrUnblockMode) (ref : ℕ) :
    ℤ → List Tid → Option Tid → Kernel → Option Tid × Kernel
  | _, [], resched, k => (resched, k)
  | max, cur::rest, resched, k =>
    if max = 0 then (resched, k)
    else if kThrQueueTestUnblock cur mode ref k then
      unblockLoop q mode ref (if 0 < max then max-1 else max) rest
        (if resched = none ∧ k.suspend cur = 0 then some cur else resched)
        (unblockOne q mode ref cur k)
    else unblockLoop q mode ref max rest resched k

def kThrQueueUnblockCommon (q : KThrQueue) (max : ℤ) (mode : KThrUnblockMode) (ref : ℕ)
    (k : Kernel) : Kernel :=
  let r := unblockLoop q mode ref max (k.members q) none k
  kThreadReschedule r.1 r.2

def kThrQueueUnblockOneByValue (q : KThrQueue) (ref : ℕ) : Kernel → Kernel :=
  kThrQueueUnblockCommon q 1 .byValue ref

def kThrQueueUnblockOneByMask (q : KThrQueue) (ref : ℕ) : Kernel → Kernel :=
  kThrQueueUnblockCommon q 1 .byMask ref

def kThrQueueUnblockAllByValue (q : KThrQueue) (ref : ℕ) : Kernel → Kernel :=
  kThrQueueUnblockCommon q (-1) .byValue ref

def kThrQueueUnblockAllByMask (q : KThrQueue) (ref : ℕ) : Kernel → Kernel :=
  kThrQueueUnblockCommon q (-1) .byMask ref

def kThrQueueCancel (q : KThrQueue) (t : Tid) (k : Kernel) : Kernel :=
  if k.state t ≠ .waiting ∨ k.waitQueue t ≠ some q then k else
    let k := setToken t 0 (kThrQueueRemove q t k)
    if k.suspend t = 0 then kThreadReschedule (some t) (setState t .running k) else k

def kThreadJoin (t : Tid) (k : Kernel) : Option Kernel :=
  if k.state t = .uninit ∨ k.state t = .finished then some k
  else kThrQueueBlock .joinQueue t k

def jumpToNext (k : Kernel) : Option Kernel :=
  (if k.nextCtx = none then kThreadFindRunnable k.firstThread k else k.nextCtx).map
    (fun t => { k with self := t, nextCtx := none, inExcpt := false })

/-- The exiting thread has cleared the recoverable bit, so the threads it
wakes are treated as in an exception, and the jump ends that mode. -/
def kThreadExit (rc : ℤ) (k : Kernel) : Option Kernel :=
  let self := k.self
  let k := kThreadDequeue self { k with inExcpt := true }
  let k := setState self .finished { k with rc := update k.rc self rc }
  jumpToNext (kThrQueueUnblockAllByValue .joinQueue self k)

def moveWaiter (t o : Tid) (cur : Tid) (k : Kernel) : Kernel :=
  kThrQueueInsert (.waiters o) cur (kThrQueueRemove (.waiters t) cur k)

def takeOver (t cur : Tid) (k : Kernel) : Kernel :=
  let k := kThrQueueRemove (.waiters t) cur k
  setState cur (if k.suspend cur = 0 then .running else .waiting) k

def removeWaiterLoop (t : Tid) (token : ℕ) :
    List Tid → Option Tid → Kernel → Option Tid × Kernel
  | [], next, k => (next, k)
  | cur::rest, next, k =>
    if k.token cur = token then
      match next with
      | none => removeWaiterLoop t token rest (some cur) (takeOver t cur k)
      | some o => removeWaiterLoop t token rest (some o) (moveWaiter t o cur k)
    else removeWaiterLoop t token rest next k

def kThreadRemoveWaiter (t : Tid) (token : ℕ) (k : Kernel) : Option (Option Tid × Kernel) :=
  match removeWaiterLoop t token (k.members (.waiters t)) none k with
  | (none, k) => some (none, k)
  | (some o, k) =>
    (kThreadUpdateDynamicPrio t k).bind (fun k =>
      (kThreadUpdateDynamicPrio o k).map (fun k => (some o, k)))

def kMutexTryLock (m : ℕ) (k : Kernel) : Bool × Kernel :=
  match k.owner m with
  | none => (true, setOwner m (some k.self) k)
  | some _ => (false, k)

def kMutexLock (m : ℕ) (k : Kernel) : Option Kernel :=
  match k.owner m with
  | none => some (setOwner m (some k.self) k)
  | some o =>
    let self := k.self
    let k := enterQueue (.waiters o) .waitingMutex m self k
    if k.prio self < k.prio o then
      (kThreadUpdateDynamicPrio o k).bind (fun k =>
        if k.state o = .running then some (kThreadSwitchTo o k) else switchToRunnable k)
    else switchToRunnable k

/-- The release that `KMutexUnlock` and the condition variable waits share.
A caller that does not own the mutex never comes back from its endless loop. -/
def releaseMutex (m : ℕ) (k : Kernel) : Option Kernel :=
  if k.owner m = some k.self then
    (kThreadRemoveWaiter k.self m k).map (fun r => setOwner m r.1 r.2)
  else none

def kMutexUnlock (m : ℕ) (k : Kernel) : Option Kernel :=
  let oldPrio := k.prio k.self
  (releaseMutex m k).map (fun k =>
    if oldPrio < k.prio k.self then
      let next := kThreadFindRunnable k.firstThread k
      if next = some k.self then k else kThreadReschedule next k
    else k)

def kCondVarSignal (cv : ℕ) : Kernel → Kernel :=
  kThrQueueUnblockOneByValue .cvWaitQueue cv

def kCondVarBroadcast (cv : ℕ) : Kernel → Kernel :=
  kThrQueueUnblockAllByValue .cvWaitQueue cv

/-- The first half of a wait: the mutex is released and the thread queued.
The second half is a `KMutexLock` when the thread runs again. -/
def condVarBlock (cv m : ℕ) (k : Kernel) : Option Kernel :=
  (releaseMutex m k).bind (kThrQueueBlock .cvWaitQueue cv)

/-- The interrupt entry and the end of `PPCExcptIrqHandler`, with no switch
callback installed. -/
def irqEnter (k : Kernel) : Kernel := { k with inExcpt := true }

def irqReturn (k : Kernel) : Kernel :=
  match k.nextCtx with
  | none => { k with inExcpt := false }
  | some t => { k with self := t, nextCtx := none, inExcpt := false }

end Libogc.ThreadKernel
