import Libogc.Library.GuardedReach
import Mathlib.Data.Nat.Notation

/-!
# The ARAM request queue

`arqueue.c` keeps one queue of requests for each priority and hands them to
the ARAM DMA engine, those of low priority in chunks. A request object is its
address. The service routine calls a completion callback in its middle, so an
interrupt is one step up to the callback and one step after it, and the
callback may post in between. The DMA engine is the list of transfers that are
under way. `posts`, `serial`, `issued`, `moved` and `calls` record what was
posted, transferred and called back; no function reads them.
-/

set_option autoImplicit false

namespace Libogc.RequestQueue
open GuardedReach

def u32 (n : ℕ) : ℕ := n % 4294967296

inductive ArqTask where
  | ready
  | running
  | finished
  deriving DecidableEq, Repr

def arqPrioLo : ℕ := 0

structure ARQRequest where
  owner : ℕ
  dir : ℕ
  prio : ℕ
  state : ArqTask
  aramAddr : ℕ
  mramAddr : ℕ
  len : ℕ
  callback : ℕ
  deriving DecidableEq, Repr

structure Dma where
  dir : ℕ
  mramAddr : ℕ
  aramAddr : ℕ
  len : ℕ
  deriving DecidableEq, Repr

structure Post where
  req : ℕ
  owner : ℕ
  dir : ℕ
  prio : ℕ
  aramAddr : ℕ
  mramAddr : ℕ
  len : ℕ
  cb : Option ℕ
  deriving DecidableEq, Repr

/-- A transfer with the number of the post it belongs to and the number of
posts before it. -/
structure Issue where
  serial : ℕ
  posted : ℕ
  dma : Dma
  deriving DecidableEq, Repr

structure Callback where
  serial : ℕ
  fn : ℕ
  req : ℕ
  deriving DecidableEq, Repr

/-- Where the processor is: outside of the service routine, or in the callback
of a request of high or of low priority. -/
inductive Phase where
  | outside
  | callingHi
  | callingLo
  deriving DecidableEq, Repr

structure Arq where
  chunkSize : ℕ
  reqQueueLo : List ℕ
  reqQueueHi : List ℕ
  reqPendingLo : Option ℕ
  reqPendingHi : Option ℕ
  callbackLo : Option ℕ
  callbackHi : Option ℕ
  req : ℕ → ARQRequest
  flight : List Issue
  phase : Phase
  posts : List Post
  serial : ℕ → ℕ
  issued : List Issue
  moved : ℕ → ℕ
  calls : List Callback

def arqDefChunkSize : ℕ := 4096

/-- The state after `ARQ_Init`. The request objects hold anything. -/
def arqInit (req : ℕ → ARQRequest) : Arq where
  chunkSize := arqDefChunkSize
  reqQueueLo := []
  reqQueueHi := []
  reqPendingLo := none
  reqPendingHi := none
  callbackLo := none
  callbackHi := none
  req := req
  flight := []
  phase := .outside
  posts := []
  serial _ := 0
  issued := []
  moved _ := 0
  calls := []

def arqCallbackDummy : ℕ := 0

def setReq (r : ℕ) (q : ARQRequest) (s : Arq) : Arq := { s with req := Function.update s.req r q }

def arStartDMA (r : ℕ) (d : Dma) (s : Arq) : Arq :=
  { s with
    flight := s.flight ++ [⟨s.serial r,s.posts.length,d⟩]
    issued := s.issued ++ [⟨s.serial r,s.posts.length,d⟩] }

def arqPopTaskQueueHi (s : Arq) : Arq :=
  match s.reqQueueHi with
  | [] => s
  | r::rest =>
    let q := s.req r
    { arStartDMA r ⟨q.dir,q.mramAddr,q.aramAddr,q.len⟩
        (setReq r { q with state := .running } { s with reqQueueHi := rest }) with
      callbackHi := some q.callback
      reqPendingHi := some r }

def arqFetchLo (s : Arq) : Arq :=
  if s.reqPendingLo = none then
    { s with reqPendingLo := s.reqQueueLo.head?, reqQueueLo := s.reqQueueLo.tail }
  else s

def arqTransferLo (r : ℕ) (s : Arq) : Arq :=
  let q := s.req r
  if q.len ≤ s.chunkSize then
    { arStartDMA r ⟨q.dir,q.mramAddr,q.aramAddr,q.len⟩
      (setReq r { q with state := .running } s) with
      callbackLo := some q.callback }
  else
    arStartDMA r ⟨q.dir,q.mramAddr,q.aramAddr,s.chunkSize⟩ (setReq r { q with
      state := .running
      len := q.len-s.chunkSize
      aramAddr := u32 (q.aramAddr+s.chunkSize)
      mramAddr := u32 (q.mramAddr+s.chunkSize) } s)

def arqServiceQueueLo (s : Arq) : Arq :=
  match (arqFetchLo s).reqPendingLo with
  | none => arqFetchLo s
  | some r => arqTransferLo r (arqFetchLo s)

def arqServe (s : Arq) : Arq :=
  if (arqPopTaskQueueHi s).reqPendingHi = none then arqServiceQueueLo (arqPopTaskQueueHi s)
  else arqPopTaskQueueHi s

def setTaskState (r : ℕ) (st : ArqTask) (s : Arq) : Arq := setReq r { s.req r with state := st } s

def callBack (fn r : ℕ) (s : Arq) : Arq :=
  { setTaskState r .finished s with calls := s.calls ++ [⟨s.serial r,fn,r⟩] }

/-- `__ARInterruptServiceRoutine` up to the callback, or to its end if none is
due. A NULL pointer is followed where the result is `none`. -/
def arInterruptServiceRoutine (s : Arq) : Option Arq :=
  match s.callbackHi, s.callbackLo with
  | some fn, _ => s.reqPendingHi.map (fun r => { callBack fn r s with phase := .callingHi })
  | none, some fn => s.reqPendingLo.map (fun r => { callBack fn r s with phase := .callingLo })
  | none, none => some (arqServe s)

def callbackReturn (s : Arq) : Arq :=
  match s.phase with
  | .outside => s
  | .callingHi =>
    arqServe { s with reqPendingHi := none, callbackHi := none, phase := .outside }
  | .callingLo =>
    arqServe { s with reqPendingLo := none, callbackLo := none, phase := .outside }

def dmaDone (s : Arq) : Arq :=
  match s.flight with
  | [] => s
  | e::rest => { s with
    flight := rest
    moved := Function.update s.moved e.serial (s.moved e.serial+e.dma.len) }

def arqSetChunkSize (size : ℕ) (s : Arq) : Arq := { s with chunkSize := u32 (size+31)/32*32 }

def fillRequest (p : Post) (s : Arq) : Arq :=
  { setReq p.req ⟨p.owner,p.dir,p.prio,.ready,p.aramAddr,p.mramAddr,p.len,
      p.cb.getD arqCallbackDummy⟩ s with
    posts := s.posts ++ [p]
    serial := Function.update s.serial p.req s.posts.length }

def arqAppend (p : Post) (s : Arq) : Arq :=
  if p.prio = arqPrioLo then { s with reqQueueLo := s.reqQueueLo ++ [p.req] }
  else { s with reqQueueHi := s.reqQueueHi ++ [p.req] }

def arqPostRequestAsync (p : Post) (s : Arq) : Arq :=
  let s := arqAppend p (fillRequest p s)
  if s.reqPendingLo = none ∧ s.reqPendingHi = none then arqServe s else s

inductive ArqAction where
  | post (p : Post)
  | setChunkSize (size : ℕ)
  | interrupt
  | ret
  deriving DecidableEq, Repr

def arqStep : ArqAction → Arq → Option Arq
  | .post p, s => some (arqPostRequestAsync p s)
  | .setChunkSize size, s => some (arqSetChunkSize size s)
  | .interrupt, s => arInterruptServiceRoutine (dmaDone s)
  | .ret, s => some (callbackReturn s)

/-- A request object is posted when it is not waiting or under way; the
callback of a request may post it again. -/
def ArqOk : ArqAction → Arq → Prop
  | .post p, s => 0 < p.len ∧ p.len % 32 = 0 ∧ p.len < 4294967296 ∧ p.mramAddr < 4294967296 ∧
    p.aramAddr < 4294967296 ∧ p.req ∉ s.reqQueueLo ∧ p.req ∉ s.reqQueueHi ∧
    (s.reqPendingLo = some p.req → s.phase = .callingLo) ∧
    (s.reqPendingHi = some p.req → s.phase = .callingHi)
  | .setChunkSize size, _ => 1 ≤ size ∧ size ≤ 2147483648
  | .interrupt, s => s.flight ≠ [] ∧ s.phase = .outside
  | .ret, s => s.phase ≠ .outside

instance (a : ArqAction) (s : Arq) : Decidable (ArqOk a s) :=
  match a with
  | .post _ => inferInstanceAs (Decidable (_ ∧ _))
  | .setChunkSize _ => inferInstanceAs (Decidable (_ ∧ _))
  | .interrupt => inferInstanceAs (Decidable (_ ∧ _))
  | .ret => inferInstanceAs (Decidable (_ ≠ _))

end Libogc.RequestQueue
