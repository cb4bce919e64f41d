import Libogc.Aram.RequestCancel
import Libogc.Lwp.Queue

/-!
# The request queue in memory

`arqueue.c` takes a request back by the links of its node, so the removals
need the queues as they lie in memory. Of the state on lists everything but
the two lists is used. A step is `none` where something that is not a request
would be taken for one. While the links of a removed request are those of a
queued one, or name neighbours that are each other's neighbours already, the
steps are the steps on lists.
-/

set_option autoImplicit false

namespace Libogc.RequestLinks
open Option Function GuardedReach DoublyLinked Queue RequestQueue RequestCancel

inductive QueueId where
  | lo
  | hi
  deriving DecidableEq, Repr

structure LinkedArq where
  links : Links QueueId ℕ
  arq : Arq

/-- The state after `ARQ_Init`. The nodes and the request objects hold
anything. -/
def linkedInit (links : Links QueueId ℕ) (req : ℕ → ARQRequest) : LinkedArq :=
  ⟨lwpQueueInitEmpty .hi (lwpQueueInitEmpty .lo links),arqInit req⟩

def getRequest (q : QueueId) (s : LinkedArq) : Option (Option ℕ × LinkedArq) :=
  match lwpQueueGetI q s.links with
  | (.null, l) => some (none, { s with links := l })
  | (.obj r, l) => some (some r, { s with links := l })
  | _ => none

def startHi (r : ℕ) (s : Arq) : Arq :=
  let q := s.req r
  { arStartDMA r ⟨q.dir,q.mramAddr,q.aramAddr,q.len⟩ (setReq r { q with state := .running } s) with
    callbackHi := some q.callback
    reqPendingHi := some r }

def popTaskQueueHi (s : LinkedArq) : Option LinkedArq :=
  match getRequest .hi s with
  | none => none
  | some (none, s) => some s
  | some (some r, s) => some { s with arq := startHi r s.arq }

def fetchLo (s : LinkedArq) : Option LinkedArq :=
  if s.arq.reqPendingLo = none then
    (getRequest .lo s).map (fun p => { p.2 with arq := { p.2.arq with reqPendingLo := p.1 } })
  else some s

def transferPending (s : LinkedArq) : LinkedArq :=
  match s.arq.reqPendingLo with
  | none => s
  | some r => { s with arq := arqTransferLo r s.arq }

def serviceQueueLo (s : LinkedArq) : Option LinkedArq := (fetchLo s).map transferPending

def serve (s : LinkedArq) : Option LinkedArq :=
  (popTaskQueueHi s).bind (fun s =>
    if s.arq.reqPendingHi = none then serviceQueueLo s else some s)

/-- The service routine up to a callback, or to its end if none is due. -/
def interruptServiceRoutine (s : LinkedArq) : Option LinkedArq :=
  if s.arq.callbackHi = none ∧ s.arq.callbackLo = none then serve s
  else (arInterruptServiceRoutine s.arq).map (fun a => { s with arq := a })

def returned (s : Arq) : Arq :=
  match s.phase with
  | .outside => s
  | .callingHi => { s with reqPendingHi := none, callbackHi := none, phase := .outside }
  | .callingLo => { s with reqPendingLo := none, callbackLo := none, phase := .outside }

def serveAfter (s : LinkedArq) : Option LinkedArq :=
  if s.arq.phase = .outside then some s else serve { s with arq := returned s.arq }

def queueOf (p : Post) : QueueId := if p.prio = arqPrioLo then .lo else .hi

def postRequestAsync (p : Post) (s : LinkedArq) : Option LinkedArq :=
  let s : LinkedArq :=
    ⟨lwpQueueAppendI (queueOf p) (.obj p.req) s.links,fillRequest p s.arq⟩
  if s.arq.reqPendingLo = none ∧ s.arq.reqPendingHi = none then serve s else some s

def flushQueue (s : LinkedArq) : LinkedArq :=
  ⟨lwpQueueInitEmpty .hi (lwpQueueInitEmpty .lo s.links),forgetLo s.arq⟩

def removeRequest (r : ℕ) (s : LinkedArq) : LinkedArq :=
  ⟨lwpQueueExtractI (.obj r) s.links,
    if s.arq.reqPendingLo = some r then forgetLo s.arq else s.arq⟩

/-- The loop over one queue, within a number of steps. It returns the node at
which it ends. -/
def ownerLoop (q : QueueId) (owner : ℕ) (req : ℕ → ARQRequest) :
    ℕ → Node QueueId ℕ → Links QueueId ℕ → ℕ →
      Option (Node QueueId ℕ × Links QueueId ℕ × ℕ)
  | 0, _, _, _ => none
  | n+1, node, l, cnt =>
    if node = .tail q then some (node, l, cnt)
    else
      match node with
      | .obj r =>
        if (req r).owner = owner then
          ownerLoop q owner req n ((lwpQueueExtractI node l).next node) (lwpQueueExtractI node l)
            (cnt+1)
        else ownerLoop q owner req n (l.next node) l cnt
      | _ => none

/-- At its end the function compares the pending request with the node at
which its second loop ended. -/
def removeOwnerRequest (n owner : ℕ) (s : LinkedArq) : Option (LinkedArq × ℕ) :=
  (ownerLoop .hi owner s.arq.req n (s.links.next (.head .hi)) s.links 0).bind (fun h =>
    (ownerLoop .lo owner s.arq.req n (h.2.1.next (.head .lo)) h.2.1 h.2.2).map (fun e =>
      (⟨e.2.1,if s.arq.reqPendingLo.map .obj = some e.1 then forgetLo s.arq else s.arq⟩,e.2.2)))

inductive LinkedAction where
  | post (p : Post)
  | removeRequest (r : ℕ)
  | removeOwnerRequest (n owner : ℕ)
  | flushQueue
  | interrupt
  | ret
  deriving DecidableEq, Repr

def linkedStep : LinkedAction → LinkedArq → Option LinkedArq
  | .post p, s => postRequestAsync p s
  | .removeRequest r, s => some (removeRequest r s)
  | .removeOwnerRequest n owner, s => (removeOwnerRequest n owner s).map Prod.fst
  | .flushQueue, s => some (flushQueue s)
  | .interrupt, s => interruptServiceRoutine { s with arq := dmaDone s.arq }
  | .ret, s => serveAfter s

def Queued (s : LinkedArq) (r : ℕ) : Prop :=
  ∃ (q : QueueId) (l : List ℕ), Listed s.links.next s.links.prev (.head q) (.tail q)
    (l.map .obj) ∧ r ∈ l

/-- A request object is posted when it is not waiting or under way; the
callback of a request may post it again. -/
def CallOk : LinkedAction → LinkedArq → Prop
  | .post p, s => ¬Queued s p.req ∧
    (s.arq.reqPendingLo = some p.req → s.arq.phase = .callingLo) ∧
    (s.arq.reqPendingHi = some p.req → s.arq.phase = .callingHi)
  | .interrupt, s => s.arq.flight ≠ [] ∧ s.arq.phase = .outside
  | .ret, s => s.arq.phase ≠ .outside
  | _, _ => True

/-- A removal leaves the pending request alone while a chunk of it is under
way, and finds the links of the request in order. -/
def Withdraws : LinkedAction → LinkedArq → Prop
  | .removeRequest r, s => Detachable s.links (.obj r) ∧
    (s.arq.reqPendingLo = some r → ¬ChunkMoves s.arq)
  | .flushQueue, s => ¬ChunkMoves s.arq
  | _, _ => True

/-! The steps on lists. -/

def listAction : LinkedAction → CancelAction
  | .post p => .post p
  | .removeRequest r => .removeRequest r
  | .removeOwnerRequest _ owner => .removeOwnerRequest owner
  | .flushQueue => .flushQueue
  | .interrupt => .interrupt
  | .ret => .ret

def view (c : QueueId → List ℕ) (s : Arq) : Arq :=
  { s with reqQueueLo := c .lo, reqQueueHi := c .hi }

section Refine

variable {s t : LinkedArq} {c : QueueId → List ℕ}

theorem getRequest_spec (h : Holds s.links c) (q : QueueId) :
    ∃ l, getRequest q s = some ((c q).head?,⟨l,s.arq⟩) ∧
      Holds l (update c q (c q).tail) := by
  cases hc : c q with
  | nil =>
    refine ⟨s.links,?_,?_⟩
    · rw [getRequest, getI_empty h hc]
      rfl
    · rw [List.tail_nil, ← hc, update_eq_self]
      exact h
  | cons r rs =>
    obtain ⟨l,hl,hh⟩ := getI_first h hc
    refine ⟨l,?_,hh⟩
    rw [getRequest, hl]
    rfl

theorem popTaskQueueHi_spec (h : Holds s.links c) :
    ∃ l c' a, popTaskQueueHi s = some ⟨l,a⟩ ∧ Holds l c' ∧
      arqPopTaskQueueHi (view c s.arq) = view c' a := by
  obtain ⟨l,hget,hl⟩ := getRequest_spec h .hi
  cases hc : c .hi with
  | nil =>
    rw [hc] at hget hl
    refine ⟨l,_,s.arq,by rw [popTaskQueueHi, hget]; rfl,hl,?_⟩
    simp only [view, hc]
    rfl
  | cons r rs =>
    rw [hc] at hget hl
    refine ⟨l,_,startHi r s.arq,by rw [popTaskQueueHi, hget]; rfl,hl,?_⟩
    simp only [view, hc]
    rfl

theorem view_transferLo (c : QueueId → List ℕ) (r : ℕ) (a : Arq) :
    arqTransferLo r (view c a) = view c (arqTransferLo r a) := by
  rw [arqTransferLo, arqTransferLo]
  split
  · rename_i h
    rw [if_pos (by exact h)]
    rfl
  · rename_i h
    rw [if_neg (by exact h)]
    rfl

theorem transferPending_spec (c : QueueId → List ℕ) (l : Links QueueId ℕ) {a f : Arq}
    (hf : arqFetchLo f = view c a) : arqServiceQueueLo f = view c (transferPending ⟨l,a⟩).arq := by
  have hpend : (arqFetchLo f).reqPendingLo = a.reqPendingLo := by
    rw [hf]
    rfl
  rw [arqServiceQueueLo, transferPending]
  cases hp : a.reqPendingLo with
  | none =>
    rw [hpend, hp]
    exact hf
  | some r =>
    rw [hpend, hp]
    dsimp only
    rw [hf, view_transferLo]

theorem serviceQueueLo_spec (h : Holds s.links c) :
    ∃ t c', serviceQueueLo s = some t ∧ Holds t.links c' ∧
      arqServiceQueueLo (view c s.arq) = view c' t.arq := by
  have hlinks : ∀ u : LinkedArq, (transferPending u).links = u.links := by
    intro u
    unfold transferPending
    split <;> rfl
  by_cases hp : s.arq.reqPendingLo = none
  · obtain ⟨l,hget,hl⟩ := getRequest_spec h .lo
    have hfetch : fetchLo s = some ⟨l,{ s.arq with reqPendingLo := (c .lo).head? }⟩ := by
      rw [fetchLo, if_pos hp, hget]
      rfl
    refine ⟨_,_,by rw [serviceQueueLo, hfetch]; rfl,by rw [hlinks]; exact hl,?_⟩
    apply transferPending_spec
    rw [arqFetchLo, if_pos (by exact hp)]
    simp [view]
  · have hfetch : fetchLo s = some s := if_neg hp
    refine ⟨_,c,by rw [serviceQueueLo, hfetch]; rfl,by rw [hlinks]; exact h,?_⟩
    apply transferPending_spec
    rw [arqFetchLo, if_neg (by exact hp)]

theorem serve_spec (h : Holds s.links c) :
    ∃ t c', serve s = some t ∧ Holds t.links c' ∧ arqServe (view c s.arq) = view c' t.arq := by
  obtain ⟨l,c',a,hpop,hl,hv⟩ := popTaskQueueHi_spec h
  rw [serve, hpop, arqServe, hv]
  by_cases hp : a.reqPendingHi = none
  · rw [if_pos (by exact hp), bind_some, if_pos (by exact hp)]
    exact serviceQueueLo_spec hl
  · rw [if_neg (by exact hp), bind_some, if_neg (by exact hp)]
    exact ⟨_,c',rfl,hl,rfl⟩

/-! The loops of `ARQ_RemoveOwnerRequest`. -/

theorem extractI_next {l : Links QueueId ℕ} {q : QueueId} {us vs : List ℕ} {r : ℕ}
    (h : Holds l c) (hc : c q = us ++ r::vs) : l.next (.obj r) = (vs.map .obj).headD (.tail q) ∧
      (lwpQueueExtractI (.obj r) l).next (.obj r) = l.next (.obj r) := by
  have hl := h.listed q
  have hnd := h.nodup q
  rw [hc] at hl hnd
  rw [List.map_append] at hl
  obtain ⟨hp,hx⟩ := listed_around hl
  refine ⟨hx,update_of_ne ?_ _ _⟩
  rw [hp]
  intro he
  have hmem := getLastD_mem (Node.head q) (us.map Node.obj)
  rw [← he] at hmem
  have hu : r ∈ us := by simpa using hmem
  exact (List.nodup_append.mp hnd).2.2 r hu r List.mem_cons_self rfl

/-- The requests `us` have been passed, and the loop is at the first of the
requests `vs`. -/
theorem ownerLoop_spec (q : QueueId) (owner : ℕ) (req : ℕ → ARQRequest) (vs : List ℕ) :
    ∀ (n : ℕ) (l : Links QueueId ℕ) (c : QueueId → List ℕ) (us : List ℕ) (cnt : ℕ),
      Holds l c → c q = us ++ vs → if vs.length < n then ∃ l' k,
        ownerLoop q owner req n ((vs.map .obj).headD (.tail q)) l cnt = some (.tail q,l',k) ∧
        Holds l' (update c q (us ++ vs.filter (fun r => decide ((req r).owner ≠ owner))))
      else ownerLoop q owner req n ((vs.map .obj).headD (.tail q)) l cnt = none := by
  induction vs with
  | nil =>
    intro n l c us cnt h hc
    cases n with
    | zero => rfl
    | succ n =>
      refine ⟨l,cnt,by simp [ownerLoop],?_⟩
      rw [List.filter_nil, ← hc, update_eq_self]
      exact h
  | cons r vs ih =>
    intro n l c us cnt h hc
    cases n with
    | zero => rfl
    | succ n =>
      obtain ⟨hnext,hsame⟩ := extractI_next h hc
      have hstep : ownerLoop q owner req (n+1) (.obj r) l cnt =
          if (req r).owner = owner then ownerLoop q owner req n
            ((lwpQueueExtractI (.obj r) l).next (.obj r)) (lwpQueueExtractI (.obj r) l) (cnt+1)
          else ownerLoop q owner req n (l.next (.obj r)) l cnt := by
        rw [ownerLoop, if_neg (by simp)]
      simp only [List.length_cons, Nat.add_lt_add_iff_right, List.map_cons, List.headD_cons]
      rw [hstep]
      by_cases ho : (req r).owner = owner
      · have hmem : r ∈ c q := by simp [hc]
        have hnd := h.nodup q
        rw [hc] at hnd
        have hu : r ∉ us := fun hm => (List.nodup_append.mp hnd).2.2 r hm r List.mem_cons_self rfl
        have herase : (c q).erase r = us ++ vs := by
          rw [hc, List.erase_append_right _ hu, List.erase_cons_head]
        have hout := extractI_holds h hmem
        rw [herase] at hout
        have hloop := ih n _ _ us (cnt+1) hout (update_self _ _ _)
        rw [update_idem] at hloop
        rw [if_pos ho, hsame, hnext, List.filter_cons_of_neg (by simpa using ho)]
        exact hloop
      · have hloop := ih n l c (us ++ [r]) cnt h (by simp [hc])
        rw [List.append_assoc] at hloop
        rw [if_neg ho, hnext, List.filter_cons_of_pos (by simpa using ho)]
        exact hloop

/-- Both loops end within one step more than there are requests, and no
request is the tail that is compared with the pending one. -/
theorem removeOwnerRequest_lists (h : Holds s.links c) (n owner : ℕ) :
    if (c .hi).length < n ∧ (c .lo).length < n then ∃ l k,
      removeOwnerRequest n owner s = some (⟨l,s.arq⟩,k) ∧
      Holds l (fun q => (c q).filter (fun r => decide ((s.arq.req r).owner ≠ owner)))
    else removeOwnerRequest n owner s = none := by
  have hhi := ownerLoop_spec .hi owner s.arq.req (c .hi) n s.links c [] 0 h rfl
  rw [← h.first .hi] at hhi
  unfold removeOwnerRequest
  by_cases hn : (c .hi).length < n
  · rw [if_pos hn] at hhi
    obtain ⟨l,j,hloop,hl⟩ := hhi
    rw [hloop, bind_some]
    have hlo := ownerLoop_spec .lo owner s.arq.req (c .lo) n l _ [] j hl rfl
    have hfirst : l.next (.head .lo) = ((c .lo).map .obj).headD (.tail .lo) := hl.first .lo
    rw [← hfirst] at hlo
    by_cases hm : (c .lo).length < n
    · rw [if_pos hm] at hlo
      obtain ⟨l',i,hloop',hl'⟩ := hlo
      rw [if_pos ⟨hn,hm⟩, hloop', map_some]
      refine ⟨l',i,?_,?_⟩
      · rw [if_neg (by cases s.arq.reqPendingLo <;> simp)]
      · convert hl' using 1
        funext q
        cases q with
        | lo | hi => rfl
    · rw [if_neg hm] at hlo
      rw [if_neg (fun hb => hm hb.2), hlo]
      rfl
  · rw [if_neg hn] at hhi
    rw [if_neg (fun hb => hn hb.1), hhi]
    rfl

theorem removeOwnerRequest_spec (h : Holds s.links c) {n owner k : ℕ}
    (ht : removeOwnerRequest n owner s = some (t,k)) :
    ∃ c', Holds t.links c' ∧ ownerRemoved owner (view c s.arq) = view c' t.arq := by
  have hl := removeOwnerRequest_lists h n owner
  split at hl
  · obtain ⟨l,j,hloop,hh⟩ := hl
    obtain ⟨rfl,-⟩ := Prod.mk.inj (mem_unique hloop ht)
    exact ⟨_,hh,rfl⟩
  · exact absurd (hl.symm.trans ht) nofun

/-! Each step is a step on lists. -/

theorem view_dmaDone (c : QueueId → List ℕ) (a : Arq) :
    dmaDone (view c a) = view c (dmaDone a) := by
  unfold dmaDone
  cases hf : a.flight with
  | nil | cons e es => simp [view, hf]

theorem view_routine (c : QueueId → List ℕ) {a : Arq}
    (h : ¬(a.callbackHi = none ∧ a.callbackLo = none)) :
    arInterruptServiceRoutine (view c a) = (arInterruptServiceRoutine a).map (view c) := by
  have hhi : (view c a).callbackHi = a.callbackHi := rfl
  have hlo : (view c a).callbackLo = a.callbackLo := rfl
  unfold arInterruptServiceRoutine
  rw [hhi, hlo]
  cases hch : a.callbackHi with
  | some fn =>
    rw [map_map]
    rfl
  | none =>
    cases hcl : a.callbackLo with
    | some fn =>
      rw [map_map]
      rfl
    | none => exact absurd ⟨hch,hcl⟩ h

theorem forgetLo_view (c : QueueId → List ℕ) (a : Arq) :
    forgetLo (view c a) = view c (forgetLo a) := by
  unfold forgetLo
  by_cases h : a.callbackLo = none
  · rw [if_pos (by exact h), if_pos h]
    rfl
  · rw [if_neg (by exact h), if_neg h]

section

variable (h : Holds s.links c)
include h

theorem interrupt_spec (ht : interruptServiceRoutine { s with arq := dmaDone s.arq } = some t) :
    ∃ c', Holds t.links c' ∧
      arInterruptServiceRoutine (dmaDone (view c s.arq)) = some (view c' t.arq) := by
  rw [view_dmaDone]
  unfold interruptServiceRoutine at ht
  split at ht
  · rename_i hnone
    obtain ⟨u,c',hu,hh,hv⟩ := serve_spec (s := { s with arq := dmaDone s.arq }) h
    obtain rfl := mem_unique hu ht
    exact ⟨c',hh,(routine_none (s := view c (dmaDone s.arq)) hnone.1 hnone.2).trans
      (congrArg some hv)⟩
  · rename_i hsome
    obtain ⟨a,ha,rfl⟩ := map_eq_some_iff.mp ht
    refine ⟨c,h,?_⟩
    rw [view_routine c hsome, ha]
    rfl

theorem ret_spec (hp : s.arq.phase ≠ .outside) (ht : serveAfter s = some t) :
    ∃ c', Holds t.links c' ∧ callbackReturn (view c s.arq) = view c' t.arq := by
  rw [serveAfter, if_neg hp] at ht
  obtain ⟨u,c',hu,hh,hv⟩ := serve_spec (s := { s with arq := returned s.arq }) h
  obtain rfl := mem_unique hu ht
  refine ⟨c',hh,Eq.trans ?_ hv⟩
  have hphase : (view c s.arq).phase = s.arq.phase := rfl
  unfold callbackReturn returned
  rw [hphase]
  cases hq : s.arq.phase with
  | outside => exact absurd hq hp
  | callingHi | callingLo => rfl

theorem not_queued {r : ℕ} (hr : ¬Queued s r) (q : QueueId) : r ∉ c q :=
  fun hm => hr ⟨q,c q,h.listed q,hm⟩

theorem post_spec {p : Post} (hr : ¬Queued s p.req) (ht : postRequestAsync p s = some t) :
    ∃ c', Holds t.links c' ∧ arqPostRequestAsync p (view c s.arq) = view c' t.arq := by
  have happ := appendI_holds (q := queueOf p) h (not_queued h hr)
  have hview : arqAppend p (fillRequest p (view c s.arq)) = view
      (update c (queueOf p) (c (queueOf p) ++ [p.req])) (fillRequest p s.arq) := by
    unfold arqAppend queueOf
    split <;> rfl
  unfold postRequestAsync at ht
  unfold arqPostRequestAsync
  dsimp only at ht ⊢
  rw [hview]
  split at ht
  · rename_i hnone
    obtain ⟨u,c',hu,hh,hv⟩ := serve_spec (s := ⟨_,fillRequest p s.arq⟩) happ
    obtain rfl := mem_unique hu ht
    exact ⟨c',hh,(if_pos hnone).trans hv⟩
  · rename_i hsome
    cases ht
    exact ⟨_,happ,if_neg hsome⟩

theorem remove_spec {r : ℕ} (hd : Detachable s.links (.obj r)) :
    ∃ c', Holds (removeRequest r s).links c' ∧
      removed r (view c s.arq) = view c' (removeRequest r s).arq := by
  obtain ⟨c',hh,hlo,hhi⟩ : ∃ c', Holds (lwpQueueExtractI (.obj r) s.links) c' ∧
      c' .lo = (c .lo).erase r ∧ c' .hi = (c .hi).erase r := by
    by_cases hlo : r ∈ c .lo
    · have hn : r ∉ c .hi := fun hm => absurd (h.apart _ _ r hlo hm) (by decide)
      exact ⟨_,extractI_holds h hlo,rfl,(List.erase_of_not_mem hn).symm⟩
    · by_cases hhi : r ∈ c .hi
      · exact ⟨_,extractI_holds h hhi,(List.erase_of_not_mem hlo).symm,rfl⟩
      · refine ⟨c,extractI_unqueued h ?_ hd,(List.erase_of_not_mem hlo).symm,
          (List.erase_of_not_mem hhi).symm⟩
        rintro (_ | _)
        · exact hlo
        · exact hhi
  refine ⟨c',hh,?_⟩
  have hview : ({ view c s.arq with
      reqQueueLo := (c .lo).erase r, reqQueueHi := (c .hi).erase r } : Arq) = view c' s.arq := by
    rw [← hlo, ← hhi]
    rfl
  change (if s.arq.reqPendingLo = some r then forgetLo { view c s.arq with
    reqQueueLo := (c .lo).erase r, reqQueueHi := (c .hi).erase r } else { view c s.arq with
    reqQueueLo := (c .lo).erase r, reqQueueHi := (c .hi).erase r }) =
      view c' (if s.arq.reqPendingLo = some r then forgetLo s.arq else s.arq)
  rw [hview]
  split
  · exact forgetLo_view c' s.arq
  · rfl

theorem flush_spec :
    ∃ c', Holds (flushQueue s).links c' ∧ flushed (view c s.arq) = view c' (flushQueue s).arq :=
  ⟨_,initEmpty_holds (initEmpty_holds h .lo) .hi,
    forgetLo_view (update (update c .lo []) .hi []) s.arq⟩

theorem linkedStep_spec {a : LinkedAction} (hok : CallOk a s)
    (hw : Withdraws a s) (ht : linkedStep a s = some t) :
    ∃ c', Holds t.links c' ∧ cancelStep (listAction a) (view c s.arq) = some (view c' t.arq) ∧
      CancelOk (listAction a) (view c s.arq) := by
  cases a with
  | post p =>
    obtain ⟨c',hh,hv⟩ := post_spec h hok.1 ht
    exact ⟨c',hh,congrArg some hv,not_queued h hok.1 .lo,not_queued h hok.1 .hi,hok.2⟩
  | removeRequest r =>
    cases ht
    obtain ⟨c',hh,hv⟩ := remove_spec h hw.1
    exact ⟨c',hh,congrArg some hv,hw.2⟩
  | removeOwnerRequest n owner =>
    obtain ⟨⟨u,k⟩,hu,rfl⟩ := map_eq_some_iff.mp ht
    obtain ⟨c',hh,hv⟩ := removeOwnerRequest_spec h hu
    exact ⟨c',hh,congrArg some hv,trivial⟩
  | flushQueue =>
    cases ht
    obtain ⟨c',hh,hv⟩ := flush_spec h
    exact ⟨c',hh,congrArg some hv,hw⟩
  | interrupt =>
    obtain ⟨c',hh,hv⟩ := interrupt_spec h ht
    exact ⟨c',hh,hv,hok⟩
  | ret =>
    obtain ⟨c',hh,hv⟩ := ret_spec h hok ht
    exact ⟨c',hh,congrArg some hv,hok⟩

end

end Refine

/-! Runs. -/

theorem init_holds (links : Links QueueId ℕ) (req : ℕ → ARQRequest) :
    Holds (linkedInit links req).links (fun _ => []) := by
  apply holds_of_empty
  intro q
  cases q with
  | lo | hi => simp [linkedInit, initEmpty_next, initEmpty_prev]

theorem init_tidy (req : ℕ → ARQRequest) : Tidy (arqInit req) :=
  ⟨⟨show 0 < arqDefChunkSize by decide,List.nodup_nil,nofun,⟨[],rfl⟩,nofun⟩,.idle rfl rfl rfl
    rfl rfl rfl⟩

def callCheck : LinkedAction → LinkedArq → Bool
  | .post p, s =>
    (scan s.links .lo 8 (s.links.next (.head .lo))).any (fun l => decide (p.req ∉ l)) &&
    (scan s.links .hi 8 (s.links.next (.head .hi))).any (fun l => decide (p.req ∉ l)) &&
    decide ((s.arq.reqPendingLo = some p.req → s.arq.phase = .callingLo) ∧
      (s.arq.reqPendingHi = some p.req → s.arq.phase = .callingHi))
  | .interrupt, s => decide (s.arq.flight ≠ [] ∧ s.arq.phase = .outside)
  | .ret, s => decide (s.arq.phase ≠ .outside)
  | _, _ => true

theorem callCheck_ok {a : LinkedAction} {s : LinkedArq} (h : callCheck a s = true) :
    CallOk a s := by
  cases a with
  | post p =>
    simp only [callCheck, Bool.and_eq_true, decide_eq_true_eq, any_eq_true] at h
    obtain ⟨⟨⟨ms,hlo,hnlo⟩,⟨ns,hhi,hnhi⟩⟩,hpend⟩ := h
    refine ⟨?_,hpend⟩
    rintro ⟨q,l,hl,hm⟩
    cases q with
    | lo => exact hnlo (scan_linked hl hlo ▸ hm)
    | hi => exact hnhi (scan_linked hl hhi ▸ hm)
  | removeRequest r | removeOwnerRequest n owner | flushQueue => trivial
  | interrupt | ret => simpa [callCheck, CallOk] using h

instance (a : LinkedAction) (s : LinkedArq) : Decidable (Withdraws a s) :=
  match a with
  | .post _ => inferInstanceAs (Decidable True)
  | .removeRequest _ => inferInstanceAs (Decidable (_ ∧ _))
  | .removeOwnerRequest _ _ => inferInstanceAs (Decidable True)
  | .flushQueue => inferInstanceAs (Decidable (¬_))
  | .interrupt => inferInstanceAs (Decidable True)
  | .ret => inferInstanceAs (Decidable True)

def blankLinks : Links QueueId ℕ := ⟨fun _ => .null,fun _ => .null⟩

def blankRequests (_ : ℕ) : ARQRequest := ⟨0,0,0,.ready,0,0,0,0⟩

/-- In a run whose removals leave the pending request alone while a chunk of
it is under way, no transfer is started while one is under way, and a callback
is called when a transfer that covers the end of its request is completed. -/
theorem cancelled_requests_safe (links : Links QueueId ℕ) (req : ℕ → ARQRequest) {s : LinkedArq}
    (h : Reach linkedStep (fun a s => CallOk a s ∧ Withdraws a s) (linkedInit links req) s) :
    s.arq.flight.length ≤ 1 ∧ ∀ c ∈ s.arq.calls, Answered s.arq c := by
  have hinv : ∃ c, Holds s.links c ∧ Tidy (view c s.arq) := by
    refine reach_invariant (P := fun s => ∃ c, Holds s.links c ∧ Tidy (view c s.arq)) ?_ ?_ h
    · exact ⟨_,init_holds links req,init_tidy req⟩
    · rintro a u v ⟨c,hc,ht⟩ ⟨hok,hw⟩ hs
      obtain ⟨c',hc',hstep,hok'⟩ := linkedStep_spec hc hok hw hs
      exact ⟨c',hc',cancelStep_tidy ht hok' hstep⟩
  obtain ⟨c,-,ht⟩ := hinv
  exact ⟨ht.one,ht.common.calls⟩

/-- A waiting request is taken back while a chunk is under way, and the request
of low priority between two of its chunks. -/
theorem cancelled_requests_between_chunks : ∃ s, Reach linkedStep
    (fun a s => CallOk a s ∧ Withdraws a s) (linkedInit blankLinks blankRequests) s ∧
    s.arq.calls = [⟨1,7,20⟩, ⟨3,9,10⟩] ∧
    s.arq.flight.length ≤ 1 ∧ ∀ c ∈ s.arq.calls, Answered s.arq c := by
  have hrun : (runChecked linkedStep (fun a s => callCheck a s && decide (Withdraws a s))
      [.post ⟨10,1,0,0,0,0,8224,some 6⟩, .post ⟨20,1,0,1,0,65536,8192,some 7⟩,
        .post ⟨30,2,0,0,0,131072,64,none⟩, .removeOwnerRequest 4 2, .interrupt,
        .removeRequest 10, .interrupt, .post ⟨10,1,0,0,0,0,32,some 9⟩, .ret, .flushQueue,
        .interrupt, .ret] (linkedInit blankLinks blankRequests)).any
      (fun s => decide (s.arq.calls = [⟨1,7,20⟩, ⟨3,9,10⟩])) = true := by
    decide +kernel
  obtain ⟨s,hreach,hd⟩ :=
    run_reaches (check_and (fun _ _ => callCheck_ok) fun _ _ => of_decide_eq_true) hrun
  exact ⟨s,hreach,hd,cancelled_requests_safe _ _ hreach⟩

/-- The queue is flushed while the first chunk of a request is under way. The
next post starts its own transfer at once, and the end of the chunk is taken
for the end of the new request. -/
theorem flushed_chunk_overlaps : ∃ s t, Reach linkedStep CallOk
    (linkedInit blankLinks blankRequests) s ∧ s.arq.flight.length = 2 ∧
    linkedStep .interrupt s = some t ∧ CallOk .interrupt s ∧ t.arq.calls = [⟨1,7,20⟩] ∧
    ∀ e ∈ completed t.arq, e.serial ≠ 1 := by
  have hrun : (runChecked linkedStep callCheck
      [.post ⟨10,1,0,0,0,0,8192,some 6⟩, .flushQueue, .post ⟨20,1,0,0,0,65536,32,some 7⟩]
      (linkedInit blankLinks blankRequests)).any (fun s => decide (s.arq.flight.length = 2 ∧
        callCheck .interrupt s = true ∧ ∃ t ∈ linkedStep .interrupt s,
          t.arq.calls = [⟨1,7,20⟩] ∧ ∀ e ∈ completed t.arq, e.serial ≠ 1)) = true := by
    decide +kernel
  obtain ⟨s,hreach,htwo,hok,t,ht,hcalls,hdone⟩ := run_reaches (fun _ _ => callCheck_ok) hrun
  exact ⟨s,t,hreach,htwo,ht,callCheck_ok hok,hcalls,hdone⟩

end Libogc.RequestLinks
