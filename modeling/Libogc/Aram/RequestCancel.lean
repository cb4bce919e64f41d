import Libogc.Aram.RequestDelivery

/-!
# Requests that are taken back

The request queue with removals, on lists. What the service routine, a post
and a removal keep is that the pending requests tell whether a transfer is
under way, and that what is left of a request ends where the request ends. A
removal keeps it unless it forgets the pending request of low priority while
one of its chunks is under way.
-/

set_option autoImplicit false

namespace Libogc.RequestCancel
open List Function RequestQueue RequestBooks RequestDelivery Option

/-! The effect of the three removals on the lists. -/

def forgetLo (s : Arq) : Arq := if s.callbackLo = none then { s with reqPendingLo := none } else s

def flushed (s : Arq) : Arq := forgetLo { s with reqQueueLo := [], reqQueueHi := [] }

def removed (r : ℕ) (s : Arq) : Arq :=
  let s := { s with reqQueueLo := s.reqQueueLo.erase r, reqQueueHi := s.reqQueueHi.erase r }
  if s.reqPendingLo = some r then forgetLo s else s

def ownerRemoved (owner : ℕ) (s : Arq) : Arq := { s with
  reqQueueLo := s.reqQueueLo.filter (fun r => decide ((s.req r).owner ≠ owner))
  reqQueueHi := s.reqQueueHi.filter (fun r => decide ((s.req r).owner ≠ owner)) }

inductive CancelAction where
  | post (p : Post)
  | removeRequest (r : ℕ)
  | removeOwnerRequest (owner : ℕ)
  | flushQueue
  | interrupt
  | ret
  deriving DecidableEq, Repr

def cancelStep : CancelAction → Arq → Option Arq
  | .post p, s => some (arqPostRequestAsync p s)
  | .removeRequest r, s => some (removed r s)
  | .removeOwnerRequest owner, s => some (ownerRemoved owner s)
  | .flushQueue, s => some (flushed s)
  | .interrupt, s => arInterruptServiceRoutine (dmaDone s)
  | .ret, s => some (callbackReturn s)

/-- A chunk of the pending request of low priority is under way that is not
its last. -/
def ChunkMoves (s : Arq) : Prop :=
  s.reqPendingLo ≠ none ∧ s.callbackLo = none ∧ s.reqPendingHi = none

instance (s : Arq) : Decidable (ChunkMoves s) := inferInstanceAs (Decidable (_ ∧ _))

def CancelOk : CancelAction → Arq → Prop
  | .post p, s => p.req ∉ s.reqQueueLo ∧ p.req ∉ s.reqQueueHi ∧
    (s.reqPendingLo = some p.req → s.phase = .callingLo) ∧
    (s.reqPendingHi = some p.req → s.phase = .callingHi)
  | .removeRequest r, s => s.reqPendingLo = some r → ¬ChunkMoves s
  | .removeOwnerRequest _, _ => True
  | .flushQueue, s => ¬ChunkMoves s
  | .interrupt, s => s.flight ≠ [] ∧ s.phase = .outside
  | .ret, s => s.phase ≠ .outside

/-! Transfers that reach the end of a request. -/

/-- The transfer ends where the post ends, and is not empty if the post is not. -/
def EndsAs (d : Dma) (p : Post) : Prop :=
  d.dir = p.dir ∧ (0 < p.len → 0 < d.len) ∧ u32 (d.mramAddr+d.len) = u32 (p.mramAddr+p.len) ∧
    u32 (d.aramAddr+d.len) = u32 (p.aramAddr+p.len)

def rest (s : Arq) (r : ℕ) : Dma :=
  ⟨(s.req r).dir,(s.req r).mramAddr,(s.req r).aramAddr,(s.req r).len⟩

def Rest (s : Arq) (r : ℕ) : Prop :=
  ∃ p, s.posts[s.serial r]? = some p ∧ p.req = r ∧ EndsAs (rest s r) p

def Last (s : Arq) (r : ℕ) (e : Issue) : Prop :=
  e.serial = s.serial r ∧ ∃ p, s.posts[s.serial r]? = some p ∧ p.req = r ∧ EndsAs e.dma p

def completed (s : Arq) : List Issue := s.issued.take (s.issued.length-s.flight.length)

/-- A transfer that covers the end of the request has been completed. -/
def Answered (s : Arq) (c : Callback) : Prop :=
  ∃ p e, s.posts[c.serial]? = some p ∧ p.req = c.req ∧ e ∈ completed s ∧ e.serial = c.serial ∧
    EndsAs e.dma p

theorem completed_eq {s : Arq} {l : List Issue} (h : s.issued = l ++ s.flight) :
    completed s = l := by
  simp [completed, h]

def LoRests (s : Arq) : Prop :=
  ∀ r, s.reqPendingLo = some r → Rest s r ∧ r ∉ s.reqQueueLo ++ s.reqQueueHi

structure Common (s : Arq) : Prop where
  chunk : 0 < s.chunkSize
  nodup : (s.reqQueueLo ++ s.reqQueueHi).Nodup
  queued : ∀ r ∈ s.reqQueueLo ++ s.reqQueueHi, Rest s r
  flight : ∃ l, s.issued = l ++ s.flight
  calls : ∀ c ∈ s.calls, Answered s c

inductive Engine (s : Arq) : Prop
  | idle (hp : s.phase = .outside) (hf : s.flight = []) (hl : s.reqPendingLo = none)
      (hh : s.reqPendingHi = none) (hcl : s.callbackLo = none) (hch : s.callbackHi = none)
  | movesHi (r : ℕ) (e : Issue) (hp : s.phase = .outside) (hf : s.flight = [e])
      (hh : s.reqPendingHi = some r) (hch : s.callbackHi ≠ none) (hcl : s.callbackLo = none)
      (hlast : Last s r e) (hlo : LoRests s)
  | movesChunk (r : ℕ) (e : Issue) (hp : s.phase = .outside) (hf : s.flight = [e])
      (hl : s.reqPendingLo = some r) (hh : s.reqPendingHi = none) (hcl : s.callbackLo = none)
      (hch : s.callbackHi = none) (hlo : LoRests s)
  | movesLast (r : ℕ) (e : Issue) (hp : s.phase = .outside) (hf : s.flight = [e])
      (hl : s.reqPendingLo = some r) (hh : s.reqPendingHi = none) (hcl : s.callbackLo ≠ none)
      (hch : s.callbackHi = none) (hlast : Last s r e)
  | callsHi (hp : s.phase = .callingHi) (hf : s.flight = []) (hh : s.reqPendingHi ≠ none)
      (hcl : s.callbackLo = none) (hlo : LoRests s)
  | callsLo (hp : s.phase = .callingLo) (hf : s.flight = []) (hl : s.reqPendingLo ≠ none)
      (hh : s.reqPendingHi = none) (hch : s.callbackHi = none) (hcl : s.callbackLo ≠ none)

structure Tidy (s : Arq) : Prop where
  common : Common s
  engine : Engine s

structure Ready (s : Arq) : Prop where
  common : Common s
  phase : s.phase = .outside
  flight : s.flight = []
  pendHi : s.reqPendingHi = none
  callLo : s.callbackLo = none
  callHi : s.callbackHi = none
  loRests : LoRests s

variable {e : Issue} {fn r : ℕ}

section Frame

variable {s s' : Arq} {r : ℕ}

def Grows (s s' : Arq) : Prop := ∀ (i : ℕ) (p : Post), s.posts[i]? = some p → s'.posts[i]? = some p

theorem grows_of_eq (h : s'.posts = s.posts) : Grows s s' := by
  intro i p hp
  rw [h]
  exact hp

theorem Rest.congr (h : Rest s r) (hg : Grows s s') (hserial : s'.serial r = s.serial r)
    (hrest : rest s' r = rest s r) : Rest s' r := by
  obtain ⟨p,hp,hr,he⟩ := h
  refine ⟨p,?_,hr,hrest ▸ he⟩
  rw [hserial]
  exact hg _ _ hp

theorem Last.congr (h : Last s r e) (hg : Grows s s') (hserial : s'.serial r = s.serial r) :
    Last s' r e := by
  obtain ⟨he,p,hp,hr,hd⟩ := h
  refine ⟨he.trans hserial.symm,p,?_,hr,hd⟩
  rw [hserial]
  exact hg _ _ hp

theorem Answered.congr {c : Callback} (h : Answered s c) (hg : Grows s s')
    (hdone : ∀ e ∈ completed s, e ∈ completed s') : Answered s' c := by
  obtain ⟨p,e,hp,hr,he,hs,hd⟩ := h
  exact ⟨p,e,hg _ _ hp,hr,hdone e he,hs,hd⟩

theorem Common.congr (h : Common s) (hchunk : s'.chunkSize = s.chunkSize)
    (hposts : s'.posts = s.posts) (hserial : s'.serial = s.serial)
    (hrest : ∀ r, rest s' r = rest s r) (hissued : s'.issued = s.issued)
    (hflight : s'.flight = s.flight) (hcalls : s'.calls = s.calls)
    (hlo : s'.reqQueueLo.Sublist s.reqQueueLo) (hhi : s'.reqQueueHi.Sublist s.reqQueueHi) :
    Common s' := by
  have hsub := hlo.append hhi
  have hdone : completed s' = completed s := by rw [completed, completed, hissued, hflight]
  refine ⟨hchunk ▸ h.chunk,h.nodup.sublist hsub,?_,hissued ▸ hflight ▸ h.flight,?_⟩
  · intro u hu
    exact (h.queued u (hsub.subset hu)).congr (grows_of_eq hposts) (by rw [hserial]) (hrest u)
  · intro c hc
    rw [hcalls] at hc
    exact (h.calls c hc).congr (grows_of_eq hposts) (fun e he => hdone ▸ he)

theorem LoRests.congr (h : LoRests s) (hposts : s'.posts = s.posts)
    (hserial : s'.serial = s.serial) (hrest : ∀ r, rest s' r = rest s r)
    (hlo : s'.reqQueueLo.Sublist s.reqQueueLo) (hhi : s'.reqQueueHi.Sublist s.reqQueueHi)
    (hpend : ∀ r, s'.reqPendingLo = some r → s.reqPendingLo = some r) : LoRests s' := by
  intro u hu
  obtain ⟨hr,hn⟩ := h u (hpend u hu)
  exact ⟨hr.congr (grows_of_eq hposts) (by rw [hserial]) (hrest u),
    fun hm => hn ((hlo.append hhi).subset hm)⟩

end Frame

/-! Starting a transfer. -/

section Start

variable {s : Arq} {r : ℕ}

theorem rest_setReq (s : Arq) (r u : ℕ) (q : ARQRequest)
    (h : u = r → (⟨q.dir,q.mramAddr,q.aramAddr,q.len⟩ : Dma) = rest s r) :
    rest (setReq r q s) u = rest s u := by
  by_cases hu : u = r
  · subst hu
    simp only [rest, setReq, update_self]
    exact h rfl
  · simp [rest, setReq, update_of_ne hu]

theorem Common.start (h : Common s) (d : Dma) (q : ARQRequest)
    (hr : r ∉ s.reqQueueLo ++ s.reqQueueHi) : Common (arStartDMA r d (setReq r q s)) := by
  obtain ⟨l,hl⟩ := h.flight
  have hnew : (arStartDMA r d (setReq r q s)).issued =
      l ++ (arStartDMA r d (setReq r q s)).flight := by
    change s.issued ++ [_] = l ++ (s.flight ++ [_])
    rw [hl, append_assoc]
  refine ⟨h.chunk,h.nodup,?_,⟨l,hnew⟩,?_⟩
  · intro u hu
    refine (h.queued u hu).congr (grows_of_eq rfl) rfl ?_
    exact rest_setReq s r u q (fun he => absurd (he ▸ hu) hr)
  · intro c hc
    refine (h.calls c hc).congr (grows_of_eq rfl) ?_
    rw [completed_eq hl, completed_eq hnew]
    exact fun e he => he

theorem Rest.last (h : Rest s r) (k : ℕ) : Last s r ⟨s.serial r,k,rest s r⟩ := by
  obtain ⟨p,hp,hr,he⟩ := h
  exact ⟨rfl,p,hp,hr,he⟩

theorem u32_add (a b : ℕ) : u32 (u32 a+b) = u32 (a+b) := Nat.mod_add_mod a _ b

theorem EndsAs.chunk {d : Dma} {p : Post} (h : EndsAs d p) {k : ℕ} (hk : k < d.len) :
    EndsAs ⟨d.dir,u32 (d.mramAddr+k),u32 (d.aramAddr+k),d.len-k⟩ p := by
  obtain ⟨hd,-,hm,ha⟩ := h
  refine ⟨hd,fun _ => Nat.sub_pos_of_lt hk,?_,?_⟩
  · rw [u32_add, Nat.add_assoc, Nat.add_sub_cancel' (Nat.le_of_lt hk)]
    exact hm
  · rw [u32_add, Nat.add_assoc, Nat.add_sub_cancel' (Nat.le_of_lt hk)]
    exact ha

theorem arqServe_hi {s : Arq} {r : ℕ} {q : List ℕ} (h : s.reqQueueHi = r::q) :
    arqServe s = { arStartDMA r (rest s r) (setReq r { s.req r with state := .running }
      { s with reqQueueHi := q }) with
        callbackHi := some (s.req r).callback, reqPendingHi := some r } := by
  have hpop : arqPopTaskQueueHi s = { arStartDMA r (rest s r) (setReq r
      { s.req r with state := .running } { s with reqQueueHi := q }) with
        callbackHi := some (s.req r).callback, reqPendingHi := some r } := by
    rw [arqPopTaskQueueHi, h]
    rfl
  rw [arqServe, hpop]
  rfl

theorem arqServe_lo {s : Arq} (h : s.reqQueueHi = []) (hp : s.reqPendingHi = none) :
    arqServe s = arqServiceQueueLo s := by
  have hpop : arqPopTaskQueueHi s = s := by rw [arqPopTaskQueueHi, h]
  rw [arqServe, hpop, if_pos hp]

theorem serveHi_tidy (h : Ready s) {q : List ℕ} (hq : s.reqQueueHi = r::q) : Tidy (arqServe s) := by
  have hc := h.common
  have hr : r ∉ s.reqQueueLo ++ q := by
    have hnd := hc.nodup
    rw [hq] at hnd
    exact (nodup_middle.mp hnd).notMem
  have hsub : q.Sublist s.reqQueueHi := hq ▸ sublist_cons_self r q
  have hc' : Common { s with reqQueueHi := q } :=
    hc.congr rfl rfl rfl (fun _ => rfl) rfl rfl rfl (List.Sublist.refl _) hsub
  have hrest : ∀ u, rest (setReq r { s.req r with state := .running }
      { s with reqQueueHi := q }) u = rest s u :=
    fun u => rest_setReq { s with reqQueueHi := q } r u _ (fun _ => rfl)
  rw [arqServe_hi hq]
  refine ⟨?_,.movesHi r ⟨s.serial r,s.posts.length,rest s r⟩ h.phase ?_ rfl nofun h.callLo ?_ ?_⟩
  · have hst := hc'.start (rest s r) { s.req r with state := .running } hr
    exact ⟨hst.chunk,hst.nodup,hst.queued,hst.flight,hst.calls⟩
  · change s.flight ++ [_] = [_]
    rw [h.flight]
    rfl
  · exact (hc.queued r (by simp [hq])).last _
  · exact h.loRests.congr rfl rfl hrest (List.Sublist.refl _) hsub (fun _ hu => hu)

theorem transferLo_tidy (h : Ready s) (hr : s.reqPendingLo = some r) :
    Tidy (arqTransferLo r s) := by
  obtain ⟨hrest,hn⟩ := h.loRests r hr
  have hflight : ∀ d q, (arStartDMA r d (setReq r q s)).flight =
      [⟨s.serial r,s.posts.length,d⟩] := by
    intro d q
    change s.flight ++ [_] = [_]
    rw [h.flight]
    rfl
  unfold arqTransferLo
  dsimp only
  split
  · have hst := h.common.start (rest s r) { s.req r with state := .running } hn
    exact ⟨⟨hst.chunk,hst.nodup,hst.queued,hst.flight,hst.calls⟩,
      .movesLast r ⟨s.serial r,s.posts.length,rest s r⟩ h.phase (hflight _ _) hr h.pendHi nofun
        h.callHi (hrest.last _)⟩
  · rename_i hlen
    refine ⟨h.common.start _ _ hn,.movesChunk r _ h.phase (hflight _ _) hr h.pendHi h.callLo
      h.callHi ?_⟩
    intro u hu
    obtain rfl : r = u := mem_unique hr hu
    obtain ⟨p,hp,hreq,hd⟩ := hrest
    refine ⟨⟨p,hp,hreq,?_⟩,hn⟩
    have hchunk := hd.chunk (Nat.lt_of_not_le hlen)
    simpa [rest, arStartDMA, setReq] using hchunk

theorem serviceLo_tidy (h : Ready s) : Tidy (arqServiceQueueLo s) := by
  unfold arqServiceQueueLo
  cases hp : s.reqPendingLo with
  | some r =>
    have hf : arqFetchLo s = s := by simp [arqFetchLo, hp]
    rw [hf, hp]
    exact transferLo_tidy h hp
  | none =>
    have hf : arqFetchLo s =
        { s with reqPendingLo := s.reqQueueLo.head?, reqQueueLo := s.reqQueueLo.tail } := by
      simp [arqFetchLo, hp]
    have hc : Common (arqFetchLo s) := by
      rw [hf]
      exact h.common.congr rfl rfl rfl (fun _ => rfl) rfl rfl rfl (tail_sublist _)
        (List.Sublist.refl _)
    cases hq : s.reqQueueLo with
    | nil =>
      rw [hq] at hf
      rw [hf] at hc ⊢
      exact ⟨hc,.idle h.phase h.flight rfl h.pendHi h.callLo h.callHi⟩
    | cons r q =>
      rw [hq] at hf
      have hrest := h.common.queued r (by simp [hq])
      have hnd := h.common.nodup
      rw [hq] at hnd
      rw [hf] at hc ⊢
      refine transferLo_tidy ⟨hc,h.phase,h.flight,h.pendHi,h.callLo,h.callHi,?_⟩ rfl
      intro u hu
      obtain rfl : r = u := some.inj hu
      exact ⟨hrest.congr (grows_of_eq rfl) rfl rfl,(nodup_cons.mp hnd).1⟩

theorem serve_tidy (h : Ready s) : Tidy (arqServe s) := by
  cases hq : s.reqQueueHi with
  | nil =>
    rw [arqServe_lo hq h.pendHi]
    exact serviceLo_tidy h
  | cons r q => exact serveHi_tidy h hq

end Start

/-! The steps. -/

section Steps

variable {s t : Arq}

theorem dmaDone_common (h : Common s) : Common (dmaDone s) := by
  unfold dmaDone
  split
  · exact h
  · rename_i e es hf
    obtain ⟨l,hl⟩ := h.flight
    rw [hf] at hl
    refine ⟨h.chunk,h.nodup,h.queued,⟨l ++ [e],by simp [hl]⟩,?_⟩
    intro c hc
    refine (h.calls c hc).congr (grows_of_eq rfl) ?_
    rw [completed_eq (by rw [hl, hf]), completed_eq (l := l ++ [e]) (by simp [hl])]
    exact fun x hx => mem_append_left _ hx

theorem dmaDone_done (h : Common s) (hf : s.flight = [e]) : e ∈ completed (dmaDone s) := by
  obtain ⟨l,hl⟩ := h.flight
  have hd : completed (dmaDone s) = l ++ [e] := by
    apply completed_eq
    simp [dmaDone, hf, hl]
  simp [hd]

theorem dmaDone_one (hf : s.flight = [e]) : dmaDone s = { s with
    flight := []
    moved := update s.moved e.serial (s.moved e.serial+e.dma.len) } := by
  unfold dmaDone
  rw [hf]

theorem callBack_common (h : Common s) (hlast : Last s r e) (he : e ∈ completed s) (ph : Phase) :
    Common { callBack fn r s with phase := ph } := by
  have hrest : ∀ u, rest { callBack fn r s with phase := ph } u = rest s u :=
    fun u => rest_setReq s r u _ (fun _ => rfl)
  refine ⟨h.chunk,h.nodup,?_,h.flight,?_⟩
  · exact fun u hu => (h.queued u hu).congr (grows_of_eq rfl) rfl (hrest u)
  · intro c hc
    rcases mem_append.mp hc with hc | hc
    · exact (h.calls c hc).congr (grows_of_eq rfl) (fun _ hx => hx)
    · obtain rfl := mem_singleton.mp hc
      obtain ⟨hs,p,hp,hr,hd⟩ := hlast
      exact ⟨p,e,hp,hr,he,hs,hd⟩

theorem routine_hi (hch : s.callbackHi = some fn) (hh : s.reqPendingHi = some r) :
    arInterruptServiceRoutine s = some { callBack fn r s with phase := .callingHi } := by
  rw [arInterruptServiceRoutine, hch, hh]
  rfl

theorem routine_lo (hch : s.callbackHi = none) (hcl : s.callbackLo = some fn)
    (hl : s.reqPendingLo = some r) :
    arInterruptServiceRoutine s = some { callBack fn r s with phase := .callingLo } := by
  rw [arInterruptServiceRoutine, hch, hcl, hl]
  rfl

theorem routine_none (hch : s.callbackHi = none) (hcl : s.callbackLo = none) :
    arInterruptServiceRoutine s = some (arqServe s) := by
  rw [arInterruptServiceRoutine, hch, hcl]

theorem interrupt_tidy (h : Tidy s) (hphase : s.phase = .outside) (hflight : s.flight ≠ [])
    (ht : arInterruptServiceRoutine (dmaDone s) = some t) : Tidy t := by
  have hc := dmaDone_common h.common
  cases h.engine with
  | idle _ hf => exact absurd hf hflight
  | callsHi hp | callsLo hp => exact absurd (hphase.symm.trans hp) (by decide)
  | movesHi r e hp hf hh hch hcl hlast hlo =>
    obtain ⟨fn,hfn⟩ := ne_none_iff_exists'.mp hch
    have hdone := dmaDone_done h.common hf
    rw [dmaDone_one hf] at ht hc hdone
    obtain rfl := mem_unique (routine_hi (by exact hfn) (by exact hh)) ht
    refine ⟨callBack_common hc (hlast.congr (grows_of_eq rfl) rfl) hdone _,
      .callsHi rfl rfl ?_ hcl ?_⟩
    · exact fun he => absurd (hh.symm.trans he) nofun
    · exact hlo.congr rfl rfl (fun u => rest_setReq _ r u _ (fun _ => rfl)) (List.Sublist.refl _)
        (List.Sublist.refl _) (fun _ hu => hu)
  | movesChunk r e hp hf hl hh hcl hch hlo =>
    rw [dmaDone_one hf] at ht hc
    obtain rfl := mem_unique (routine_none (by exact hch) (by exact hcl)) ht
    exact serve_tidy ⟨hc,hp,rfl,hh,hcl,hch,hlo.congr rfl rfl (fun _ => rfl) (List.Sublist.refl _)
      (List.Sublist.refl _) (fun _ hu => hu)⟩
  | movesLast r e hp hf hl hh hcl hch hlast =>
    obtain ⟨fn,hfn⟩ := ne_none_iff_exists'.mp hcl
    have hdone := dmaDone_done h.common hf
    rw [dmaDone_one hf] at ht hc hdone
    obtain rfl := mem_unique (routine_lo (by exact hch) (by exact hfn)
      (by exact hl)) ht
    refine ⟨callBack_common hc (hlast.congr (grows_of_eq rfl) rfl) hdone _,
      .callsLo rfl rfl ?_ hh hch hcl⟩
    exact fun he => absurd (hl.symm.trans he) nofun

theorem ret_tidy (h : Tidy s) (hphase : s.phase ≠ .outside) : Tidy (callbackReturn s) := by
  have hc := h.common
  cases h.engine with
  | idle hp | movesHi r e hp | movesChunk r e hp | movesLast r e hp => exact absurd hp hphase
  | callsHi hp hf hh hcl hlo =>
    simp only [callbackReturn, hp]
    exact serve_tidy ⟨hc.congr rfl rfl rfl (fun _ => rfl) rfl rfl rfl (List.Sublist.refl _)
      (List.Sublist.refl _),rfl,hf,rfl,hcl,rfl,hlo.congr rfl rfl (fun _ => rfl)
        (List.Sublist.refl _) (List.Sublist.refl _) (fun _ hu => hu)⟩
  | callsLo hp hf hl hh hch hcl =>
    simp only [callbackReturn, hp]
    exact serve_tidy ⟨hc.congr rfl rfl rfl (fun _ => rfl) rfl rfl rfl (List.Sublist.refl _)
      (List.Sublist.refl _),rfl,hf,hh,rfl,hch,nofun⟩

theorem leave_tidy (h : Tidy s) {lo hi : List ℕ} {pend : Option ℕ}
    (hlo : lo.Sublist s.reqQueueLo) (hhi : hi.Sublist s.reqQueueHi) (hpend : pend = s.reqPendingLo ∨
      pend = none ∧ s.callbackLo = none ∧ ¬ChunkMoves s) :
    Tidy { s with reqQueueLo := lo, reqQueueHi := hi, reqPendingLo := pend } := by
  have hc : Common { s with reqQueueLo := lo, reqQueueHi := hi, reqPendingLo := pend } :=
    h.common.congr rfl rfl rfl (fun _ => rfl) rfl rfl rfl hlo hhi
  have hrests : LoRests s →
      LoRests { s with reqQueueLo := lo, reqQueueHi := hi, reqPendingLo := pend } := by
    intro hr
    refine hr.congr rfl rfl (fun _ => rfl) hlo hhi ?_
    rintro u (hu : pend = some u)
    rcases hpend with rfl | ⟨rfl,-⟩
    · exact hu
    · exact absurd hu nofun
  refine ⟨hc,?_⟩
  cases h.engine with
  | idle hp hf hl hh hcl hch =>
    refine .idle hp hf ?_ hh hcl hch
    rcases hpend with rfl | ⟨rfl,-⟩
    · exact hl
    · rfl
  | movesHi r e hp hf hh hch hcl hlast hlo =>
    exact .movesHi r e hp hf hh hch hcl (hlast.congr (grows_of_eq rfl) rfl) (hrests hlo)
  | movesChunk r e hp hf hl hh hcl hch hlo =>
    rcases hpend with rfl | ⟨-,-,hn⟩
    · exact .movesChunk r e hp hf hl hh hcl hch (hrests hlo)
    · exact absurd ⟨by simp [hl],hcl,hh⟩ hn
  | movesLast r e hp hf hl hh hcl hch hlast =>
    rcases hpend with rfl | ⟨-,hn,-⟩
    · exact .movesLast r e hp hf hl hh hcl hch (hlast.congr (grows_of_eq rfl) rfl)
    · exact absurd hn hcl
  | callsHi hp hf hh hcl hlo => exact .callsHi hp hf hh hcl (hrests hlo)
  | callsLo hp hf hl hh hch hcl =>
    rcases hpend with rfl | ⟨-,hn,-⟩
    · exact .callsLo hp hf hl hh hch hcl
    · exact absurd hn hcl

theorem flushed_tidy (h : Tidy s) (hok : ¬ChunkMoves s) : Tidy (flushed s) := by
  unfold flushed forgetLo
  split
  · rename_i hcl
    exact leave_tidy h (nil_sublist _) (nil_sublist _) (.inr ⟨rfl,hcl,hok⟩)
  · exact leave_tidy h (nil_sublist _) (nil_sublist _) (.inl rfl)

theorem removed_tidy (h : Tidy s) (hok : s.reqPendingLo = some r → ¬ChunkMoves s) :
    Tidy (removed r s) := by
  unfold removed forgetLo
  dsimp only
  split
  · rename_i hr
    split
    · rename_i hcl
      exact leave_tidy h erase_sublist erase_sublist (.inr ⟨rfl,hcl,hok hr⟩)
    · exact leave_tidy h erase_sublist erase_sublist (.inl rfl)
  · exact leave_tidy h erase_sublist erase_sublist (.inl rfl)

theorem ownerRemoved_tidy (h : Tidy s) (owner : ℕ) : Tidy (ownerRemoved owner s) :=
  leave_tidy h filter_sublist filter_sublist (.inl rfl)

/-! A post. -/

variable {p : Post}

section

variable (h : Posted s t p)
include h

theorem posted_mem {u : ℕ} :
    u ∈ t.reqQueueLo ++ t.reqQueueHi ↔ u ∈ s.reqQueueLo ++ s.reqQueueHi ∨ u = p.req := by
  rw [h.queueLo, h.queueHi]
  cases hl : low p <;> simp [high, hl, or_comm, or_left_comm]

theorem posted_nodup (hnd : (s.reqQueueLo ++ s.reqQueueHi).Nodup)
    (hlo : p.req ∉ s.reqQueueLo) (hhi : p.req ∉ s.reqQueueHi) :
    (t.reqQueueLo ++ t.reqQueueHi).Nodup := by
  have hnew : (p.req::(s.reqQueueLo ++ s.reqQueueHi)).Nodup :=
    nodup_cons.mpr ⟨by simp [hlo, hhi],hnd⟩
  rw [h.queueLo, h.queueHi]
  refine (List.Perm.nodup_iff ?_).mpr hnew
  cases hl : low p
  · simp [high, hl, ← append_assoc]
  · simp [high, hl]

theorem posted_grows : Grows s t := by
  intro i q hq
  rw [h.old (List.getElem?_eq_some_iff.mp hq).1]
  exact hq

theorem posted_rest {u : ℕ} (hu : u ≠ p.req) (hr : Rest s u) : Rest t u :=
  hr.congr (posted_grows h) (h.serial_ne hu) (by simp [rest, h.req u hu])

theorem posted_new : Rest t p.req := by
  have hserial : t.serial p.req = s.posts.length := by rw [h.serial, update_self]
  refine ⟨p,by simp [hserial, h.posts],rfl,?_⟩
  unfold rest
  rw [h.filled]
  exact ⟨rfl,id,rfl,rfl⟩

theorem posted_common (hc : Common s)
    (hlo : p.req ∉ s.reqQueueLo) (hhi : p.req ∉ s.reqQueueHi) : Common t := by
  have hdone : completed t = completed s := by rw [completed, completed, h.issued, h.flight]
  refine ⟨h.chunkSize ▸ hc.chunk,posted_nodup h hc.nodup hlo hhi,?_,
    h.issued ▸ h.flight ▸ hc.flight,?_⟩
  · intro u hu
    by_cases hup : u = p.req
    · subst hup
      exact posted_new h
    · exact posted_rest h hup (hc.queued u (((posted_mem h).mp hu).resolve_right hup))
  · intro c hcc
    rw [h.calls] at hcc
    exact (hc.calls c hcc).congr (posted_grows h) (fun e he => hdone ▸ he)

theorem posted_loRests (hr : LoRests s) (hne : s.reqPendingLo ≠ some p.req) : LoRests t := by
  intro u hu
  rw [h.pendLo] at hu
  obtain ⟨hrest,hn⟩ := hr u hu
  have hup : u ≠ p.req := fun he => hne (he ▸ hu)
  exact ⟨posted_rest h hup hrest,fun hm => hn (((posted_mem h).mp hm).resolve_right hup)⟩

end

theorem post_tidy (h : Tidy s) (hok : CancelOk (.post p) s) : Tidy (arqPostRequestAsync p s) := by
  obtain ⟨hlo,hhi,hpl,hph⟩ := hok
  have hP := append_posted s p
  have hc := posted_common hP h.common hlo hhi
  unfold arqPostRequestAsync
  generalize arqAppend p (fillRequest p s) = t at hP hc ⊢
  have hother : ∀ {r e}, s.reqPendingLo = some r ∨ s.reqPendingHi = some r → s.phase = .outside →
      Last s r e → Last t r e := by
    intro r e hr hp hlast
    refine hlast.congr (posted_grows hP) (hP.serial_ne ?_)
    rintro rfl
    rcases hr with hr | hr
    · exact absurd (hp.symm.trans (hpl hr)) (by decide)
    · exact absurd (hp.symm.trans (hph hr)) (by decide)
  cases h.engine with
  | idle hp hf hl hh hcl hch =>
    rw [if_pos ⟨hP.pendLo.trans hl,hP.pendHi.trans hh⟩]
    refine serve_tidy ⟨hc,hP.phase.trans hp,hP.flight.trans hf,hP.pendHi.trans hh,
      hP.callLo.trans hcl,hP.callHi.trans hch,?_⟩
    exact posted_loRests hP (fun r hr => absurd (hl.symm.trans hr) nofun) (by simp [hl])
  | movesHi r e hp hf hh hch hcl hlast hrests =>
    rw [if_neg (by simp [hP.pendHi, hh])]
    refine ⟨hc,.movesHi r e (hP.phase.trans hp) (hP.flight.trans hf) (hP.pendHi.trans hh)
      (hP.callHi ▸ hch) (hP.callLo.trans hcl) (hother (.inr hh) hp hlast) ?_⟩
    exact posted_loRests hP hrests (fun he => absurd (hp.symm.trans (hpl he)) (by decide))
  | movesChunk r e hp hf hl hh hcl hch hrests =>
    rw [if_neg (by simp [hP.pendLo, hl])]
    refine ⟨hc,.movesChunk r e (hP.phase.trans hp) (hP.flight.trans hf) (hP.pendLo.trans hl)
      (hP.pendHi.trans hh) (hP.callLo.trans hcl) (hP.callHi.trans hch) ?_⟩
    exact posted_loRests hP hrests (fun he => absurd (hp.symm.trans (hpl he)) (by decide))
  | movesLast r e hp hf hl hh hcl hch hlast =>
    rw [if_neg (by simp [hP.pendLo, hl])]
    exact ⟨hc,.movesLast r e (hP.phase.trans hp) (hP.flight.trans hf) (hP.pendLo.trans hl)
      (hP.pendHi.trans hh) (hP.callLo ▸ hcl) (hP.callHi.trans hch) (hother (.inl hl) hp hlast)⟩
  | callsHi hp hf hh hcl hrests =>
    rw [if_neg (by simp [hP.pendHi, hh])]
    refine ⟨hc,.callsHi (hP.phase.trans hp) (hP.flight.trans hf) (hP.pendHi ▸ hh)
      (hP.callLo.trans hcl) ?_⟩
    exact posted_loRests hP hrests (fun he => absurd (hp.symm.trans (hpl he)) (by decide))
  | callsLo hp hf hl hh hch hcl =>
    rw [if_neg (by simp [hP.pendLo, hl])]
    exact ⟨hc,.callsLo (hP.phase.trans hp) (hP.flight.trans hf) (hP.pendLo ▸ hl)
      (hP.pendHi.trans hh) (hP.callHi.trans hch) (hP.callLo ▸ hcl)⟩

theorem cancelStep_tidy {a : CancelAction} (h : Tidy s) (hok : CancelOk a s)
    (ht : cancelStep a s = some t) : Tidy t := by
  cases a with
  | post p =>
    cases ht
    exact post_tidy h hok
  | removeRequest r =>
    cases ht
    exact removed_tidy h hok
  | removeOwnerRequest owner =>
    cases ht
    exact ownerRemoved_tidy h owner
  | flushQueue =>
    cases ht
    exact flushed_tidy h hok
  | interrupt => exact interrupt_tidy h hok.2 hok.1 ht
  | ret =>
    cases ht
    exact ret_tidy h hok

theorem Tidy.one (h : Tidy s) : s.flight.length ≤ 1 := by
  cases h.engine with
  | idle hp hf => simp [hf]
  | movesHi r e hp hf => simp [hf]
  | movesChunk r e hp hf | movesLast r e hp hf | callsHi hp hf | callsLo hp hf => simp [hf]

end Steps

end Libogc.RequestCancel
