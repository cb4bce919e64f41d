import Libogc.Aram.RequestLinks

/-!
# What a removal takes out

`ARQ_RemoveRequest` follows the links of the request whether it is queued or
not. The pending request has left its queue and keeps the links it had there,
so taking it out is without effect on the queues only while these links still
name two neighbours. `ARQ_RemoveOwnerRequest` compares the pending request with
the end of the queue and so keeps it.
-/

set_option autoImplicit false

namespace Libogc.RequestRemoval
open List GuardedReach DoublyLinked Queue RequestQueue Option Function
open RequestCancel RequestLinks

inductive QueueAction where
  | call (a : LinkedAction)
  | setChunkSize (size : ℕ)
  deriving DecidableEq, Repr

def queueStep : QueueAction → LinkedArq → Option LinkedArq
  | .call a, s => linkedStep a s
  | .setChunkSize size, s => some { s with arq := arqSetChunkSize size s.arq }

def NextLive (l : Links QueueId ℕ) (x : Node QueueId ℕ) : Prop :=
  ∃ (q : QueueId) (ns : List ℕ),
    Listed l.next l.prev (.head q) (.tail q) (ns.map .obj) ∧ x ∈ Node.head q::ns.map .obj

def PrevLive (l : Links QueueId ℕ) (x : Node QueueId ℕ) : Prop :=
  ∃ (q : QueueId) (ns : List ℕ),
    Listed l.next l.prev (.head q) (.tail q) (ns.map .obj) ∧ x ∈ ns.map .obj ++ [Node.tail q]

/-- The request is queued, or the nodes that its links name are, as far as they
are queued, each other's neighbours. -/
def Harmless (l : Links QueueId ℕ) (r : ℕ) : Prop :=
  NextLive l (.obj r) ∨
    (NextLive l (l.prev (.obj r)) → l.next (l.prev (.obj r)) = l.next (.obj r)) ∧
    (PrevLive l (l.next (.obj r)) → l.prev (l.next (.obj r)) = l.prev (.obj r))

def QueueOk : QueueAction → LinkedArq → Prop
  | .call (.removeRequest r), s => Harmless s.links r
  | .call a, s => CallOk a s
  | .setChunkSize _, _ => True

/-- A request is pending until its callback is called. -/
def PendingLo (s : Arq) (r : ℕ) : Prop := s.reqPendingLo = some r ∧ s.phase ≠ .callingLo

def PendingHi (s : Arq) (r : ℕ) : Prop := s.reqPendingHi = some r ∧ s.phase ≠ .callingHi

def PartlyMoved (s : Arq) (r : ℕ) : Prop := s.reqPendingLo = some r ∧ s.callbackLo = none

section Removal

variable {s : LinkedArq} {c : QueueId → List ℕ} {r : ℕ} {l : Links QueueId ℕ}

theorem nextLive_iff (h : Holds l c) (x : Node QueueId ℕ) :
    NextLive l x ↔ ∃ q, x ∈ Node.head q::(c q).map .obj := by
  constructor
  · rintro ⟨q,ns,hl,hx⟩
    obtain rfl := h.eq_of_listed hl
    exact ⟨q,hx⟩
  · rintro ⟨q,hx⟩
    exact ⟨q,c q,h.listed q,hx⟩

theorem prevLive_iff (h : Holds l c) (x : Node QueueId ℕ) :
    PrevLive l x ↔ ∃ q, x ∈ (c q).map .obj ++ [Node.tail q] := by
  constructor
  · rintro ⟨q,ns,hl,hx⟩
    obtain rfl := h.eq_of_listed hl
    exact ⟨q,hx⟩
  · rintro ⟨q,hx⟩
    exact ⟨q,c q,h.listed q,hx⟩

theorem queued_iff (h : Holds s.links c) : Queued s r ↔ ∃ q, r ∈ c q := by
  constructor
  · rintro ⟨q,ns,hl,hr⟩
    obtain rfl := h.eq_of_listed hl
    exact ⟨q,hr⟩
  · rintro ⟨q,hr⟩
    exact ⟨q,c q,h.listed q,hr⟩

theorem erase_eq_update (h : Holds s.links c) {q : QueueId} (hr : r ∈ c q) :
    (fun q' => (c q').erase r) = Function.update c q ((c q).erase r) := by
  funext q'
  by_cases he : q' = q
  · subst he
    rw [update_self]
  · rw [update_of_ne he]
    exact erase_of_not_mem (fun hm => he (h.apart q' q r hm hr))

theorem removeRequest_holds_iff (h : Holds s.links c) (r : ℕ) :
    Holds (removeRequest r s).links (fun q => (c q).erase r) ↔ Harmless s.links r := by
  by_cases hq : ∃ q, r ∈ c q
  · obtain ⟨q,hr⟩ := hq
    refine iff_of_true ?_ (.inl ((nextLive_iff h _).mpr ⟨q,?_⟩))
    · rw [erase_eq_update h hr]
      exact extractI_holds h hr
    · exact mem_cons_of_mem _ (mem_map_of_mem hr)
  · have hsame : (fun q => (c q).erase r) = c :=
      funext (fun q => erase_of_not_mem (fun hm => hq ⟨q,hm⟩))
    have hdead : ¬NextLive s.links (.obj r) := by
      rw [nextLive_iff h]
      rintro ⟨q,hm⟩
      exact hq ⟨q,by simpa using hm⟩
    rw [hsame, Harmless, or_iff_right hdead, nextLive_iff h, prevLive_iff h, forall_exists_index,
      forall_exists_index]
    exact extractI_keeps_iff h (.obj r)

theorem not_queued_of_erase (h : Holds (removeRequest r s).links (fun q => (c q).erase r))
    (hc : ∀ q, (c q).Nodup) : ¬Queued (removeRequest r s) r := by
  rw [queued_iff h]
  rintro ⟨q,hm⟩
  exact (hc q).not_mem_erase hm

end Removal

/-! A queued request is not pending. -/

structure Lone (s : Arq) : Prop where
  lo : ∀ r, s.reqPendingLo = some r → r ∈ s.reqQueueLo ++ s.reqQueueHi → s.phase = .callingLo
  hi : ∀ r, s.reqPendingHi = some r → r ∈ s.reqQueueLo ++ s.reqQueueHi → s.phase = .callingHi
  apart : ∀ r, s.reqPendingLo = some r → s.reqPendingHi ≠ some r

section Lone

variable {s t : Arq} {r : ℕ}

theorem Lone.shrink (h : Lone s) (hphase : t.phase = s.phase)
    (hlo : ∀ r, t.reqPendingLo = some r → s.reqPendingLo = some r)
    (hhi : ∀ r, t.reqPendingHi = some r → s.reqPendingHi = some r)
    (hq : ∀ r ∈ t.reqQueueLo ++ t.reqQueueHi, r ∈ s.reqQueueLo ++ s.reqQueueHi) : Lone t where
  lo r hr hm := hphase.trans (h.lo r (hlo r hr) (hq r hm))
  hi r hr hm := hphase.trans (h.hi r (hhi r hr) (hq r hm))
  apart r hr hr' := h.apart r (hlo r hr) (hhi r hr')

theorem forgetLo_pending (s : Arq) (h : (forgetLo s).reqPendingLo = some r) :
    s.reqPendingLo = some r := by
  unfold forgetLo at h
  split at h
  · exact absurd h nofun
  · exact h

theorem forgetLo_frame (s : Arq) : (forgetLo s).phase = s.phase ∧
    (forgetLo s).reqPendingHi = s.reqPendingHi ∧ (forgetLo s).reqQueueLo = s.reqQueueLo ∧
    (forgetLo s).reqQueueHi = s.reqQueueHi ∧ (forgetLo s).req = s.req := by
  unfold forgetLo
  split <;> simp

theorem transferLo_frame (r : ℕ) (s : Arq) : (arqTransferLo r s).phase = s.phase ∧
    (arqTransferLo r s).reqPendingLo = s.reqPendingLo ∧
    (arqTransferLo r s).reqPendingHi = s.reqPendingHi ∧
    (arqTransferLo r s).reqQueueLo = s.reqQueueLo ∧
    (arqTransferLo r s).reqQueueHi = s.reqQueueHi := by
  unfold arqTransferLo
  dsimp only
  split <;> exact ⟨rfl,rfl,rfl,rfl,rfl⟩

section

variable (h : Lone s) (hnd : (s.reqQueueLo ++ s.reqQueueHi).Nodup)
include h hnd

theorem serveHi_lone
    (hp : s.phase = .outside ∨ s.reqPendingLo = none) {q : List ℕ} (hq : s.reqQueueHi = r::q) :
    Lone (arqServe s) := by
  rw [arqServe_hi hq]
  rw [hq] at hnd
  have hold : ∀ u ∈ s.reqQueueLo ++ q, u ∈ s.reqQueueLo ++ s.reqQueueHi := by
    intro u hu
    rw [hq]
    rcases mem_append.mp hu with hu | hu
    · exact mem_append_left _ hu
    · exact mem_append_right _ (mem_cons_of_mem _ hu)
  refine ⟨fun u hu hm => h.lo u hu (hold u hm),?_,?_⟩
  · intro u hu hm
    cases hu
    exact absurd hm (nodup_middle.mp hnd).notMem
  · intro u hu hu'
    obtain rfl := some.inj hu'
    have hcall := h.lo r hu (by simp [hq])
    rcases hp with hp | hp
    · exact absurd (hp.symm.trans hcall) nofun
    · exact absurd (hp.symm.trans hu) nofun

theorem serviceLo_lone (hp : s.reqPendingHi = none) : Lone (arqServiceQueueLo s) := by
  have hfetch : Lone (arqFetchLo s) := by
    unfold arqFetchLo
    split
    · cases hq : s.reqQueueLo with
      | nil => exact h.shrink rfl (by simp) (fun _ hu => hu) (by simp [hq])
      | cons r q =>
        rw [hq] at hnd
        refine ⟨?_,?_,?_⟩
        · intro u hu hm
          cases hu
          exact absurd hm (nodup_cons.mp hnd).1
        · intro u hu
          exact absurd (hp.symm.trans hu) nofun
        · intro u _ hu
          exact absurd (hp.symm.trans hu) nofun
    · exact h
  unfold arqServiceQueueLo
  split
  · exact hfetch
  · rename_i r _
    obtain ⟨hphase,hlo,hhi,hqlo,hqhi⟩ := transferLo_frame r (arqFetchLo s)
    exact hfetch.shrink hphase (fun u hu => hlo.symm.trans hu) (fun u hu => hhi.symm.trans hu)
      (fun u hu => by rwa [hqlo, hqhi] at hu)

theorem serve_lone (hp : s.phase = .outside ∨ s.reqPendingLo = none) : Lone (arqServe s) := by
  cases hq : s.reqQueueHi with
  | cons r q => exact serveHi_lone h hnd hp hq
  | nil =>
    by_cases hh : s.reqPendingHi = none
    · rw [arqServe_lo hq hh]
      exact serviceLo_lone h hnd hh
    · have hpop : arqPopTaskQueueHi s = s := by rw [arqPopTaskQueueHi, hq]
      rw [arqServe, hpop, if_neg hh]
      exact h

theorem post_lone {p : Post} (hlo : p.req ∉ s.reqQueueLo) (hhi : p.req ∉ s.reqQueueHi)
    (hok : (s.reqPendingLo = some p.req → s.phase = .callingLo) ∧
      (s.reqPendingHi = some p.req → s.phase = .callingHi)) : Lone (arqPostRequestAsync p s) := by
  have hpost := RequestDelivery.append_posted s p
  have hmem : ∀ u ∈ (arqAppend p (fillRequest p s)).reqQueueLo ++
      (arqAppend p (fillRequest p s)).reqQueueHi,
      u ∈ s.reqQueueLo ++ s.reqQueueHi ∨ u = p.req := fun u hu => (posted_mem hpost).mp hu
  have happ : Lone (arqAppend p (fillRequest p s)) := by
    refine ⟨?_,?_,?_⟩
    · intro u hu hm
      rw [hpost.pendLo] at hu
      rw [hpost.phase]
      rcases hmem u hm with hm | rfl
      · exact h.lo u hu hm
      · exact hok.1 hu
    · intro u hu hm
      rw [hpost.pendHi] at hu
      rw [hpost.phase]
      rcases hmem u hm with hm | rfl
      · exact h.hi u hu hm
      · exact hok.2 hu
    · rw [hpost.pendLo, hpost.pendHi]
      exact h.apart
  unfold arqPostRequestAsync
  dsimp only
  split
  · rename_i hnone
    exact serve_lone happ (posted_nodup hpost hnd hlo hhi) (.inr hnone.1)
  · exact happ

end

theorem dmaDone_frame (s : Arq) : (dmaDone s).phase = s.phase ∧
    (dmaDone s).reqPendingLo = s.reqPendingLo ∧ (dmaDone s).reqPendingHi = s.reqPendingHi ∧
    (dmaDone s).reqQueueLo = s.reqQueueLo ∧ (dmaDone s).reqQueueHi = s.reqQueueHi := by
  unfold dmaDone
  split <;> exact ⟨rfl,rfl,rfl,rfl,rfl⟩

theorem Lone.phase (h : Lone s) (hp : s.phase = .outside) (hlo : t.reqPendingLo = s.reqPendingLo)
    (hhi : t.reqPendingHi = s.reqPendingHi) (hqlo : t.reqQueueLo = s.reqQueueLo)
    (hqhi : t.reqQueueHi = s.reqQueueHi) : Lone t := by
  refine ⟨?_,?_,?_⟩
  · intro u hu hm
    rw [hqlo, hqhi] at hm
    exact absurd (hp.symm.trans (h.lo u (hlo.symm.trans hu) hm)) nofun
  · intro u hu hm
    rw [hqlo, hqhi] at hm
    exact absurd (hp.symm.trans (h.hi u (hhi.symm.trans hu) hm)) nofun
  · rw [hlo, hhi]
    exact h.apart

theorem interrupt_lone (h : Lone s) (hnd : (s.reqQueueLo ++ s.reqQueueHi).Nodup)
    (hp : s.phase = .outside) (ht : arInterruptServiceRoutine (dmaDone s) = some t) : Lone t := by
  obtain ⟨hphase,hlo,hhi,hqlo,hqhi⟩ := dmaDone_frame s
  have hd : Lone (dmaDone s) := h.phase hp hlo hhi hqlo hqhi
  unfold arInterruptServiceRoutine at ht
  split at ht
  · obtain ⟨r,-,rfl⟩ := map_eq_some_iff.mp ht
    exact hd.phase (hphase.trans hp) rfl rfl rfl rfl
  · obtain ⟨r,-,rfl⟩ := map_eq_some_iff.mp ht
    exact hd.phase (hphase.trans hp) rfl rfl rfl rfl
  · cases ht
    exact serve_lone hd (by rwa [hqlo, hqhi]) (.inl (hphase.trans hp))

theorem ret_lone (h : Lone s) (hnd : (s.reqQueueLo ++ s.reqQueueHi).Nodup) :
    Lone (callbackReturn s) := by
  unfold callbackReturn
  cases hp : s.phase with
  | outside => exact h
  | callingHi =>
    refine serve_lone ⟨?_,nofun,nofun⟩ hnd (.inl rfl)
    intro u hu hm
    exact absurd (hp.symm.trans (h.lo u hu hm)) nofun
  | callingLo =>
    refine serve_lone ⟨nofun,?_,nofun⟩ hnd (.inl rfl)
    intro u hu hm
    exact absurd (hp.symm.trans (h.hi u hu hm)) nofun

end Lone

/-! Runs. -/

section Run

variable {s t : LinkedArq} {c : QueueId → List ℕ}

theorem holds_nodup (h : Holds s.links c) (a : Arq) :
    ((view c a).reqQueueLo ++ (view c a).reqQueueHi).Nodup :=
  nodup_append.mpr ⟨h.nodup .lo,h.nodup .hi,fun u hu v hv he =>
    absurd (h.apart _ _ u hu (he ▸ hv)) (by decide)⟩

def Kept (s : LinkedArq) : Prop := ∃ c, Holds s.links c ∧ Lone (view c s.arq)

theorem init_kept (links : Links QueueId ℕ) (req : ℕ → ARQRequest) : Kept (linkedInit links req) :=
  ⟨_,init_holds links req,⟨nofun,nofun,nofun⟩⟩

theorem removeRequest_arq (r : ℕ) (s : LinkedArq) :
    (removeRequest r s).arq = s.arq ∨ (removeRequest r s).arq = forgetLo s.arq := by
  unfold removeRequest
  split
  · exact .inr rfl
  · exact .inl rfl

theorem remove_lone {r : ℕ} (h : Lone (view c s.arq)) :
    Lone (view (fun q => (c q).erase r) (removeRequest r s).arq) := by
  have hq : ∀ u ∈ (c .lo).erase r ++ (c .hi).erase r, u ∈ c .lo ++ c .hi := by
    intro u hu
    rcases mem_append.mp hu with hu | hu
    · exact mem_append_left _ (mem_of_mem_erase hu)
    · exact mem_append_right _ (mem_of_mem_erase hu)
  rcases removeRequest_arq r s with he | he
  · rw [he]
    exact h.shrink rfl (fun _ hu => hu) (fun _ hu => hu) hq
  · rw [he]
    obtain ⟨hphase,hhi,-⟩ := forgetLo_frame s.arq
    exact h.shrink hphase (fun _ hu => forgetLo_pending s.arq hu) (fun _ hu => hhi.symm.trans hu) hq

theorem owner_lone {owner : ℕ} (h : Lone (view c s.arq)) :
    Lone (ownerRemoved owner (view c s.arq)) := by
  refine h.shrink rfl (fun _ hu => hu) (fun _ hu => hu) ?_
  intro u hu
  rcases mem_append.mp hu with hu | hu
  · exact mem_append_left _ (mem_filter.mp hu).1
  · exact mem_append_right _ (mem_filter.mp hu).1

theorem flushed_lone (h : Lone (view c s.arq)) : Lone (flushed (view c s.arq)) := by
  have hf := forgetLo_frame { view c s.arq with reqQueueLo := [], reqQueueHi := [] }
  have hlo : ∀ u, (flushed (view c s.arq)).reqPendingLo = some u → s.arq.reqPendingLo = some u :=
    fun u hu => forgetLo_pending { view c s.arq with reqQueueLo := [], reqQueueHi := [] } hu
  refine h.shrink hf.1 hlo (fun _ hu => hf.2.1.symm.trans hu) ?_
  intro u hu
  rw [flushed, hf.2.2.1, hf.2.2.2.1] at hu
  exact absurd hu (not_mem_nil)

theorem linkedStep_kept {a : LinkedAction} (h : Kept s) (hok : QueueOk (.call a) s)
    (ht : linkedStep a s = some t) : Kept t := by
  obtain ⟨c,hc,hl⟩ := h
  have hnd := holds_nodup hc s.arq
  cases a with
  | post p =>
    obtain ⟨c',hh,hv⟩ := post_spec hc hok.1 ht
    exact ⟨c',hh,hv ▸ post_lone hl hnd (not_queued hc hok.1 .lo) (not_queued hc hok.1 .hi) hok.2⟩
  | removeRequest r =>
    cases ht
    exact ⟨_,(removeRequest_holds_iff hc r).mpr hok,remove_lone hl⟩
  | removeOwnerRequest n owner =>
    obtain ⟨⟨u,k⟩,hu,rfl⟩ := map_eq_some_iff.mp ht
    obtain ⟨c',hh,hv⟩ := removeOwnerRequest_spec hc hu
    exact ⟨c',hh,hv ▸ owner_lone hl⟩
  | flushQueue =>
    cases ht
    obtain ⟨c',hh,hv⟩ := flush_spec hc
    exact ⟨c',hh,hv ▸ flushed_lone hl⟩
  | interrupt =>
    obtain ⟨c',hh,hv⟩ := interrupt_spec hc ht
    exact ⟨c',hh,interrupt_lone hl hnd hok.2 hv⟩
  | ret =>
    obtain ⟨c',hh,hv⟩ := ret_spec hc hok ht
    exact ⟨c',hh,hv ▸ ret_lone hl hnd⟩

theorem queueStep_kept {a : QueueAction} (h : Kept s) (hok : QueueOk a s)
    (ht : queueStep a s = some t) : Kept t := by
  cases a with
  | call a => exact linkedStep_kept h hok ht
  | setChunkSize size =>
    cases ht
    obtain ⟨c,hc,hl⟩ := h
    exact ⟨c,hc,hl.shrink rfl (fun _ hu => hu) (fun _ hu => hu) (fun _ hu => hu)⟩

theorem removed_not_pending (hc : Holds s.links c) (hl : Lone (view c s.arq)) {r : ℕ}
    (hr : Queued s r ∨ PartlyMoved s.arq r) :
    ¬PendingLo (removeRequest r s).arq r ∧ ¬PendingHi (removeRequest r s).arq r := by
  rcases hr with hr | hr
  · have hm : r ∈ c .lo ++ c .hi := by
      obtain ⟨q,hm⟩ := (queued_iff hc).mp hr
      cases q with
      | lo => exact mem_append_left _ hm
      | hi => exact mem_append_right _ hm
    rcases removeRequest_arq r s with he | he
    · rw [he]
      exact ⟨fun hp => hp.2 (hl.lo r hp.1 hm),fun hp => hp.2 (hl.hi r hp.1 hm)⟩
    · rw [he]
      obtain ⟨hphase,hhi,-⟩ := forgetLo_frame s.arq
      exact ⟨fun hp => hp.2 (hphase.trans (hl.lo r (forgetLo_pending s.arq hp.1) hm)),
        fun hp => hp.2 (hphase.trans (hl.hi r (hhi.symm.trans hp.1) hm))⟩
  · have he : (removeRequest r s).arq = { s.arq with reqPendingLo := none } :=
      (if_pos hr.1).trans (if_pos hr.2)
    rw [he]
    exact ⟨fun hp => absurd hp.1 nofun,fun hp => hl.apart r hr.1 hp.1⟩

end Run

/-- In a run whose removals of single requests find harmless links: removing a
request that is queued or between its chunks keeps all others in order exactly
if its links are harmless, and removing an owner's requests leaves none of the
owner's exactly if none of low priority was pending. -/
theorem removals_precise (links : Links QueueId ℕ) (req : ℕ → ARQRequest) {s : LinkedArq}
    (h : Reach queueStep QueueOk (linkedInit links req) s) :
    ∃ c, Holds s.links c ∧
      (∀ r, Queued s r ∨ PartlyMoved s.arq r →
        ((Holds (removeRequest r s).links (fun q => (c q).erase r) ∧
          ¬Queued (removeRequest r s) r ∧ ¬PendingLo (removeRequest r s).arq r ∧
          ¬PendingHi (removeRequest r s).arq r) ↔ Harmless s.links r)) ∧
      ∀ owner, ∃ n t k, removeOwnerRequest n owner s = some (t,k) ∧
        ((Holds t.links (fun q => (c q).filter (fun r => decide ((s.arq.req r).owner ≠ owner))) ∧
          ∀ r, Queued t r ∨ PendingLo t.arq r → (t.arq.req r).owner ≠ owner) ↔
          ∀ r, PendingLo s.arq r → (s.arq.req r).owner ≠ owner) := by
  obtain ⟨c,hc,hl⟩ : Kept s :=
    reach_invariant (init_kept links req) (fun _ _ _ hk hok ht => queueStep_kept hk hok ht) h
  refine ⟨c,hc,?_,?_⟩
  · intro r hr
    rw [← removeRequest_holds_iff hc r]
    obtain ⟨hlo,hhi⟩ := removed_not_pending hc hl hr
    exact ⟨fun hp => hp.1,fun hh => ⟨hh,not_queued_of_erase hh hc.nodup,hlo,hhi⟩⟩
  · intro owner
    have hown := removeOwnerRequest_lists hc ((c .hi).length+(c .lo).length+1) owner
    rw [if_pos (by omega)] at hown
    obtain ⟨l,k,ht,hh⟩ := hown
    refine ⟨_,_,k,ht,fun hp r hr => hp.2 r (.inr hr),fun hp => ⟨hh,?_⟩⟩
    have hq : Holds (LinkedArq.mk l s.arq).links _ := hh
    rintro r (hr | hr)
    · obtain ⟨q,hm⟩ := (queued_iff hq).mp hr
      exact of_decide_eq_true (mem_filter.mp hm).2
    · exact hp r hr

def queueCheck : QueueAction → LinkedArq → Bool
  | .call (.removeRequest r), s => decide (
    s.links.next (s.links.prev (.obj r)) = s.links.next (.obj r) ∧
    s.links.prev (s.links.next (.obj r)) = s.links.prev (.obj r))
  | .call a, s => callCheck a s
  | .setChunkSize _, _ => true

theorem queueCheck_ok {a : QueueAction} {s : LinkedArq} (h : queueCheck a s = true) :
    QueueOk a s := by
  cases a with
  | setChunkSize size => trivial
  | call a =>
    cases a with
    | removeRequest r =>
      have hd := of_decide_eq_true h
      exact .inr ⟨fun _ => hd.1,fun _ => hd.2⟩
    | post p => exact callCheck_ok (a := .post p) h
    | removeOwnerRequest n owner | flushQueue => trivial
    | interrupt => exact callCheck_ok (a := .interrupt) h
    | ret => exact callCheck_ok (a := .ret) h

/-- A request is removed between its chunks with nothing behind it; of the next
one a chunk is under way, and two more wait. -/
theorem removals_precise_waiting : ∃ s, Reach queueStep QueueOk
    (linkedInit blankLinks blankRequests) s ∧ PartlyMoved s.arq 20 ∧
    ∃ c, Holds s.links c ∧
      (∀ r, Queued s r ∨ PartlyMoved s.arq r →
        ((Holds (removeRequest r s).links (fun q => (c q).erase r) ∧
          ¬Queued (removeRequest r s) r ∧ ¬PendingLo (removeRequest r s).arq r ∧
          ¬PendingHi (removeRequest r s).arq r) ↔ Harmless s.links r)) ∧
      ∀ owner, ∃ n t k, removeOwnerRequest n owner s = some (t,k) ∧
        ((Holds t.links (fun q => (c q).filter (fun r => decide ((s.arq.req r).owner ≠ owner))) ∧
          ∀ r, Queued t r ∨ PendingLo t.arq r → (t.arq.req r).owner ≠ owner) ↔
          ∀ r, PendingLo s.arq r → (s.arq.req r).owner ≠ owner) := by
  have hrun : (runChecked queueStep queueCheck
      [.setChunkSize 1000, .call (.post ⟨10,1,0,0,0,0,8192,some 6⟩), .call (.removeRequest 10),
        .call (.post ⟨20,1,0,0,0,65536,8192,some 7⟩), .call (.post ⟨30,2,0,0,0,131072,64,none⟩),
        .call (.post ⟨40,1,0,1,0,131072,64,none⟩)] (linkedInit blankLinks blankRequests)).any
      (fun s => decide (s.arq.reqPendingLo = some 20 ∧ s.arq.callbackLo = none)) = true := by
    decide +kernel
  obtain ⟨s,hreach,hd⟩ := run_reaches (fun _ _ => queueCheck_ok) hrun
  exact ⟨s,hreach,hd,removals_precise _ _ hreach⟩

/-- Request 20 waits behind request 10, of which a chunk is under way. Removing
request 10 unlinks 20, and removing the requests of owner 1 keeps 10 pending. -/
theorem waiting_request_lost : ∃ s, Reach queueStep QueueOk
    (linkedInit blankLinks blankRequests) s ∧ PartlyMoved s.arq 10 ∧ Queued s 20 ∧
    ¬Queued (removeRequest 10 s) 20 ∧
    (removeOwnerRequest 4 1 s).any (fun e =>
      decide (e.1.arq.reqPendingLo = some 10 ∧ e.1.arq.phase = .outside ∧
        (e.1.arq.req 10).owner = 1)) = true := by
  have hrun : (runChecked queueStep queueCheck
      [.call (.post ⟨10,1,0,0,0,0,8192,some 6⟩), .call (.post ⟨20,2,0,0,0,65536,64,some 7⟩)]
      (linkedInit blankLinks blankRequests)).any (fun s =>
        decide ((s.arq.reqPendingLo = some 10 ∧ s.arq.callbackLo = none) ∧
          scan s.links .lo 8 (s.links.next (.head .lo)) = some [20] ∧
          (∀ q ∈ [.lo, .hi], scan (removeRequest 10 s).links q 8
            ((removeRequest 10 s).links.next (.head q)) =
            some []) ∧
          (removeOwnerRequest 4 1 s).any (fun e => decide (e.1.arq.reqPendingLo = some 10 ∧
            e.1.arq.phase = .outside ∧ (e.1.arq.req 10).owner = 1)) = true)) = true := by
    decide +kernel
  obtain ⟨s,hreach,hmoved,hwaits,hnone,howner⟩ := run_reaches (fun _ _ => queueCheck_ok) hrun
  obtain ⟨c,hc,-⟩ : Kept s :=
    reach_invariant (init_kept _ _) (fun _ _ _ hk hok ht => queueStep_kept hk hok ht) hreach
  refine ⟨s,hreach,hmoved,(queued_iff hc).mpr ⟨.lo,?_⟩,?_,howner⟩
  · rw [← scan_linked (hc.listed .lo) hwaits]
    exact mem_singleton_self _
  · rintro ⟨q,ns,hl,hm⟩
    exact absurd (scan_linked hl (hnone q (by cases q <;> decide)) ▸ hm) not_mem_nil

end Libogc.RequestRemoval
