import Libogc.Aram.RequestBooks

/-!
# The service of the ARAM queues

A transfer that ends is the last of its request, whose callback is then called,
or one of its pieces. In either case the next transfer is the oldest waiting
request of high priority, or else the next piece of low priority.
-/

set_option autoImplicit false

namespace Libogc.RequestService
open List Function RequestQueue RequestBooks Option

/-! The service of the queues. -/

structure Ready (s : Arq) : Prop extends Books s where
  phase : s.phase = .outside
  flight : s.flight = []
  hi : s.reqPendingHi = none
  callHi : s.callbackHi = none
  callLo : s.callbackLo = none
  waits : LoWaits s

section Serve

variable {s : Arq} {r : ℕ}

theorem pop_started {rest : List ℕ} (hq : s.reqQueueHi = r::rest) :
    Started s (arqPopTaskQueueHi s) r
      ⟨(s.req r).dir,(s.req r).mramAddr,(s.req r).aramAddr,(s.req r).len⟩ := by
  unfold arqPopTaskQueueHi
  rw [hq]
  exact ⟨rfl,rfl,rfl,rfl,rfl,rfl,fun u hu => update_of_ne hu _ _,rfl,rfl⟩

theorem transfer_started : Started s (arqTransferLo r s) r
    ⟨(s.req r).dir,(s.req r).mramAddr,(s.req r).aramAddr,min (s.req r).len s.chunkSize⟩ := by
  unfold arqTransferLo
  dsimp only
  split
  · rename_i hle
    rw [Nat.min_eq_left hle]
    exact ⟨rfl,rfl,rfl,rfl,rfl,rfl,fun u hu => update_of_ne hu _ _,rfl,rfl⟩
  · rename_i hlt
    rw [Nat.min_eq_right (by omega)]
    exact ⟨rfl,rfl,rfl,rfl,rfl,rfl,fun u hu => update_of_ne hu _ _,rfl,rfl⟩

theorem ready_openHi (h : Ready s) : openHi s = s.reqQueueHi := by
  unfold openHi
  rw [h.phase, h.hi]
  rfl

theorem ready_openLo (h : Ready s) : openLo s = s.reqPendingLo.toList ++ s.reqQueueLo := by
  unfold openLo
  rw [h.phase]
  rfl

theorem pop_inv (h : Ready s) {rest : List ℕ} (hq : s.reqQueueHi = r::rest) :
    Inv (arqPopTaskQueueHi s) := by
  have hst := pop_started hq
  have hmem : r ∈ s.reqQueueHi := by simp [hq]
  have hopen : r ∈ openHi s := by rwa [ready_openHi h]
  obtain ⟨p,hw⟩ := h.queuedHi r hmem
  obtain ⟨p',hp',hhigh⟩ := open_post h.highOrder hopen
  obtain rfl := mem_unique hw.post hp'
  obtain ⟨st,hfields⟩ := hw.fields
  have hlow : low p = false := by simpa [high] using hhigh
  have hnd : (r::rest).Nodup := by
    rw [← hq, ← ready_openHi h]
    exact open_nodup h.highOrder
  have hneLo : ∀ u p' ns, Waiting s u p' ns → low p' = true → u ≠ r := by
    rintro u p' ns hu hlow' rfl
    obtain rfl := mem_unique hu.post hw.post
    simp [hlow] at hlow'
  have hqueueLo : (arqPopTaskQueueHi s).reqQueueLo = s.reqQueueLo := by
    unfold arqPopTaskQueueHi
    rw [hq]
    rfl
  have hqueueHi : (arqPopTaskQueueHi s).reqQueueHi = rest := by
    unfold arqPopTaskQueueHi
    rw [hq]
    rfl
  have hpendLo : (arqPopTaskQueueHi s).reqPendingLo = s.reqPendingLo := by
    unfold arqPopTaskQueueHi
    rw [hq]
    rfl
  have hpendHi : (arqPopTaskQueueHi s).reqPendingHi = some r := by
    unfold arqPopTaskQueueHi
    rw [hq]
  have hlowOpen : ∀ u, u ∈ openLo s → ∀ p' ns, Waiting s u p' ns → u ≠ r := by
    intro u hu p' ns hw'
    obtain ⟨p'',hp'',hl⟩ := open_post h.lowOrder hu
    obtain rfl := mem_unique hw'.post hp''
    exact hneLo u p' ns hw' hl
  refine ⟨hst.books h.toBooks hw.post hw.req ?_ ?_ ?_ ?_ ?_ ?_,?_⟩
  · unfold openLo
    rw [hst.phase, hpendLo, hqueueLo]
  · rw [ready_openHi h]
    unfold openHi
    rw [hst.phase, h.phase, hpendHi, hqueueHi, hq]
    rfl
  · intro u hu
    rw [hqueueLo] at hu
    obtain ⟨p',hw'⟩ := h.queuedLo u hu
    refine ⟨hu,hlowOpen u ?_ p' [] hw'⟩
    exact mem_append_right _ hu
  · intro u hu
    rw [hqueueHi] at hu
    refine ⟨by rw [hq]; exact mem_cons_of_mem r hu,?_⟩
    rintro rfl
    exact (nodup_cons.mp hnd).1 hu
  · exact fun c hc => open_not_called h.highOrder hopen hc
  · intro hl
    rw [hw.post] at hl
    simp [hlow] at hl
  · have hmoving : Moving (arqPopTaskQueueHi s) r p [] (s.req r).len := by
      apply hst.moving hw h.flight
      · rw [hfields]
      · have := hw.more
        simp only [hfields]
        omega
      · simp only [hfields, sum_nil]
        omega
    have hlen : (s.req r).len = p.len := by simp [hfields]
    rw [hlen] at hmoving
    refine Engine.hi (hst.phase.trans h.phase) hpendHi ?_ ?_ hmoving hhigh ?_
    · unfold arqPopTaskQueueHi
      rw [hq]
      simp [hfields]
    · unfold arqPopTaskQueueHi
      rw [hq]
      exact h.callLo
    · intro u hu
      rw [hpendLo] at hu
      obtain ⟨p',ns,hw'⟩ := h.waits u hu
      refine ⟨p',ns,hst.waiting hw' hw.post hw.req (hlowOpen u ?_ p' ns hw')⟩
      rw [ready_openLo h, hu]
      simp

theorem fetch_ready (h : Ready s) : Ready (arqFetchLo s) := by
  unfold arqFetchLo
  split
  · rename_i hnone
    have hsame : SameLog s { s with
      reqPendingLo := s.reqQueueLo.head?, reqQueueLo := s.reqQueueLo.tail } :=
      ⟨rfl,rfl,rfl,rfl,rfl,rfl,rfl⟩
    refine ⟨hsame.books h.toBooks ?_ rfl ?_ (fun _ hu => hu),h.phase,h.flight,h.hi,h.callHi,
      h.callLo,?_⟩
    · rw [ready_openLo h, hnone]
      rw [h.phase]
      cases s.reqQueueLo <;> rfl
    · exact fun u hu => mem_of_mem_tail hu
    · intro u hu
      obtain ⟨p,hw⟩ := h.queuedLo u (mem_of_mem_head? hu)
      exact ⟨p,[],hsame.waiting hw⟩
  · exact h

theorem transfer_inv (h : Ready s) (hqueue : s.reqQueueHi = []) (hr : s.reqPendingLo = some r) :
    Inv (arqTransferLo r s) := by
  have hst := @transfer_started s r
  obtain ⟨p,ns,hw⟩ := h.waits r hr
  have hopen : openLo s = r::s.reqQueueLo := by
    rw [ready_openLo h, hr]
    rfl
  have hmem : r ∈ openLo s := by simp [hopen]
  have hnd : (r::s.reqQueueLo).Nodup := by
    rw [← hopen]
    exact open_nodup h.lowOrder
  obtain ⟨p',hp',hlow⟩ := open_post h.lowOrder hmem
  obtain rfl := mem_unique hw.post hp'
  obtain ⟨st,hfields⟩ := hw.fields
  have hmore := hw.more
  have hlen : (s.req r).len = p.len-ns.sum := by rw [hfields]
  have hchunk := h.chunk
  have hqueueLo : (arqTransferLo r s).reqQueueLo = s.reqQueueLo := by
    unfold arqTransferLo
    dsimp only
    split <;> rfl
  have hqueueHi : (arqTransferLo r s).reqQueueHi = [] := by
    unfold arqTransferLo
    dsimp only
    split <;> exact hqueue
  have hpendLo : (arqTransferLo r s).reqPendingLo = some r := by
    unfold arqTransferLo
    dsimp only
    split <;> exact hr
  have hpendHi : (arqTransferLo r s).reqPendingHi = none := by
    unfold arqTransferLo
    dsimp only
    split <;> exact h.hi
  have hcallHi : (arqTransferLo r s).callbackHi = none := by
    unfold arqTransferLo
    dsimp only
    split <;> exact h.callHi
  refine ⟨hst.books h.toBooks hw.post hw.req ?_ ?_ ?_ ?_ ?_ ?_,?_⟩
  · unfold openLo
    rw [hst.phase, hpendLo, hqueueLo, hr]
  · unfold openHi
    rw [hst.phase, hpendHi, hqueueHi, h.hi, hqueue]
  · intro u hu
    rw [hqueueLo] at hu
    refine ⟨hu,?_⟩
    rintro rfl
    exact (nodup_cons.mp hnd).1 hu
  · intro u hu
    simp [hqueueHi] at hu
  · exact fun c hc => open_not_called h.lowOrder hmem hc
  · intro _ i hi
    apply high_issued h.toBooks _ hi
    rw [ready_openHi h, hqueue]
  · have hmoving : Moving (arqTransferLo r s) r p ns (min (s.req r).len s.chunkSize) := by
      apply hst.moving hw h.flight
      · simp [hfields]
      · dsimp only
        omega
      · dsimp only
        omega
    refine Engine.lo (hst.phase.trans h.phase) hpendHi hcallHi hpendLo hmoving hlow ?_
    unfold arqTransferLo LoRest
    by_cases hle : (s.req r).len ≤ s.chunkSize
    · left
      rw [if_pos hle]
      refine ⟨by rw [hfields],by omega⟩
    · right
      rw [if_neg hle, Nat.min_eq_right (by omega)]
      refine ⟨h.callLo,by omega,.running,?_⟩
      change update s.req r _ r = _
      rw [update_self, hfields]
      simp only [ARQRequest.mk.injEq, true_and, and_true]
      refine ⟨?_,?_,by omega⟩
      · unfold u32
        omega
      · unfold u32
        omega

theorem serve_inv (h : Ready s) : Inv (arqServe s) := by
  unfold arqServe
  cases hq : s.reqQueueHi with
  | cons r rest =>
    have hpend : (arqPopTaskQueueHi s).reqPendingHi ≠ none := by
      unfold arqPopTaskQueueHi
      rw [hq]
      simp
    rw [if_neg hpend]
    exact pop_inv h hq
  | nil =>
    have hpop : arqPopTaskQueueHi s = s := by
      unfold arqPopTaskQueueHi
      rw [hq]
    rw [hpop, if_pos h.hi]
    have hf := fetch_ready h
    have hqueue : (arqFetchLo s).reqQueueHi = [] := by
      unfold arqFetchLo
      split <;> exact hq
    unfold arqServiceQueueLo
    split
    · rename_i hnone
      refine ⟨hf.toBooks,.idle hf.phase hf.flight hf.hi hf.callHi hnone hf.callLo hqueue ?_⟩
      unfold arqFetchLo at hnone ⊢
      split at hnone
      · rename_i hpend
        rw [if_pos hpend]
        have hempty : s.reqQueueLo = [] := List.head?_eq_none_iff.mp hnone
        simp [hempty]
      · rename_i hpend
        exact absurd hnone hpend
    · rename_i r hsome
      exact transfer_inv hf hqueue hsome

end Serve

/-! A transfer ends. -/

section Done

variable {s : Arq} {r : ℕ} {p : Post} {ns : List ℕ} {n : ℕ}

structure Apart (s : Arq) (r : ℕ) : Prop where
  lo : r ∉ s.reqQueueLo
  hi : r ∉ s.reqQueueHi
  calls : ∀ c ∈ s.calls, c.serial ≠ s.serial r

theorem apart_hi (h : Books s) (hphase : s.phase = .outside) (hr : s.reqPendingHi = some r)
    (hp : s.posts[s.serial r]? = some p) (hhigh : high p = true) : Apart s r := by
  have hopen : openHi s = r::s.reqQueueHi := by
    unfold openHi
    rw [hphase, hr]
    rfl
  have hmem : r ∈ openHi s := by simp [hopen]
  have hnd := open_nodup h.highOrder
  rw [hopen] at hnd
  refine ⟨?_,(nodup_cons.mp hnd).1,fun c hc => open_not_called h.highOrder hmem hc⟩
  intro hlo
  obtain ⟨p',hp',hlow⟩ := open_post h.lowOrder (mem_append_right _ hlo)
  obtain rfl := mem_unique hp hp'
  simp [high, hlow] at hhigh

theorem apart_lo (h : Books s) (hphase : s.phase = .outside) (hr : s.reqPendingLo = some r)
    (hp : s.posts[s.serial r]? = some p) (hlow : low p = true) : Apart s r := by
  have hopen : openLo s = r::s.reqQueueLo := by
    unfold openLo
    rw [hphase, hr]
    rfl
  have hmem : r ∈ openLo s := by simp [hopen]
  have hnd := open_nodup h.lowOrder
  rw [hopen] at hnd
  refine ⟨(nodup_cons.mp hnd).1,?_,fun c hc => open_not_called h.lowOrder hmem hc⟩
  intro hhi
  obtain ⟨p',hp',hhigh⟩ := open_post h.highOrder (mem_append_right _ hhi)
  obtain rfl := mem_unique hp hp'
  simp [high, hlow] at hhigh

theorem dmaDone_eq (hm : Moving s r p ns n) : dmaDone s = { s with
    flight := [], moved := update s.moved (s.serial r) (ns.sum+n) } := by
  obtain ⟨k,d,hf,hd⟩ := hm.flight
  unfold dmaDone
  rw [hf]
  simp only [hd, hm.moved]

variable {u : ℕ} {q : Post} {ms : List ℕ}

theorem dmaDone_waiting (hm : Moving s r p ns n)
    (hw : Waiting s u q ms) (hu : u ≠ r) : Waiting (dmaDone s) u q ms := by
  rw [dmaDone_eq hm]
  exact hw.congr rfl rfl rfl rfl (update_of_ne (hw.ne hm.post hm.req hu) _ _)

theorem dmaDone_books (h : Books s) (hm : Moving s r p ns n) (ha : Apart s r) :
    Books (dmaDone s) := by
  have hkept : ∀ u q, Waiting s u q [] → u ≠ r → Waiting (dmaDone s) u q [] :=
    fun u q hw hu => dmaDone_waiting hm hw hu
  have hlt := hm.lt
  rw [dmaDone_eq hm] at hkept ⊢
  refine ⟨h.chunk,h.lowOrder,h.highOrder,?_,?_,?_,h.urgent,h.known,?_⟩
  · intro u hu
    obtain ⟨q,hw⟩ := h.queuedLo u hu
    exact ⟨q,hkept u q hw (fun he => ha.lo (he ▸ hu))⟩
  · intro u hu
    obtain ⟨q,hw⟩ := h.queuedHi u hu
    exact ⟨q,hkept u q hw (fun he => ha.hi (he ▸ hu))⟩
  · intro c hc
    obtain ⟨q,ms,hf⟩ := h.finished c hc
    exact ⟨q,ms,hf.congr rfl rfl (update_of_ne (ha.calls c hc) _ _)⟩
  · intro i hi
    have hne : i ≠ s.serial r := by
      dsimp only at hi
      omega
    dsimp only
    rw [update_of_ne hne]
    exact h.fresh i hi

theorem callBack_finished (hm : Moving s r p ns n) (hwhole : ns.sum+n = p.len)
    (honce : high p = true → ns = []) (s' : Arq) (hposts : s'.posts = s.posts)
    (hissued : s'.issued = s.issued) (hmoved : s'.moved = update s.moved (s.serial r) (ns.sum+n)) :
    Finished s' ⟨s.serial r,p.cb.getD arqCallbackDummy,r⟩ p (ns ++ [n]) := by
  refine ⟨?_,rfl,hm.req.symm,hm.pos,by simpa using hwhole,?_,?_,?_⟩
  · rw [hposts]
    exact hm.post
  · intro hh
    have hnil := honce hh
    subst hnil
    rw [← hwhole]
    simp
  · unfold issuesOf
    rw [hissued]
    exact hm.issued
  · rw [hmoved]
    rw [update_self, hwhole]

theorem called_append (P : Post → Bool) (s : Arq) (c : Callback) (s' : Arq)
    (hposts : s'.posts = s.posts) (hcalls : s'.calls = s.calls ++ [c]) :
    called P s' = called P s ++ if s.posts[c.serial]?.any P then [c.serial] else [] := by
  unfold called
  rw [hposts, hcalls]
  cases hP : s.posts[c.serial]?.any P <;> simp [hP]

def inCallback (s : Arq) (r : ℕ) (p : Post) (phase : Phase) : Arq :=
  { callBack (p.cb.getD arqCallbackDummy) r (dmaDone s) with phase := phase }

theorem inCallback_eq (hm : Moving s r p ns n) (phase : Phase) : inCallback s r p phase = { s with
    flight := []
    moved := update s.moved (s.serial r) (ns.sum+n)
    req := update s.req r { s.req r with state := .finished }
    calls := s.calls ++ [⟨s.serial r,p.cb.getD arqCallbackDummy,r⟩]
    phase := phase } := by
  unfold inCallback
  rw [dmaDone_eq hm]
  rfl

theorem inCallback_waiting (hm : Moving s r p ns n) (phase : Phase)
    (hw : Waiting s u q ms) (hu : u ≠ r) : Waiting (inCallback s r p phase) u q ms :=
  (dmaDone_waiting hm hw hu).congr rfl rfl (update_of_ne hu _ _) rfl rfl

theorem inCallback_books (h : Books s) (hm : Moving s r p ns n) (ha : Apart s r)
    (hwhole : ns.sum+n = p.len) (honce : high p = true → ns = []) {phase : Phase}
    (hlow : serials low s.posts = called low (inCallback s r p phase) ++
      (openLo (inCallback s r p phase)).map s.serial)
    (hhigh : serials high s.posts = called high (inCallback s r p phase) ++
      (openHi (inCallback s r p phase)).map s.serial) : Books (inCallback s r p phase) := by
  have hkept : ∀ u q, Waiting s u q [] → u ≠ r → Waiting (inCallback s r p phase) u q [] :=
    fun u q hw hu => inCallback_waiting hm phase hw hu
  have hlt := hm.lt
  rw [inCallback_eq hm] at hlow hhigh hkept ⊢
  refine ⟨h.chunk,hlow,hhigh,?_,?_,?_,h.urgent,h.known,?_⟩
  · intro u hu
    obtain ⟨q,hw⟩ := h.queuedLo u hu
    exact ⟨q,hkept u q hw (fun he => ha.lo (he ▸ hu))⟩
  · intro u hu
    obtain ⟨q,hw⟩ := h.queuedHi u hu
    exact ⟨q,hkept u q hw (fun he => ha.hi (he ▸ hu))⟩
  · intro c hc
    rcases mem_append.mp hc with hc | hc
    · obtain ⟨q,ms,hf⟩ := h.finished c hc
      exact ⟨q,ms,hf.congr rfl rfl (update_of_ne (ha.calls c hc) _ _)⟩
    · rw [mem_singleton.mp hc]
      exact ⟨p,ns ++ [n],callBack_finished hm hwhole honce _ rfl rfl rfl⟩
  · intro i hi
    have hne : i ≠ s.serial r := by
      dsimp only at hi
      omega
    dsimp only
    rw [update_of_ne hne]
    exact h.fresh i hi

theorem inCallback_called (hm : Moving s r p ns n) (phase : Phase) (P : Post → Bool) :
    called P (inCallback s r p phase) = called P s ++ if P p then [s.serial r] else [] := by
  rw [called_append P s ⟨s.serial r,p.cb.getD arqCallbackDummy,r⟩ (inCallback s r p phase)
    (by rw [inCallback_eq hm]) (by rw [inCallback_eq hm])]
  rw [hm.post]
  rfl

end Done

section Interrupt

variable {s s' : Arq} {r : ℕ} {p : Post} {ns : List ℕ} {n : ℕ}

section

variable (h : Books s) (hphase : s.phase = .outside)
include h hphase

theorem interrupt_hi (hr : s.reqPendingHi = some r)
    (hcallLo : s.callbackLo = none) (hm : Moving s r p [] p.len) (hp : high p = true)
    (hwaits : LoWaits s) : Inv (inCallback s r p .callingHi) := by
  have ha := apart_hi h hphase hr hm.post hp
  have hlowp : low p = false := by simpa [high] using hp
  have hopenLo : openLo (inCallback s r p .callingHi) = openLo s := by
    rw [inCallback_eq hm]
    unfold openLo
    rw [hphase]
    rfl
  have hopenHi : r::openHi (inCallback s r p .callingHi) = openHi s := by
    rw [inCallback_eq hm]
    unfold openHi
    rw [hphase, hr]
    rfl
  refine ⟨inCallback_books h hm ha (by simp) (fun _ => rfl) ?_ ?_,?_⟩
  · rw [inCallback_called hm, hlowp, hopenLo, if_neg (by simp), append_nil]
    exact h.lowOrder
  · rw [inCallback_called hm, hp, h.highOrder, ← hopenHi,
      append_assoc]
    rfl
  · have hlo : LoWaits (inCallback s r p .callingHi) := by
      intro u hu
      have hu' : s.reqPendingLo = some u := by rwa [inCallback_eq hm] at hu
      obtain ⟨q,ms,hw⟩ := hwaits u hu'
      refine ⟨q,ms,inCallback_waiting hm .callingHi hw ?_⟩
      rintro rfl
      have hmem : u ∈ openLo s := by
        unfold openLo
        rw [hphase, hu']
        simp
      obtain ⟨p',hp',hlow⟩ := open_post h.lowOrder hmem
      obtain rfl := mem_unique hm.post hp'
      simp [hlowp] at hlow
    rw [inCallback_eq hm] at hlo ⊢
    exact Engine.callingHi rfl rfl hr hcallLo hlo

theorem interrupt_last (hhi : s.reqPendingHi = none)
    (hcallHi : s.callbackHi = none) (hr : s.reqPendingLo = some r) (hm : Moving s r p ns n)
    (hp : low p = true) (hwhole : ns.sum+n = p.len) : Inv (inCallback s r p .callingLo) := by
  have ha := apart_lo h hphase hr hm.post hp
  have hhighp : high p = false := by simp [high, hp]
  have hopenLo : r::openLo (inCallback s r p .callingLo) = openLo s := by
    rw [inCallback_eq hm]
    unfold openLo
    rw [hphase, hr]
    rfl
  have hopenHi : openHi (inCallback s r p .callingLo) = openHi s := by
    rw [inCallback_eq hm]
    unfold openHi
    rw [hphase]
    rfl
  refine ⟨inCallback_books h hm ha hwhole (by simp [hhighp]) ?_ ?_,?_⟩
  · rw [inCallback_called hm, hp, h.lowOrder, ← hopenLo,
      append_assoc]
    rfl
  · rw [inCallback_called hm, hhighp, hopenHi, if_neg (by simp), append_nil]
    exact h.highOrder
  · rw [inCallback_eq hm]
    exact Engine.callingLo rfl rfl hhi hcallHi hr

theorem interrupt_piece (hhi : s.reqPendingHi = none)
    (hcallHi : s.callbackHi = none) (hr : s.reqPendingLo = some r) (hm : Moving s r p ns n)
    (hp : low p = true) (hcallLo : s.callbackLo = none) (hmore : ns.sum+n < p.len)
    (hfields : ∃ st, s.req r = ⟨p.owner,p.dir,p.prio,st,u32 (p.aramAddr+(ns.sum+n)),
      u32 (p.mramAddr+(ns.sum+n)),p.len-(ns.sum+n),p.cb.getD arqCallbackDummy⟩) :
    Ready (dmaDone s) := by
  have hb := dmaDone_books h hm (apart_lo h hphase hr hm.post hp)
  rw [dmaDone_eq hm] at hb ⊢
  refine ⟨hb,hphase,rfl,hhi,hcallHi,hcallLo,?_⟩
  intro u hu
  obtain rfl := mem_unique hr hu
  have hsum : (ns ++ [n]).sum = ns.sum+n := by simp
  refine ⟨p,ns ++ [n],hm.post,hm.req,by rwa [hsum],by rwa [hsum],hm.pos,hm.issued,?_⟩
  rw [hsum]
  exact update_self _ _ _

end

/-! What the service routine does at the end of a transfer. -/

theorem interrupt_calls_hi (hm : Moving s r p ns n) (hhi : s.reqPendingHi = some r)
    (hcallHi : s.callbackHi = some (p.cb.getD arqCallbackDummy)) :
    arInterruptServiceRoutine (dmaDone s) = some (inCallback s r p .callingHi) := by
  have hcall : (dmaDone s).callbackHi = some (p.cb.getD arqCallbackDummy) := by
    rwa [dmaDone_eq hm]
  have hpend : (dmaDone s).reqPendingHi = some r := by rwa [dmaDone_eq hm]
  unfold arInterruptServiceRoutine
  rw [hcall, hpend]
  rfl

theorem interrupt_calls_lo (hm : Moving s r p ns n) (hlo : s.reqPendingLo = some r)
    (hcallHi : s.callbackHi = none) (hcallLo : s.callbackLo = some (p.cb.getD arqCallbackDummy)) :
    arInterruptServiceRoutine (dmaDone s) = some (inCallback s r p .callingLo) := by
  have hnone : (dmaDone s).callbackHi = none := by rwa [dmaDone_eq hm]
  have hcall : (dmaDone s).callbackLo = some (p.cb.getD arqCallbackDummy) := by
    rwa [dmaDone_eq hm]
  have hpend : (dmaDone s).reqPendingLo = some r := by rwa [dmaDone_eq hm]
  unfold arInterruptServiceRoutine
  rw [hnone, hcall, hpend]
  rfl

theorem interrupt_serves (hm : Moving s r p ns n) (hcallHi : s.callbackHi = none)
    (hcallLo : s.callbackLo = none) :
    arInterruptServiceRoutine (dmaDone s) = some (arqServe (dmaDone s)) := by
  have hnone : (dmaDone s).callbackHi = none := by rwa [dmaDone_eq hm]
  have hcall : (dmaDone s).callbackLo = none := by rwa [dmaDone_eq hm]
  unfold arInterruptServiceRoutine
  rw [hnone, hcall]

theorem interrupt_inv (h : Inv s) (hok : ArqOk .interrupt s)
    (hs : arqStep .interrupt s = some s') : Inv s' := by
  obtain ⟨hflight,hout⟩ := hok
  cases h.engine with
  | idle _ hnone | callingHi _ hnone | callingLo _ hnone => exact absurd hnone hflight
  | @hi r p hphase hhi hcallHi hcallLo hm hp hwaits =>
    obtain rfl := mem_unique (interrupt_calls_hi hm hhi hcallHi) hs
    exact interrupt_hi h.toBooks hphase hhi hcallLo hm hp hwaits
  | @lo r p ns n hphase hhi hcallHi hlo hm hp hrest =>
    rcases hrest with ⟨hcallLo,hwhole⟩ | ⟨hcallLo,hmore,hfields⟩
    · obtain rfl := mem_unique (interrupt_calls_lo hm hlo hcallHi hcallLo) hs
      exact interrupt_last h.toBooks hphase hhi hcallHi hlo hm hp hwhole
    · obtain rfl := mem_unique (interrupt_serves hm hcallHi hcallLo) hs
      exact serve_inv
        (interrupt_piece h.toBooks hphase hhi hcallHi hlo hm hp hcallLo hmore hfields)

theorem return_inv (h : Inv s) (hok : ArqOk .ret s) (hs : arqStep .ret s = some s') : Inv s' := by
  cases hs
  unfold callbackReturn
  cases h.engine with
  | idle hphase | hi hphase | lo hphase => exact absurd hphase hok
  | callingHi hphase hflight hhi hcallLo hwaits =>
    rw [hphase]
    apply serve_inv
    have hsame : SameLog s { s with
      reqPendingHi := none, callbackHi := none, phase := .outside } := ⟨rfl,rfl,rfl,rfl,rfl,rfl,rfl⟩
    refine ⟨hsame.books h.toBooks ?_ ?_ (fun _ hu => hu) (fun _ hu => hu),rfl,hflight,rfl,rfl,
      hcallLo,?_⟩
    · unfold openLo
      rw [hphase]
      rfl
    · unfold openHi
      rw [hphase]
      rfl
    · intro u hu
      obtain ⟨q,ms,hw⟩ := hwaits u hu
      exact ⟨q,ms,hsame.waiting hw⟩
  | callingLo hphase hflight hhi hcallHi hlo =>
    rw [hphase]
    apply serve_inv
    have hsame : SameLog s { s with
      reqPendingLo := none, callbackLo := none, phase := .outside } := ⟨rfl,rfl,rfl,rfl,rfl,rfl,rfl⟩
    refine ⟨hsame.books h.toBooks ?_ ?_ (fun _ hu => hu) (fun _ hu => hu),rfl,hflight,hhi,hcallHi,
      rfl,?_⟩
    · unfold openLo
      rw [hphase]
      rfl
    · unfold openHi
      rw [hphase]
      rfl
    · intro u hu
      simp at hu

end Interrupt

end Libogc.RequestService
