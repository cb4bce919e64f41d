import Mathlib.Algebra.Order.BigOperators.Group.Finset
import Libogc.Aram.RequestService

/-!
# Delivery of ARAM requests

A post adds one open request. With the steps of the service routine this gives
what every run has delivered, and what it delivers when only interrupts follow.
-/

set_option autoImplicit false

namespace Libogc.RequestDelivery
open List Function GuardedReach RequestQueue RequestBooks RequestService Option

/-! A request is posted. -/

structure Posted (s s' : Arq) (p : Post) : Prop where
  posts : s'.posts = s.posts ++ [p]
  serial : s'.serial = update s.serial p.req s.posts.length
  req : ∀ u, u ≠ p.req → s'.req u = s.req u
  filled : s'.req p.req = ⟨p.owner,p.dir,p.prio,.ready,p.aramAddr,p.mramAddr,p.len,
    p.cb.getD arqCallbackDummy⟩
  issued : s'.issued = s.issued
  moved : s'.moved = s.moved
  calls : s'.calls = s.calls
  chunkSize : s'.chunkSize = s.chunkSize
  flight : s'.flight = s.flight
  phase : s'.phase = s.phase
  pendLo : s'.reqPendingLo = s.reqPendingLo
  pendHi : s'.reqPendingHi = s.reqPendingHi
  callLo : s'.callbackLo = s.callbackLo
  callHi : s'.callbackHi = s.callbackHi
  queueLo : s'.reqQueueLo = s.reqQueueLo ++ if low p then [p.req] else []
  queueHi : s'.reqQueueHi = s.reqQueueHi ++ if high p then [p.req] else []

theorem append_posted (s : Arq) (p : Post) : Posted s (arqAppend p (fillRequest p s)) p := by
  have hreq : ∀ u, u ≠ p.req → (fillRequest p s).req u = s.req u :=
    fun u hu => update_of_ne hu _ _
  unfold arqAppend
  by_cases hp : p.prio = arqPrioLo
  · rw [if_pos hp]
    refine ⟨rfl,rfl,hreq,update_self _ _ _,rfl,rfl,rfl,rfl,rfl,rfl,rfl,rfl,rfl,rfl,?_,?_⟩
    · simp [low, hp, fillRequest, setReq]
    · simp [high, low, hp, fillRequest, setReq]
  · rw [if_neg hp]
    refine ⟨rfl,rfl,hreq,update_self _ _ _,rfl,rfl,rfl,rfl,rfl,rfl,rfl,rfl,rfl,rfl,?_,?_⟩
    · simp [low, hp, fillRequest, setReq]
    · simp [high, low, hp, fillRequest, setReq]

variable {s : Arq} {ns : List ℕ} {p : Post} {i : ℕ}

section Posted

variable {s s' : Arq} {p : Post}

section

variable (h : Posted s s' p)
include h

theorem Posted.issuesOf (i : ℕ) : issuesOf s' i = issuesOf s i := by
  unfold RequestBooks.issuesOf
  rw [h.issued]

theorem Posted.serial_ne {u : ℕ} (hu : u ≠ p.req) : s'.serial u = s.serial u := by
  rw [h.serial, update_of_ne hu]

theorem Posted.old (hi : i < s.posts.length) : s'.posts[i]? = s.posts[i]? := by
  rw [h.posts, getElem?_append_old hi]

theorem Posted.waiting {u : ℕ} {q : Post} (hw : Waiting s u q ns)
    (hu : u ≠ p.req) : Waiting s' u q ns :=
  hw.congr (h.serial_ne hu) (h.old hw.lt) (h.req u hu) (h.issuesOf _) (by rw [h.moved])

theorem Posted.moving {u n : ℕ} {q : Post} (hm : Moving s u q ns n)
    (hu : u ≠ p.req) : Moving s' u q ns n :=
  hm.congr (h.serial_ne hu) (h.old hm.lt) h.flight (h.issuesOf _) (by rw [h.moved])

theorem Posted.new (hb : Books s) (hlen : 0 < p.len)
    (hmram : p.mramAddr < 4294967296) (haram : p.aramAddr < 4294967296) :
    Waiting s' p.req p [] := by
  have hserial : s'.serial p.req = s.posts.length := by rw [h.serial, update_self]
  refine ⟨?_,rfl,⟨.ready,?_⟩,hlen,by simp,?_,?_⟩
  · rw [hserial, h.posts]
    simp
  · rw [h.filled]
    simp [u32, Nat.mod_eq_of_lt hmram, Nat.mod_eq_of_lt haram]
  · rw [hserial, h.issuesOf, issuesOf_fresh hb (Nat.le_refl _)]
    rfl
  · rw [hserial, h.moved]
    exact hb.fresh _ (Nat.le_refl _)

theorem Posted.called (hb : Books s) (P : Post → Bool) : called P s' = called P s := by
  unfold RequestBooks.called
  rw [h.calls]
  apply filter_congr
  intro i hi
  obtain ⟨c,hc,rfl⟩ := mem_map.mp hi
  obtain ⟨q,ns,hf⟩ := hb.finished c hc
  rw [h.old hf.lt]

theorem Posted.openLo : openLo s' = openLo s ++ if low p then [p.req] else [] := by
  unfold RequestBooks.openLo
  rw [h.phase, h.pendLo, h.queueLo, append_assoc]

theorem Posted.openHi : openHi s' = openHi s ++ if high p then [p.req] else [] := by
  unfold RequestBooks.openHi
  rw [h.phase, h.pendHi, h.queueHi, append_assoc]

theorem Posted.order (hb : Books s) {P : Post → Bool} {l l' : List ℕ}
    (horder : serials P s.posts = RequestBooks.called P s ++ l.map s.serial)
    (hl : l' = l ++ if P p then [p.req] else []) (hnew : p.req ∉ l) :
    serials P s'.posts = RequestBooks.called P s' ++ l'.map s'.serial := by
  have hold : l.map s'.serial = l.map s.serial := by
    apply map_congr_left
    intro u hu
    exact h.serial_ne (fun he => hnew (he ▸ hu))
  rw [h.posts, serials_append, h.called hb, hl, map_append, hold, horder, append_assoc]
  congr 2
  split
  · rw [map_singleton, h.serial, update_self]
  · rfl

theorem Posted.urgent (hb : Books s) : Urgent s' := by
  intro l e r hsplit hlow i hi hhigh
  rw [h.issued] at hsplit
  have he := hb.known e (by simp [hsplit])
  rw [h.old he.1] at hlow
  rw [h.old (by omega)] at hhigh
  exact hb.urgent l e r hsplit hlow i hi hhigh

theorem Posted.books (hb : Books s) (hnew : Waiting s' p.req p [])
    (hlo : p.req ∉ RequestBooks.openLo s) (hhi : p.req ∉ RequestBooks.openHi s) : Books s' := by
  refine ⟨by rw [h.chunkSize]; exact hb.chunk,h.order hb hb.lowOrder h.openLo hlo,
    h.order hb hb.highOrder h.openHi hhi,?_,?_,?_,h.urgent hb,?_,?_⟩
  · intro u hu
    by_cases hup : u = p.req
    · subst hup
      exact ⟨p,hnew⟩
    · have hmem : u ∈ s.reqQueueLo := by
        rw [h.queueLo] at hu
        rcases mem_append.mp hu with hu | hu
        · exact hu
        · split at hu <;> simp_all
      obtain ⟨q,hw⟩ := hb.queuedLo u hmem
      exact ⟨q,h.waiting hw hup⟩
  · intro u hu
    by_cases hup : u = p.req
    · subst hup
      exact ⟨p,hnew⟩
    · have hmem : u ∈ s.reqQueueHi := by
        rw [h.queueHi] at hu
        rcases mem_append.mp hu with hu | hu
        · exact hu
        · split at hu <;> simp_all
      obtain ⟨q,hw⟩ := hb.queuedHi u hmem
      exact ⟨q,h.waiting hw hup⟩
  · intro c hc
    rw [h.calls] at hc
    obtain ⟨q,ns,hf⟩ := hb.finished c hc
    exact ⟨q,ns,hf.congr (h.old hf.lt) (h.issuesOf _) (by rw [h.moved])⟩
  · intro e he
    rw [h.issued] at he
    have := hb.known e he
    rw [h.posts, length_append]
    omega
  · intro i hi
    rw [h.moved]
    rw [h.posts, length_append] at hi
    exact hb.fresh i (by omega)

theorem Posted.engine (he : Engine s) (hbusy : ¬(s.reqPendingLo = none ∧ s.reqPendingHi = none))
    (hlo : s.reqPendingLo = some p.req → s.phase = .callingLo)
    (hhi : s.reqPendingHi = some p.req → s.phase = .callingHi) : Engine s' := by
  have hwaits : s.phase ≠ .callingLo → LoWaits s → LoWaits s' := by
    intro hphase hw u hu
    rw [h.pendLo] at hu
    obtain ⟨q,ns,hq⟩ := hw u hu
    refine ⟨q,ns,h.waiting hq ?_⟩
    rintro rfl
    exact hphase (hlo hu)
  cases he with
  | idle _ _ hnoneHi _ hnoneLo => exact absurd ⟨hnoneLo,hnoneHi⟩ hbusy
  | @hi r q hphase hr hcallHi hcallLo hm hq hw =>
    have hne : r ≠ p.req := by
      rintro rfl
      simp [hphase] at hhi
      exact hhi hr
    exact Engine.hi (h.phase.trans hphase) (h.pendHi.trans hr) (h.callHi.trans hcallHi)
      (h.callLo.trans hcallLo) (h.moving hm hne) hq (hwaits (by simp [hphase]) hw)
  | @lo r q ns n hphase hnone hcallHi hr hm hq hrest =>
    have hne : r ≠ p.req := by
      rintro rfl
      simp [hphase] at hlo
      exact hlo hr
    refine Engine.lo (h.phase.trans hphase) (h.pendHi.trans hnone) (h.callHi.trans hcallHi)
      (h.pendLo.trans hr) (h.moving hm hne) hq ?_
    unfold LoRest
    rw [h.callLo, h.req r hne]
    exact hrest
  | callingHi hphase hflight hr hcallLo hw =>
    exact Engine.callingHi (h.phase.trans hphase) (h.flight.trans hflight) (h.pendHi.trans hr)
      (h.callLo.trans hcallLo) (hwaits (by simp [hphase]) hw)
  | callingLo hphase hflight hnone hcallHi hr =>
    exact Engine.callingLo (h.phase.trans hphase) (h.flight.trans hflight) (h.pendHi.trans hnone)
      (h.callHi.trans hcallHi) (h.pendLo.trans hr)

end

theorem post_inv (h : Inv s) (hok : ArqOk (.post p) s) (hs : arqStep (.post p) s = some s') :
    Inv s' := by
  obtain ⟨hlen,-,-,hmram,haram,hqueueLo,hqueueHi,hlo,hhi⟩ := hok
  cases hs
  have hpost := append_posted s p
  have hopenLo : p.req ∉ RequestBooks.openLo s := by
    intro hmem
    rcases mem_append.mp hmem with hmem | hmem
    · split at hmem
      · simp at hmem
      · rename_i hphase
        exact hphase (hlo (mem_toList.mp hmem))
    · exact hqueueLo hmem
  have hopenHi : p.req ∉ RequestBooks.openHi s := by
    unfold RequestBooks.openHi
    intro hmem
    rcases mem_append.mp hmem with hmem | hmem
    · split at hmem
      · simp at hmem
      · rename_i hphase
        exact hphase (hhi (mem_toList.mp hmem))
    · exact hqueueHi hmem
  have hbooks := hpost.books h.toBooks (hpost.new h.toBooks hlen hmram haram) hopenLo hopenHi
  unfold arqPostRequestAsync
  dsimp only
  rw [hpost.pendLo, hpost.pendHi]
  split
  · rename_i hidle
    apply serve_inv
    cases h.engine with
    | idle hphase hflight hnone hcallHi hnoneLo hcallLo =>
      refine ⟨hbooks,hpost.phase.trans hphase,hpost.flight.trans hflight,hpost.pendHi.trans hnone,
        hpost.callHi.trans hcallHi,hpost.callLo.trans hcallLo,?_⟩
      intro u hu
      rw [hpost.pendLo, hnoneLo] at hu
      simp at hu
    | hi _ hr | lo _ _ _ hr | callingHi _ _ hr | callingLo _ _ _ _ hr => simp [hr] at hidle
  · rename_i hbusy
    exact ⟨hbooks,hpost.engine h.engine hbusy hlo hhi⟩

end Posted

theorem setChunkSize_inv {s' : Arq} {size : ℕ} (h : Inv s) (hok : ArqOk (.setChunkSize size) s)
    (hs : arqStep (.setChunkSize size) s = some s') : Inv s' := by
  cases hs
  have hpos : 0 < (arqSetChunkSize size s).chunkSize := by
    change 0 < u32 (size+31)/32*32
    unfold u32
    have := hok.1
    have := hok.2
    omega
  have hwaits : LoWaits s → LoWaits (arqSetChunkSize size s) := by
    intro hw u hu
    obtain ⟨q,ns,hq⟩ := hw u hu
    exact ⟨q,ns,hq.congr rfl rfl rfl rfl rfl⟩
  refine ⟨⟨hpos,h.lowOrder,h.highOrder,?_,?_,?_,h.urgent,h.known,h.fresh⟩,?_⟩
  · intro u hu
    obtain ⟨q,hq⟩ := h.queuedLo u hu
    exact ⟨q,hq.congr rfl rfl rfl rfl rfl⟩
  · intro u hu
    obtain ⟨q,hq⟩ := h.queuedHi u hu
    exact ⟨q,hq.congr rfl rfl rfl rfl rfl⟩
  · intro c hc
    obtain ⟨q,ns,hq⟩ := h.finished c hc
    exact ⟨q,ns,hq.congr rfl rfl rfl⟩
  · cases h.engine with
    | idle h1 h2 h3 h4 h5 h6 h7 h8 => exact .idle h1 h2 h3 h4 h5 h6 h7 h8
    | hi h1 h2 h3 h4 hm hp hw => exact .hi h1 h2 h3 h4 (hm.congr rfl rfl rfl rfl rfl) hp (hwaits hw)
    | lo h1 h2 h3 h4 hm hp hr => exact .lo h1 h2 h3 h4 (hm.congr rfl rfl rfl rfl rfl) hp hr
    | callingHi h1 h2 h3 h4 hw => exact .callingHi h1 h2 h3 h4 (hwaits hw)
    | callingLo h1 h2 h3 h4 h5 => exact .callingLo h1 h2 h3 h4 h5

theorem init_inv (req : ℕ → ARQRequest) : Inv (arqInit req) := by
  refine ⟨⟨by simp [arqInit, arqDefChunkSize],rfl,rfl,by simp [arqInit],by simp [arqInit],by
    simp [arqInit],?_,
    by simp [arqInit],fun _ _ => rfl⟩,.idle rfl rfl rfl rfl rfl rfl rfl rfl⟩
  intro l e r hsplit
  simp [arqInit] at hsplit

theorem step_inv {a : ArqAction} {s' : Arq} (hinv : Inv s) (hok : ArqOk a s)
    (hs : arqStep a s = some s') : Inv s' := by
  cases a with
  | post p => exact post_inv hinv hok hs
  | setChunkSize size => exact setChunkSize_inv hinv hok hs
  | interrupt => exact interrupt_inv hinv hok hs
  | ret => exact return_inv hinv hok hs

theorem reach_inv {req : ℕ → ARQRequest} (h : Reach arqStep ArqOk (arqInit req) s) : Inv s :=
  reach_invariant (init_inv req) (fun _ _ _ hinv hok hs => step_inv hinv hok hs) h

/-! What a run has delivered. -/

def AllCalled (s : Arq) : Prop := ∀ i < s.posts.length, ∃ c ∈ s.calls, c.serial = i

def ServeOk (a : ArqAction) (s : Arq) : Prop := ArqOk a s ∧ (a = .interrupt ∨ a = .ret)

structure Delivers (s : Arq) : Prop where
  oneDma : s.flight.length ≤ 1
  lowChunks : ∀ i p, s.posts[i]? = some p → low p = true → ∃ ns, (∀ n ∈ ns, 0 < n) ∧
    ns.sum ≤ p.len ∧ issuesOf s i = chunks p 0 ns
  highWhole : ∀ i p, s.posts[i]? = some p → high p = true →
    issuesOf s i = [] ∨ issuesOf s i = chunks p 0 [p.len]
  lowOrder : called low s <+: serials low s.posts
  highOrder : called high s <+: serials high s.posts
  urgent : Urgent s
  finished : ∀ c ∈ s.calls, ∃ p ns, Finished s c p ns
  once : (s.calls.map Callback.serial).Nodup
  safe : ∀ a, ArqOk a s → (arqStep a s).isSome
  due : ¬AllCalled s → s.flight ≠ [] ∨ s.phase ≠ .outside
  served : ∃ t, Reach arqStep ServeOk s t ∧ t.posts = s.posts ∧ AllCalled t

section Delivers

variable {s s' : Arq}

theorem inv_oneDma (h : Inv s) : s.flight.length ≤ 1 := by
  cases h.engine with
  | idle _ hflight => simp [hflight]
  | hi _ _ _ _ hm | lo _ _ _ _ hm =>
    obtain ⟨k,d,hf,-⟩ := hm.flight
    simp [hf]
  | callingHi _ hflight | callingLo _ hflight => simp [hflight]

theorem called_or_open {P : Post → Bool} {l : List ℕ}
    (h : serials P s.posts = called P s ++ l.map s.serial) (hp : s.posts[i]? = some p)
    (hP : P p = true) : (∃ c ∈ s.calls, c.serial = i) ∨ ∃ r ∈ l, s.serial r = i := by
  have hmem : i ∈ serials P s.posts := mem_serials.mpr ⟨p,hp,hP⟩
  rw [h] at hmem
  rcases mem_append.mp hmem with hmem | hmem
  · exact .inl (mem_map.mp (mem_filter.mp hmem).1)
  · exact .inr (mem_map.mp hmem)

theorem waiting_pieces {r : ℕ} {q : Post} (h : Waiting s r p ns)
    (hq : s.posts[s.serial r]? = some q) : (∀ n ∈ ns, 0 < n) ∧ ns.sum ≤ q.len ∧
      issuesOf s (s.serial r) = chunks q 0 ns := by
  obtain rfl := mem_unique h.post hq
  exact ⟨h.pos,Nat.le_of_lt h.more,h.issued⟩

theorem inv_lowChunks (h : Inv s) (hp : s.posts[i]? = some p) (hlow : low p = true) :
    ∃ ns, (∀ n ∈ ns, 0 < n) ∧ ns.sum ≤ p.len ∧
      issuesOf s i = chunks p 0 ns := by
  rcases called_or_open h.lowOrder hp hlow with ⟨c,hc,rfl⟩ | ⟨r,hr,rfl⟩
  · obtain ⟨q,ns,hf⟩ := h.finished c hc
    obtain rfl := mem_unique hf.post hp
    exact ⟨ns,hf.pos,Nat.le_of_eq hf.whole,hf.issued⟩
  · have hwaits : LoWaits s → s.reqPendingLo = some r → ∃ ns, (∀ n ∈ ns, 0 < n) ∧
        ns.sum ≤ p.len ∧ issuesOf s (s.serial r) = chunks p 0 ns := by
      intro hw hpend
      obtain ⟨q,ns,hq⟩ := hw r hpend
      exact ⟨ns,waiting_pieces hq hp⟩
    rcases mem_append.mp hr with hr | hr
    · have hphase : s.phase ≠ .callingLo := by
        intro hphase
        simp [hphase] at hr
      rw [if_neg hphase, mem_toList] at hr
      cases h.engine with
      | idle _ _ _ _ hnone => simp [hnone] at hr
      | hi _ _ _ _ _ _ hw => exact hwaits hw hr
      | @lo r' q ns n _ _ _ hlo hm =>
        obtain rfl := mem_unique hlo hr
        obtain rfl := mem_unique hm.post hp
        refine ⟨ns ++ [n],hm.pos,?_,hm.issued⟩
        rw [sum_append]
        exact hm.fits
      | callingHi _ _ _ _ hw => exact hwaits hw hr
      | callingLo hcalling => exact absurd hcalling hphase
    · obtain ⟨q,hq⟩ := h.queuedLo r hr
      exact ⟨[],waiting_pieces hq hp⟩

theorem inv_highWhole (h : Inv s) (hp : s.posts[i]? = some p) (hhigh : high p = true) :
    issuesOf s i = [] ∨ issuesOf s i = chunks p 0 [p.len] := by
  rcases called_or_open h.highOrder hp hhigh with ⟨c,hc,rfl⟩ | ⟨r,hr,rfl⟩
  · obtain ⟨q,ns,hf⟩ := h.finished c hc
    obtain rfl := mem_unique hf.post hp
    right
    rw [hf.issued, hf.once hhigh]
  · rcases mem_append.mp hr with hr | hr
    · have hphase : s.phase ≠ .callingHi := by
        intro hphase
        simp [hphase] at hr
      rw [if_neg hphase, mem_toList] at hr
      cases h.engine with
      | idle _ _ hnone => simp [hnone] at hr
      | @hi r' q _ hhi _ _ hm =>
        obtain rfl := mem_unique hhi hr
        obtain rfl := mem_unique hm.post hp
        exact .inr hm.issued
      | lo _ hnone => simp [hnone] at hr
      | callingHi hcalling => exact absurd hcalling hphase
      | callingLo _ _ hnone => simp [hnone] at hr
    · obtain ⟨q,hq⟩ := h.queuedHi r hr
      exact .inl (waiting_pieces hq hp).2.2

theorem inv_once (h : Inv s) : (s.calls.map Callback.serial).Nodup := by
  apply nodup_iff_count_le_one.mpr
  intro i
  have hkind : ∀ (P : Post → Bool) (l : List ℕ),
      serials P s.posts = called P s ++ l.map s.serial → s.posts[i]?.any P = true →
        (s.calls.map Callback.serial).count i ≤ 1 := by
    intro P l horder hP
    have hnd := serials_nodup P s.posts
    rw [horder] at hnd
    have hcount := nodup_iff_count_le_one.mp (Nodup.of_append_left hnd) i
    rwa [called, count_filter (p := fun j => s.posts[j]?.any P) hP] at hcount
  by_cases hi : i ∈ s.calls.map Callback.serial
  · obtain ⟨c,hc,rfl⟩ := mem_map.mp hi
    obtain ⟨p,ns,hf⟩ := h.finished c hc
    cases hlow : low p
    · exact hkind high _ h.highOrder (by simp [hf.post, high, hlow])
    · exact hkind low _ h.lowOrder (by simp [hf.post, hlow])
  · rw [count_eq_zero_of_not_mem hi]
    omega

theorem inv_due (h : Inv s) (hflight : s.flight = []) (hphase : s.phase = .outside) :
    AllCalled s := by
  intro i hi
  have hp : s.posts[i]? = some s.posts[i] := getElem?_eq_getElem hi
  cases h.engine with
  | idle _ _ hhi _ hlo _ hqueueHi hqueueLo =>
    have hopenLo : openLo s = [] := by simp [openLo, hlo, hqueueLo]
    have hopenHi : openHi s = [] := by simp [openHi, hhi, hqueueHi]
    cases hlow : low s.posts[i]
    · rcases called_or_open h.highOrder hp (by simp [high, hlow]) with hc | ⟨r,hr,-⟩
      · exact hc
      · simp [hopenHi] at hr
    · rcases called_or_open h.lowOrder hp hlow with hc | ⟨r,hr,-⟩
      · exact hc
      · simp [hopenLo] at hr
  | hi _ _ _ _ hm | lo _ _ _ _ hm =>
    obtain ⟨k,d,hf,-⟩ := hm.flight
    simp [hflight] at hf
  | callingHi hcalling | callingLo hcalling => simp [hphase] at hcalling

def bytesLeft (s : Arq) : ℕ :=
  ∑ i ∈ Finset.range s.posts.length, ((s.posts[i]?.elim 0 Post.len)-s.moved i)

/-- An interrupt moves a byte or more, and a return ends a callback. -/
def workLeft (s : Arq) : ℕ := 2*bytesLeft s+if s.phase = .outside then 0 else 1

theorem bytesLeft_done {r : ℕ} {n : ℕ} (hm : Moving s r p ns n) :
    bytesLeft (dmaDone s) < bytesLeft s := by
  have hpos : 0 < n := hm.pos n (by simp)
  have hfits := hm.fits
  have hmoved := hm.moved
  rw [dmaDone_eq hm]
  apply Finset.sum_lt_sum
  · intro i _
    by_cases hi : i = s.serial r
    · subst hi
      dsimp only
      rw [update_self]
      omega
    · dsimp only
      rw [update_of_ne hi]
  · refine ⟨s.serial r,Finset.mem_range.mpr hm.lt,?_⟩
    dsimp only
    rw [update_self, hm.post, elim_some]
    omega

theorem bytesLeft_congr (hposts : s'.posts = s.posts) (hmoved : s'.moved = s.moved) :
    bytesLeft s' = bytesLeft s := by
  unfold bytesLeft
  rw [hposts, hmoved]

theorem serve_kept (s : Arq) : (arqServe s).posts = s.posts ∧ (arqServe s).moved = s.moved ∧
    (arqServe s).phase = s.phase := by
  have hpop : (arqPopTaskQueueHi s).posts = s.posts ∧ (arqPopTaskQueueHi s).moved = s.moved ∧
      (arqPopTaskQueueHi s).phase = s.phase := by
    cases hq : s.reqQueueHi with
    | nil => simp [arqPopTaskQueueHi, hq]
    | cons r rest =>
      have hst := pop_started hq
      exact ⟨hst.posts,hst.moved,hst.phase⟩
  have hfetch : ∀ s : Arq, (arqFetchLo s).posts = s.posts ∧ (arqFetchLo s).moved = s.moved ∧
      (arqFetchLo s).phase = s.phase := by
    intro s
    unfold arqFetchLo
    split <;> exact ⟨rfl,rfl,rfl⟩
  unfold arqServe arqServiceQueueLo
  split
  · obtain ⟨hposts,hmoved,hphase⟩ := hfetch (arqPopTaskQueueHi s)
    split
    · rw [hposts, hmoved, hphase]
      exact hpop
    · rename_i r _
      have hst := @transfer_started (arqFetchLo (arqPopTaskQueueHi s)) r
      rw [hst.posts, hst.moved, hst.phase, hposts, hmoved, hphase]
      exact hpop
  · exact hpop

theorem interrupt_moves (h : RequestBooks.Inv s) (hok : ArqOk .interrupt s) :
    ∃ s', arqStep .interrupt s = some s' ∧ s'.posts = s.posts ∧ workLeft s' < workLeft s := by
  obtain ⟨hflight,hout⟩ := hok
  have hwork : workLeft s = 2*bytesLeft s := by simp [workLeft, hout]
  have hcall : ∀ r p ns n phase, Moving s r p ns n →
      (inCallback s r p phase).posts = s.posts ∧ workLeft (inCallback s r p phase) <
        workLeft s := by
    intro r p ns n phase hm
    have hbytes : bytesLeft (inCallback s r p phase) = bytesLeft (dmaDone s) :=
      bytesLeft_congr rfl rfl
    have hless := bytesLeft_done hm
    refine ⟨by rw [inCallback_eq hm],?_⟩
    rw [workLeft]
    split <;> omega
  cases h.engine with
  | idle _ hnone | callingHi _ hnone | callingLo _ hnone => exact absurd hnone hflight
  | @hi r p _ hhi hcallHi _ hm =>
    exact ⟨_,interrupt_calls_hi hm hhi hcallHi,hcall r p _ _ _ hm⟩
  | @lo r p ns n _ hhi hcallHi hlo hm _ hrest =>
    rcases hrest with ⟨hcallLo,-⟩ | ⟨hcallLo,-,-⟩
    · exact ⟨_,interrupt_calls_lo hm hlo hcallHi hcallLo,hcall r p _ _ _ hm⟩
    · refine ⟨_,interrupt_serves hm hcallHi hcallLo,?_⟩
      obtain ⟨hposts,hmoved,hphase⟩ := serve_kept (dmaDone s)
      have hless := bytesLeft_done hm
      have hkept : (dmaDone s).posts = s.posts ∧ (dmaDone s).phase = s.phase := by
        rw [dmaDone_eq hm]
        exact ⟨rfl,rfl⟩
      refine ⟨hposts.trans hkept.1,?_⟩
      rw [workLeft, hphase, hkept.2, if_pos hout, bytesLeft_congr hposts hmoved]
      omega

theorem return_moves (hok : ArqOk .ret s) : (callbackReturn s).posts = s.posts ∧
    workLeft (callbackReturn s) < workLeft s := by
  have hwork : workLeft s = 2*bytesLeft s+1 := by
    unfold workLeft
    rw [if_neg hok]
  have hserve : ∀ t : Arq, t.posts = s.posts → t.moved = s.moved → t.phase = .outside →
      (arqServe t).posts = s.posts ∧ workLeft (arqServe t) < workLeft s := by
    intro t hposts hmoved hphase
    obtain ⟨hposts',hmoved',hphase'⟩ := serve_kept t
    refine ⟨hposts'.trans hposts,?_⟩
    rw [workLeft, hphase', if_pos hphase,
      bytesLeft_congr (hposts'.trans hposts) (hmoved'.trans hmoved)]
    omega
  unfold callbackReturn
  split
  · rename_i hphase
    exact absurd hphase hok
  · exact hserve _ rfl rfl rfl
  · exact hserve _ rfl rfl rfl

theorem inv_safe (h : RequestBooks.Inv s) (a : ArqAction) (hok : ArqOk a s) :
    (arqStep a s).isSome := by
  cases a with
  | post p | setChunkSize size => rfl
  | interrupt =>
    obtain ⟨s',hs,-⟩ := interrupt_moves h hok
    rw [hs]
    rfl
  | ret => rfl

/-- By induction on the work that is left. -/
theorem inv_served (h : RequestBooks.Inv s) :
    ∃ t, Reach arqStep ServeOk s t ∧ t.posts = s.posts ∧ AllCalled t := by
  induction hn : workLeft s using Nat.strongRecOn generalizing s with
  | ind n ih =>
    have hnext : ∀ a s', ArqOk a s → (a = .interrupt ∨ a = .ret) → arqStep a s = some s' →
        RequestBooks.Inv s' → s'.posts = s.posts → workLeft s' < workLeft s →
        ∃ t, Reach arqStep ServeOk s t ∧ t.posts = s.posts ∧ AllCalled t := by
      intro a s' hok ha hs hinv hposts hless
      obtain ⟨t,ht,htposts,hall⟩ := ih _ (hn ▸ hless) hinv rfl
      exact ⟨t,reach_trans (.step .start ⟨hok,ha⟩ hs) ht,htposts.trans hposts,hall⟩
    by_cases hphase : s.phase = .outside
    · by_cases hflight : s.flight = []
      · exact ⟨s,.start,rfl,inv_due h hflight hphase⟩
      · have hok : ArqOk .interrupt s := ⟨hflight,hphase⟩
        obtain ⟨s',hs,hposts,hless⟩ := interrupt_moves h hok
        exact hnext _ s' hok (.inl rfl) hs (interrupt_inv h hok hs) hposts hless
    · have hok : ArqOk .ret s := hphase
      obtain ⟨hposts,hless⟩ := return_moves hok
      exact hnext _ _ hok (.inr rfl) rfl (return_inv h hok rfl) hposts hless

end Delivers

theorem requests_delivered {req : ℕ → ARQRequest} {s : Arq}
    (h : Reach arqStep ArqOk (arqInit req) s) : Delivers s := by
  have hinv := reach_inv h
  refine ⟨inv_oneDma hinv,fun i p hp => inv_lowChunks hinv hp,fun i p hp => inv_highWhole hinv hp,
    ?_,?_,hinv.urgent,hinv.finished,inv_once hinv,inv_safe hinv,?_,inv_served hinv⟩
  · rw [hinv.lowOrder]
    exact prefix_append _ _
  · rw [hinv.highOrder]
    exact prefix_append _ _
  · intro hmissing
    by_contra hnone
    push Not at hnone
    exact hmissing (inv_due hinv hnone.1 hnone.2)

/-- A request of low priority is in its second chunk when one of high priority
is posted, whose callback posts another of low priority. -/
theorem requests_delivered_interleaved : ∃ s, Reach arqStep ArqOk
    (arqInit (fun _ => ⟨0,0,0,.ready,0,0,0,0⟩)) s ∧ Delivers s ∧
    s.calls = [⟨1,7,20⟩, ⟨0,6,10⟩, ⟨2,0,30⟩] ∧
    s.issued.map (fun e => (e.serial,e.dma.mramAddr,e.dma.len)) =
      [(0,0,4096), (0,4096,4096), (1,65536,8192), (0,8192,32), (2,131072,64)] := by
  have hrun : (runChecked arqStep (fun a s => decide (ArqOk a s))
      [.post ⟨10,1,0,0,0,0,8224,some 6⟩, .interrupt, .post ⟨20,1,0,1,0,65536,8192,some 7⟩,
        .interrupt, .interrupt, .post ⟨30,1,0,0,0,131072,64,none⟩, .ret, .interrupt, .ret,
        .setChunkSize 33, .interrupt, .ret] (arqInit (fun _ => ⟨0,0,0,.ready,0,0,0,0⟩))).any
      (fun s => decide (s.calls = [⟨1,7,20⟩, ⟨0,6,10⟩, ⟨2,0,30⟩] ∧
        s.issued.map (fun e => (e.serial,e.dma.mramAddr,e.dma.len)) =
          [(0,0,4096), (0,4096,4096), (1,65536,8192), (0,8192,32), (2,131072,64)])) = true := by
    decide +kernel
  obtain ⟨s,hreach,hd⟩ : ∃ s, Reach arqStep ArqOk (arqInit (fun _ => ⟨0,0,0,.ready,0,0,0,0⟩)) s ∧
      _ :=
    run_reaches (fun _ _ ha => of_decide_eq_true ha) hrun
  exact ⟨s,hreach,requests_delivered hreach,hd⟩

end Libogc.RequestDelivery
