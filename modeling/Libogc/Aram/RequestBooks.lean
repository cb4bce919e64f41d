import Mathlib.Algebra.GroupWithZero.Nat
import Mathlib.Data.List.Nodup
import Libogc.Aram.RequestQueue

/-!
# The books of the ARAM requests

Every post is either finished, or the object that carries it is waiting with
some of its pieces transferred, or one transfer of it is under way. What the
two queues and the pending requests hold is, in order, what was posted and is
not yet called back.
-/

set_option autoImplicit false

namespace Libogc.RequestBooks
open List GuardedReach RequestQueue

def low (p : Post) : Bool := decide (p.prio = arqPrioLo)

def high (p : Post) : Bool := !low p

def chunks (p : Post) : ℕ → List ℕ → List Dma
  | _, [] => []
  | off, n::ns => ⟨p.dir,u32 (p.mramAddr+off),u32 (p.aramAddr+off),n⟩::chunks p (off+n) ns

theorem chunks_append (p : Post) (off : ℕ) (ms ns : List ℕ) :
    chunks p off (ms ++ ns) = chunks p off ms ++ chunks p (off+ms.sum) ns := by
  induction ms generalizing off with
  | nil => simp [chunks]
  | cons m ms ih =>
    simp only [cons_append, chunks, ih, sum_cons, Nat.add_assoc]

def issuesOf (s : Arq) (i : ℕ) : List Dma :=
  (s.issued.filter (fun e => decide (e.serial = i))).map Issue.dma

def serials (P : Post → Bool) (posts : List Post) : List ℕ :=
  (List.range posts.length).filter (fun i => posts[i]?.any P)

def called (P : Post → Bool) (s : Arq) : List ℕ :=
  (s.calls.map Callback.serial).filter (fun i => s.posts[i]?.any P)

variable {c : Callback} {l ns : List ℕ} {p : Post} {P : Post → Bool} {i r : ℕ}
  {posts : List Post} {n : ℕ}

theorem mem_serials : i ∈ serials P posts ↔ ∃ p, posts[i]? = some p ∧ P p = true := by
  simp only [serials, mem_filter, mem_range, Option.any_eq_true]
  constructor
  · exact fun h => h.2
  · rintro ⟨p,hp,h⟩
    exact ⟨(List.getElem?_eq_some_iff.mp hp).1,p,hp,h⟩

theorem serials_nodup (P : Post → Bool) (posts : List Post) : (serials P posts).Nodup :=
  nodup_range.filter _

theorem getElem?_append_old (h : i < posts.length) :
    (posts ++ [p])[i]? = posts[i]? := List.getElem?_append_left h

theorem serials_append (P : Post → Bool) (posts : List Post) (p : Post) :
    serials P (posts ++ [p]) = serials P posts ++ if P p then [posts.length] else [] := by
  have hold : (List.range posts.length).filter (fun i => (posts ++ [p])[i]?.any P) =
      serials P posts := by
    apply filter_congr
    intro i hi
    rw [getElem?_append_old (mem_range.mp hi)]
  rw [serials, length_append, length_singleton, range_succ, filter_append, hold]
  cases hp : P p <;> simp [hp]

/-! The three conditions of a post. -/

/-- The object of a request waits, the pieces `ns` of it have been moved. -/
structure Waiting (s : Arq) (r : ℕ) (p : Post) (ns : List ℕ) : Prop where
  post : s.posts[s.serial r]? = some p
  req : p.req = r
  fields : ∃ st, s.req r = ⟨p.owner,p.dir,p.prio,st,u32 (p.aramAddr+ns.sum),
    u32 (p.mramAddr+ns.sum),p.len-ns.sum,p.cb.getD arqCallbackDummy⟩
  more : ns.sum < p.len
  pos : ∀ n ∈ ns, 0 < n
  issued : issuesOf s (s.serial r) = chunks p 0 ns
  moved : s.moved (s.serial r) = ns.sum

/-- The pieces `ns` have been moved and the next piece is under way. -/
structure Moving (s : Arq) (r : ℕ) (p : Post) (ns : List ℕ) (n : ℕ) : Prop where
  post : s.posts[s.serial r]? = some p
  req : p.req = r
  fits : ns.sum+n ≤ p.len
  pos : ∀ m ∈ ns ++ [n], 0 < m
  issued : issuesOf s (s.serial r) = chunks p 0 (ns ++ [n])
  moved : s.moved (s.serial r) = ns.sum
  flight : ∃ k d, s.flight = [⟨s.serial r,k,d⟩] ∧ d.len = n

/-- The callback has been called for the whole of the post. -/
structure Finished (s : Arq) (c : Callback) (p : Post) (ns : List ℕ) : Prop where
  post : s.posts[c.serial]? = some p
  fn : c.fn = p.cb.getD arqCallbackDummy
  req : c.req = p.req
  pos : ∀ n ∈ ns, 0 < n
  whole : ns.sum = p.len
  once : high p = true → ns = [p.len]
  issued : issuesOf s c.serial = chunks p 0 ns
  moved : s.moved c.serial = p.len

section Frame

variable {s s' : Arq} {r : ℕ} {p : Post} {ns : List ℕ}

theorem Waiting.lt (h : Waiting s r p ns) : s.serial r < s.posts.length :=
  (List.getElem?_eq_some_iff.mp h.post).1

theorem Moving.lt (h : Moving s r p ns n) : s.serial r < s.posts.length :=
  (List.getElem?_eq_some_iff.mp h.post).1

theorem Finished.lt (h : Finished s c p ns) : c.serial < s.posts.length :=
  (List.getElem?_eq_some_iff.mp h.post).1

theorem Waiting.congr (h : Waiting s r p ns) (hserial : s'.serial r = s.serial r)
    (hpost : s'.posts[s.serial r]? = s.posts[s.serial r]?) (hreq : s'.req r = s.req r)
    (hissued : issuesOf s' (s.serial r) = issuesOf s (s.serial r))
    (hmoved : s'.moved (s.serial r) = s.moved (s.serial r)) : Waiting s' r p ns := by
  refine ⟨?_,h.req,?_,h.more,h.pos,?_,?_⟩
  · rw [hserial, hpost, h.post]
  · rw [hreq]
    exact h.fields
  · rw [hserial, hissued, h.issued]
  · rw [hserial, hmoved, h.moved]

theorem Moving.congr (h : Moving s r p ns n) (hserial : s'.serial r = s.serial r)
    (hpost : s'.posts[s.serial r]? = s.posts[s.serial r]?) (hflight : s'.flight = s.flight)
    (hissued : issuesOf s' (s.serial r) = issuesOf s (s.serial r))
    (hmoved : s'.moved (s.serial r) = s.moved (s.serial r)) : Moving s' r p ns n := by
  refine ⟨?_,h.req,h.fits,h.pos,?_,?_,?_⟩
  · rw [hserial, hpost, h.post]
  · rw [hserial, hissued, h.issued]
  · rw [hserial, hmoved, h.moved]
  · rw [hserial, hflight]
    exact h.flight

theorem Finished.congr (h : Finished s c p ns) (hpost : s'.posts[c.serial]? = s.posts[c.serial]?)
    (hissued : issuesOf s' c.serial = issuesOf s c.serial)
    (hmoved : s'.moved c.serial = s.moved c.serial) : Finished s' c p ns := by
  refine ⟨?_,h.fn,h.req,h.pos,h.whole,h.once,?_,?_⟩
  · rw [hpost, h.post]
  · rw [hissued, h.issued]
  · rw [hmoved, h.moved]

theorem Waiting.ne {r' : ℕ} (h : Waiting s r p ns) {p' : Post} (hp : s.posts[i]? = some p')
    (hr : p'.req = r') (hne : r ≠ r') : s.serial r ≠ i := by
  rintro rfl
  obtain rfl := Option.mem_unique h.post hp
  exact hne (h.req.symm.trans hr)

end Frame

/-! The invariant. -/

def LoWaits (s : Arq) : Prop :=
  ∀ r, s.reqPendingLo = some r → ∃ p ns, Waiting s r p ns

/-- The last piece is under way, or the object is set to what is left. -/
def LoRest (s : Arq) (r : ℕ) (p : Post) (ns : List ℕ) (n : ℕ) : Prop :=
  (s.callbackLo = some (p.cb.getD arqCallbackDummy) ∧ ns.sum+n = p.len) ∨
    (s.callbackLo = none ∧ ns.sum+n < p.len ∧
      ∃ st, s.req r = ⟨p.owner,p.dir,p.prio,st,u32 (p.aramAddr+(ns.sum+n)),
        u32 (p.mramAddr+(ns.sum+n)),p.len-(ns.sum+n),p.cb.getD arqCallbackDummy⟩)

inductive Engine (s : Arq) : Prop
  | idle (hphase : s.phase = .outside) (hflight : s.flight = []) (hhi : s.reqPendingHi = none)
      (hcallHi : s.callbackHi = none) (hlo : s.reqPendingLo = none) (hcallLo : s.callbackLo = none)
      (hqueueHi : s.reqQueueHi = []) (hqueueLo : s.reqQueueLo = [])
  | hi {r : ℕ} {p : Post} (hphase : s.phase = .outside) (hhi : s.reqPendingHi = some r)
      (hcallHi : s.callbackHi = some (p.cb.getD arqCallbackDummy)) (hcallLo : s.callbackLo = none)
      (hmoving : Moving s r p [] p.len) (hp : high p = true) (hwaits : LoWaits s)
  | lo {r : ℕ} {p : Post} {ns : List ℕ} {n : ℕ} (hphase : s.phase = .outside)
      (hhi : s.reqPendingHi = none) (hcallHi : s.callbackHi = none)
      (hlo : s.reqPendingLo = some r) (hmoving : Moving s r p ns n) (hp : low p = true)
      (hrest : LoRest s r p ns n)
  | callingHi {r : ℕ} (hphase : s.phase = .callingHi) (hflight : s.flight = [])
      (hhi : s.reqPendingHi = some r) (hcallLo : s.callbackLo = none) (hwaits : LoWaits s)
  | callingLo {r : ℕ} (hphase : s.phase = .callingLo) (hflight : s.flight = [])
      (hhi : s.reqPendingHi = none) (hcallHi : s.callbackHi = none) (hlo : s.reqPendingLo = some r)

def openLo (s : Arq) : List ℕ :=
  (if s.phase = .callingLo then [] else s.reqPendingLo.toList) ++ s.reqQueueLo

def openHi (s : Arq) : List ℕ :=
  (if s.phase = .callingHi then [] else s.reqPendingHi.toList) ++ s.reqQueueHi

/-- Before a piece of low priority was transferred, all posts of high priority
up to then were. -/
def Urgent (s : Arq) : Prop :=
  ∀ l e r, s.issued = l ++ e::r → s.posts[e.serial]?.any low = true →
    ∀ i < e.posted, s.posts[i]?.any high = true → i ∈ l.map Issue.serial

structure Books (s : Arq) : Prop where
  chunk : 0 < s.chunkSize
  lowOrder : serials low s.posts = called low s ++ (openLo s).map s.serial
  highOrder : serials high s.posts = called high s ++ (openHi s).map s.serial
  queuedLo : ∀ r ∈ s.reqQueueLo, ∃ p, Waiting s r p []
  queuedHi : ∀ r ∈ s.reqQueueHi, ∃ p, Waiting s r p []
  finished : ∀ c ∈ s.calls, ∃ p ns, Finished s c p ns
  urgent : Urgent s
  known : ∀ e ∈ s.issued, e.serial < s.posts.length ∧ e.posted ≤ s.posts.length
  fresh : ∀ i, s.posts.length ≤ i → s.moved i = 0

structure Inv (s : Arq) : Prop extends Books s where
  engine : Engine s

section Books

variable {s : Arq}

theorem issuesOf_fresh (h : Books s) (hi : s.posts.length ≤ i) : issuesOf s i = [] := by
  unfold issuesOf
  rw [filter_eq_nil_iff.mpr, map_nil]
  intro e he
  have := (h.known e he).1
  simp only [decide_eq_true_eq]
  omega

section

variable (h : serials P s.posts = called P s ++ l.map s.serial)
include h

theorem open_post (hr : r ∈ l) : ∃ p, s.posts[s.serial r]? = some p ∧ P p = true := by
  apply mem_serials.mp
  rw [h]
  exact mem_append_right _ (mem_map_of_mem hr)

theorem open_nodup : l.Nodup := by
  have hnd := serials_nodup P s.posts
  rw [h] at hnd
  exact (List.Nodup.of_append_right hnd).of_map

theorem open_not_called (hr : r ∈ l) (hc : c ∈ s.calls) : c.serial ≠ s.serial r := by
  intro he
  obtain ⟨p,hp,hP⟩ := open_post h hr
  have hmem : s.serial r ∈ called P s := by
    rw [← he]
    refine mem_filter.mpr ⟨mem_map_of_mem hc,?_⟩
    rw [he, hp]
    exact hP
  have hnd := serials_nodup P s.posts
  rw [h] at hnd
  exact disjoint_of_nodup_append hnd hmem (mem_map_of_mem hr)

end

theorem high_issued (h : Books s) (hopen : openHi s = []) (hi : s.posts[i]?.any high = true) :
    i ∈ s.issued.map Issue.serial := by
  obtain ⟨p,hp,hhigh⟩ := (Option.any_eq_true _ _).mp hi
  have hmem : i ∈ serials high s.posts := mem_serials.mpr ⟨p,hp,hhigh⟩
  rw [h.highOrder, hopen, map_nil, append_nil] at hmem
  obtain ⟨c,hc,rfl⟩ := mem_map.mp (mem_filter.mp hmem).1
  obtain ⟨p',ns,hf⟩ := h.finished c hc
  obtain rfl := Option.mem_unique hp hf.post
  have hne : issuesOf s c.serial ≠ [] := by
    rw [hf.issued, hf.once hhigh]
    simp [chunks]
  obtain ⟨d,hd⟩ := exists_mem_of_ne_nil _ hne
  obtain ⟨e,he,-⟩ := mem_map.mp hd
  obtain ⟨he,hes⟩ := mem_filter.mp he
  exact mem_map.mpr ⟨e,he,of_decide_eq_true hes⟩

end Books

/-! A change of the queues alone. -/

structure SameLog (s s' : Arq) : Prop where
  posts : s'.posts = s.posts
  serial : s'.serial = s.serial
  issued : s'.issued = s.issued
  moved : s'.moved = s.moved
  calls : s'.calls = s.calls
  req : s'.req = s.req
  chunkSize : s'.chunkSize = s.chunkSize

section SameLog

variable {s s' : Arq}

theorem SameLog.issuesOf (h : SameLog s s') (i : ℕ) : issuesOf s' i = issuesOf s i := by
  unfold RequestBooks.issuesOf
  rw [h.issued]

theorem SameLog.waiting (h : SameLog s s') (hw : Waiting s r p ns) : Waiting s' r p ns :=
  hw.congr (congrFun h.serial r) (by rw [h.posts]) (congrFun h.req r) (h.issuesOf _)
    (by rw [h.moved])

theorem SameLog.finished (h : SameLog s s') (hf : Finished s c p ns) : Finished s' c p ns :=
  hf.congr (by rw [h.posts]) (h.issuesOf _) (by rw [h.moved])

theorem SameLog.books (h : SameLog s s') (hb : Books s) (hlowOpen : openLo s' = openLo s)
    (hhighOpen : openHi s' = openHi s) (hlo : ∀ u ∈ s'.reqQueueLo, u ∈ s.reqQueueLo)
    (hhi : ∀ u ∈ s'.reqQueueHi, u ∈ s.reqQueueHi) : Books s' := by
  refine ⟨by rw [h.chunkSize]; exact hb.chunk,?_,?_,?_,?_,?_,?_,?_,?_⟩
  · rw [h.posts, hlowOpen, h.serial, hb.lowOrder, called, called, h.calls, h.posts]
  · rw [h.posts, hhighOpen, h.serial, hb.highOrder, called, called, h.calls, h.posts]
  · intro u hu
    obtain ⟨p,hw⟩ := hb.queuedLo u (hlo u hu)
    exact ⟨p,h.waiting hw⟩
  · intro u hu
    obtain ⟨p,hw⟩ := hb.queuedHi u (hhi u hu)
    exact ⟨p,h.waiting hw⟩
  · intro c hc
    rw [h.calls] at hc
    obtain ⟨p,ns,hf⟩ := hb.finished c hc
    exact ⟨p,ns,h.finished hf⟩
  · unfold Urgent
    rw [h.issued, h.posts]
    exact hb.urgent
  · rw [h.issued, h.posts]
    exact hb.known
  · rw [h.moved, h.posts]
    exact hb.fresh

end SameLog

/-! A transfer starts. -/

structure Started (s s' : Arq) (r : ℕ) (d : Dma) : Prop where
  posts : s'.posts = s.posts
  serial : s'.serial = s.serial
  moved : s'.moved = s.moved
  calls : s'.calls = s.calls
  chunkSize : s'.chunkSize = s.chunkSize
  phase : s'.phase = s.phase
  req : ∀ u, u ≠ r → s'.req u = s.req u
  flight : s'.flight = s.flight ++ [⟨s.serial r,s.posts.length,d⟩]
  issued : s'.issued = s.issued ++ [⟨s.serial r,s.posts.length,d⟩]

section Started

variable {s s' : Arq} {r : ℕ} {d : Dma}

section

variable (h : Started s s' r d)
include h

theorem Started.issuesOf_self : issuesOf s' (s.serial r) = issuesOf s (s.serial r) ++ [d] := by
  unfold issuesOf
  rw [h.issued]
  simp

theorem Started.issuesOf_ne (hi : i ≠ s.serial r) : issuesOf s' i = issuesOf s i := by
  unfold issuesOf
  rw [h.issued]
  simp [Ne.symm hi]

theorem Started.waiting {u : ℕ} (hw : Waiting s u p ns) {q : Post}
    (hq : s.posts[s.serial r]? = some q) (hqr : q.req = r) (hu : u ≠ r) : Waiting s' u p ns := by
  have hne : s.serial u ≠ s.serial r := hw.ne hq hqr hu
  exact hw.congr (congrFun h.serial u) (by rw [h.posts]) (h.req u hu) (h.issuesOf_ne hne)
    (by rw [h.moved])

theorem Started.called (P : Post → Bool) : called P s' = called P s := by
  unfold RequestBooks.called
  rw [h.calls, h.posts]

theorem Started.urgent (hu : Urgent s)
    (hd : s.posts[s.serial r]?.any low = true → ∀ i, s.posts[i]?.any high = true →
      i ∈ s.issued.map Issue.serial) : Urgent s' := by
  intro l e t hsplit hlow i hi hhigh
  rw [h.posts] at hlow hhigh
  rw [h.issued] at hsplit
  rcases eq_nil_or_concat t with rfl | ⟨t',x,rfl⟩
  · obtain ⟨rfl,he⟩ := append_inj' hsplit rfl
    obtain rfl := (List.cons.inj he).1
    exact hd hlow i hhigh
  · rw [concat_eq_append, ← cons_append, ← append_assoc] at hsplit
    obtain ⟨hold,-⟩ := append_inj' hsplit rfl
    exact hu l e t' hold hlow i hi hhigh

theorem Started.books (hb : Books s) (hp : s.posts[s.serial r]? = some p)
    (hr : p.req = r) (hlowOpen : openLo s' = openLo s) (hhighOpen : openHi s' = openHi s)
    (hlo : ∀ u ∈ s'.reqQueueLo, u ∈ s.reqQueueLo ∧ u ≠ r)
    (hhi : ∀ u ∈ s'.reqQueueHi, u ∈ s.reqQueueHi ∧ u ≠ r)
    (hcalls : ∀ c ∈ s.calls, c.serial ≠ s.serial r)
    (hd : s.posts[s.serial r]?.any low = true → ∀ i, s.posts[i]?.any high = true →
      i ∈ s.issued.map Issue.serial) :
    Books s' := by
  refine ⟨by rw [h.chunkSize]; exact hb.chunk,?_,?_,?_,?_,?_,h.urgent hb.urgent hd,?_,?_⟩
  · rw [h.posts, h.called, hlowOpen, h.serial]
    exact hb.lowOrder
  · rw [h.posts, h.called, hhighOpen, h.serial]
    exact hb.highOrder
  · intro u hu
    obtain ⟨q,hq⟩ := hb.queuedLo u (hlo u hu).1
    exact ⟨q,h.waiting hq hp hr (hlo u hu).2⟩
  · intro u hu
    obtain ⟨q,hq⟩ := hb.queuedHi u (hhi u hu).1
    exact ⟨q,h.waiting hq hp hr (hhi u hu).2⟩
  · intro c hc
    rw [h.calls] at hc
    obtain ⟨q,ns,hf⟩ := hb.finished c hc
    exact ⟨q,ns,hf.congr (by rw [h.posts]) (h.issuesOf_ne (hcalls c hc)) (by rw [h.moved])⟩
  · intro e he
    rw [h.issued, mem_append] at he
    rw [h.posts]
    rcases he with he | he
    · exact hb.known e he
    · rw [mem_singleton.mp he]
      exact ⟨(List.getElem?_eq_some_iff.mp hp).1,Nat.le_refl _⟩
  · intro i hi
    rw [h.moved]
    rw [h.posts] at hi
    exact hb.fresh i hi

theorem Started.moving (hw : Waiting s r p ns) (hflight : s.flight = [])
    (hd : d = ⟨p.dir,u32 (p.mramAddr+ns.sum),u32 (p.aramAddr+ns.sum),d.len⟩) (hpos : 0 < d.len)
    (hfits : ns.sum+d.len ≤ p.len) : Moving s' r p ns d.len := by
  refine ⟨?_,hw.req,hfits,?_,?_,?_,?_⟩
  · rw [h.serial, h.posts]
    exact hw.post
  · intro m hm
    rcases mem_append.mp hm with hm | hm
    · exact hw.pos m hm
    · rwa [mem_singleton.mp hm]
  · rw [h.serial, h.issuesOf_self, hw.issued, chunks_append]
    congr 1
    rw [Nat.zero_add]
    conv_lhs => rw [hd]
    rfl
  · rw [h.serial, h.moved]
    exact hw.moved
  · refine ⟨s.posts.length,d,?_,rfl⟩
    rw [h.flight, hflight, h.serial]
    rfl

end

end Started

end Libogc.RequestBooks
