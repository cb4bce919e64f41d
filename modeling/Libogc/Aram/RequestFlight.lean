import Libogc.Aram.RequestDelivery

/-!
# The transfer under way

What the ARAM DMA engine moves is a transfer that the queue has issued. A post
of high priority is moved as a whole, and it is not called back before.
-/

set_option autoImplicit false

namespace Libogc.RequestFlight
open List RequestQueue RequestBooks RequestService RequestDelivery Option

/-- What the queue has done is not undone, and a transfer that starts is
issued. -/
structure Later (s s' : Arq) : Prop where
  posts : s.posts <+: s'.posts
  calls : s.calls ⊆ s'.calls
  issued : s.issued ⊆ s'.issued
  flight : ∀ e ∈ s'.flight, e ∈ s.flight ∨ e ∈ s'.issued

theorem Later.refl (s : Arq) : Later s s :=
  ⟨prefix_rfl,List.Subset.refl _,List.Subset.refl _,fun _ he => .inl he⟩

variable {s s' : Arq}

theorem Later.trans {t u : Arq} (h : Later s t) (h' : Later t u) : Later s u := by
  refine ⟨h.posts.trans h'.posts,List.Subset.trans h.calls h'.calls,
    List.Subset.trans h.issued h'.issued,?_⟩
  intro e he
  rcases h'.flight e he with he | he
  · exact (h.flight e he).imp_right (fun hi => h'.issued hi)
  · exact .inr he

variable {i r : ℕ} {a : ArqAction}

theorem Later.post (h : Later s s') {p : Post} (hp : s.posts[i]? = some p) :
    s'.posts[i]? = some p := by
  obtain ⟨more,hmore⟩ := h.posts
  rw [← hmore, List.getElem?_append_left (List.getElem?_eq_some_iff.mp hp).1, hp]

theorem Later.same (hposts : s'.posts = s.posts) (hcalls : s'.calls = s.calls)
    (hissued : s'.issued = s.issued) (hflight : s'.flight = s.flight) : Later s s' := by
  refine ⟨?_,?_,?_,?_⟩
  · rw [hposts]
  · rw [hcalls]
    exact List.Subset.refl _
  · rw [hissued]
    exact List.Subset.refl _
  · rw [hflight]
    exact fun e he => .inl he

theorem Later.started {d : Dma} (hposts : s'.posts = s.posts)
    (hcalls : s'.calls = s.calls) (hissued : s'.issued = (arStartDMA r d s).issued)
    (hflight : s'.flight = (arStartDMA r d s).flight) : Later s s' := by
  refine ⟨?_,?_,?_,?_⟩
  · rw [hposts]
  · rw [hcalls]
    exact List.Subset.refl _
  · rw [hissued]
    exact subset_append_left _ _
  · intro e he
    rw [hflight] at he
    rw [hissued]
    exact (mem_append.mp he).imp_right (mem_append_right _)

theorem pop_later (s : Arq) : Later s (arqPopTaskQueueHi s) := by
  cases hq : s.reqQueueHi with
  | nil =>
    rw [show arqPopTaskQueueHi s = s by simp [arqPopTaskQueueHi, hq]]
    exact .refl s
  | cons r rest =>
    simp only [arqPopTaskQueueHi, hq]
    exact .started rfl rfl rfl rfl

theorem serviceLo_later (s : Arq) : Later s (arqServiceQueueLo s) := by
  have hfetch : Later s (arqFetchLo s) := by
    unfold arqFetchLo
    split
    · exact .same rfl rfl rfl rfl
    · exact .refl s
  unfold arqServiceQueueLo
  split
  · exact hfetch
  · rename_i r _
    apply hfetch.trans
    unfold arqTransferLo
    dsimp only
    split
    · exact .started rfl rfl rfl rfl
    · exact .started rfl rfl rfl rfl

theorem serve_later (s : Arq) : Later s (arqServe s) := by
  unfold arqServe
  split
  · exact (pop_later s).trans (serviceLo_later _)
  · exact pop_later s

theorem post_later (p : Post) (s : Arq) : Later s (arqPostRequestAsync p s) := by
  have hfill : Later s (arqAppend p (fillRequest p s)) := by
    have hposted := append_posted s p
    refine ⟨?_,?_,?_,?_⟩
    · rw [hposted.posts]
      exact prefix_append _ _
    · rw [hposted.calls]
      exact List.Subset.refl _
    · rw [hposted.issued]
      exact List.Subset.refl _
    · rw [hposted.flight]
      exact fun e he => .inl he
  unfold arqPostRequestAsync
  dsimp only
  split
  · exact hfill.trans (serve_later _)
  · exact hfill

theorem post_posts (p : Post) (s : Arq) : (arqPostRequestAsync p s).posts = s.posts ++ [p] := by
  have hposted := append_posted s p
  unfold arqPostRequestAsync
  dsimp only
  split
  · exact (serve_kept _).1.trans hposted.posts
  · exact hposted.posts

theorem post_new {p p' : Post} (h : (arqPostRequestAsync p s).posts[i]? = some p') :
    s.posts[i]? = some p' ∨ p' = p := by
  rw [post_posts] at h
  by_cases hi : i < s.posts.length
  · rw [List.getElem?_append_left hi] at h
    exact .inl h
  · rw [List.getElem?_append_right (Nat.not_lt.mp hi)] at h
    exact .inr (mem_singleton.mp (mem_of_getElem? h))

theorem interrupt_later (hs : arqStep .interrupt s = some s') : Later s s' := by
  have hdone : Later s (dmaDone s) := by
    unfold dmaDone
    split
    · exact .refl s
    · rename_i e rest hflight
      refine ⟨prefix_rfl,List.Subset.refl _,List.Subset.refl _,?_⟩
      intro e' he'
      rw [hflight]
      exact .inl (mem_cons_of_mem _ he')
  have hcall : ∀ (fn r : ℕ) (t : Arq) (phase : Phase),
      Later t { callBack fn r t with phase := phase } := fun fn r t phase =>
    ⟨prefix_rfl,subset_append_left _ _,List.Subset.refl _,fun _ he => .inl he⟩
  change arInterruptServiceRoutine (dmaDone s) = some s' at hs
  unfold arInterruptServiceRoutine at hs
  split at hs
  · obtain ⟨r,-,rfl⟩ := map_eq_some_iff.mp hs
    exact hdone.trans (hcall _ r _ _)
  · obtain ⟨r,-,rfl⟩ := map_eq_some_iff.mp hs
    exact hdone.trans (hcall _ r _ _)
  · cases hs
    exact hdone.trans (serve_later _)

theorem step_later (hs : arqStep a s = some s') : Later s s' := by
  cases a with
  | post p =>
    cases hs
    exact post_later p s
  | setChunkSize size =>
    cases hs
    exact .same rfl rfl rfl rfl
  | interrupt => exact interrupt_later hs
  | ret =>
    cases hs
    unfold callbackReturn
    split
    · exact .refl s
    · refine Later.trans ?_ (serve_later _)
      exact .same rfl rfl rfl rfl
    · refine Later.trans ?_ (serve_later _)
      exact .same rfl rfl rfl rfl

def FlightIssued (s : Arq) : Prop := ∀ e ∈ s.flight, e ∈ s.issued

theorem Later.flightIssued (h : Later s s') (hf : FlightIssued s) : FlightIssued s' := by
  intro e he
  rcases h.flight e he with he | he
  · exact h.issued (hf e he)
  · exact he

section Flight

variable {s : Arq} {e : Issue} {p : Post}

theorem flight_whole (h : Inv s) (hf : FlightIssued s) (he : e ∈ s.flight)
    (hp : s.posts[e.serial]? = some p) (hhigh : high p = true) :
    e.dma = ⟨p.dir,u32 p.mramAddr,u32 p.aramAddr,p.len⟩ := by
  have hmem : e.dma ∈ issuesOf s e.serial :=
    mem_map_of_mem (mem_filter.mpr ⟨hf e he,decide_eq_true rfl⟩)
  rcases inv_highWhole h hp hhigh with hnone | hwhole
  · rw [hnone] at hmem
    exact absurd hmem not_mem_nil
  · rw [hwhole] at hmem
    exact mem_singleton.mp hmem

theorem flight_not_called (h : Inv s) (he : e ∈ s.flight) {c : Callback} (hc : c ∈ s.calls) :
    c.serial ≠ e.serial := by
  have hmoving : ∀ {r q ns n}, Moving s r q ns n → e.serial = s.serial r := by
    intro r q ns n hm
    obtain ⟨k,d,hflight,-⟩ := hm.flight
    rw [hflight] at he
    rw [mem_singleton.mp he]
  cases h.engine with
  | hi hphase hhi _ _ hm =>
    rw [hmoving hm]
    refine open_not_called h.highOrder ?_ hc
    simp [openHi, hphase, hhi]
  | lo hphase _ _ hlo hm =>
    rw [hmoving hm]
    refine open_not_called h.lowOrder ?_ hc
    simp [openLo, hphase, hlo]
  | idle _ hflight | callingHi _ hflight | callingLo _ hflight =>
    rw [hflight] at he
    exact absurd he not_mem_nil

theorem openHi_req (h : Inv s) (hr : r ∈ openHi s) :
    ∃ q, s.posts[s.serial r]? = some q ∧ q.req = r := by
  rcases mem_append.mp hr with hr | hr
  · cases h.engine with
    | idle _ _ hhi => simp [hhi] at hr
    | hi hphase hhi _ _ hm =>
      rw [hphase, if_neg nofun, mem_toList] at hr
      obtain rfl := mem_unique hhi hr
      exact ⟨_,hm.post,hm.req⟩
    | lo _ hhi => simp [hhi] at hr
    | callingHi hphase => simp [hphase] at hr
    | callingLo _ _ hhi => simp [hhi] at hr
  · obtain ⟨q,hq⟩ := h.queuedHi r hr
    exact ⟨q,hq.post,hq.req⟩

theorem openLo_req (h : Inv s) (hr : r ∈ openLo s) :
    ∃ q, s.posts[s.serial r]? = some q ∧ q.req = r := by
  rcases mem_append.mp hr with hr | hr
  · have hphase : s.phase ≠ .callingLo := by
      intro hphase
      simp [hphase] at hr
    rw [if_neg hphase, mem_toList] at hr
    have hwaits : LoWaits s → ∃ q, s.posts[s.serial r]? = some q ∧ q.req = r := by
      intro hw
      obtain ⟨q,ns,hq⟩ := hw r hr
      exact ⟨q,hq.post,hq.req⟩
    cases h.engine with
    | idle _ _ _ _ hlo => simp [hlo] at hr
    | hi _ _ _ _ _ _ hw => exact hwaits hw
    | lo _ _ _ hlo hm =>
      obtain rfl := mem_unique hlo hr
      exact ⟨_,hm.post,hm.req⟩
    | callingHi _ _ _ _ hw => exact hwaits hw
    | callingLo hcalling => exact absurd hcalling hphase
  · obtain ⟨q,hq⟩ := h.queuedLo r hr
    exact ⟨q,hq.post,hq.req⟩

theorem flight_kept (h : Inv s) (ha : a ≠ .interrupt) (hok : ArqOk a s)
    (hs : arqStep a s = some s') (hf : s.flight ≠ []) : s'.flight = s.flight := by
  cases a with
  | post p =>
    cases hs
    have hposted := append_posted s p
    have hbusy : ¬(s.reqPendingLo = none ∧ s.reqPendingHi = none) := by
      cases h.engine with
      | idle _ hflight => exact absurd hflight hf
      | hi _ hhi => simp [hhi]
      | lo _ _ _ hlo => simp [hlo]
      | callingHi _ hflight | callingLo _ hflight => exact absurd hflight hf
    unfold arqPostRequestAsync
    dsimp only
    rw [hposted.pendLo, hposted.pendHi, if_neg hbusy, hposted.flight]
  | setChunkSize size =>
    cases hs
    rfl
  | interrupt => exact absurd rfl ha
  | ret =>
    cases h.engine with
    | idle hphase | hi hphase | lo hphase => exact absurd hphase hok
    | callingHi _ hflight | callingLo _ hflight => exact absurd hflight hf

end Flight

end Libogc.RequestFlight
