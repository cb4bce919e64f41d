import Libogc.Aesnd.Streaming

/-!
# What arrives in the half-buffers

The bytes of a refill lie in the stream buffer until its request is called
back, provided that no other refill comes in between.
-/

set_option autoImplicit false

namespace Libogc.StreamDelivery
open Option GuardedReach Voice RequestQueue RequestBooks Nat Bool
open RequestService RequestDelivery RequestFlight Streaming
open VoiceSettings (sndAct)

structure Staged (buffer : BitVec 32) (arqRequest : ℕ → ℕ) (s : Streams) : Prop where
  working : Working s.snd
  arq : RequestBooks.Inv s.arq
  issued : FlightIssued s.arq
  owned : ∀ (i : ℕ) p v, s.arq.posts[i]? = some p → p.req = arqRequest v → high p = true
  posted : ∀ r ∈ s.refills, s.arq.posts[r.serial]? = some (fillPost buffer arqRequest r.fill)
  fits : ∀ r ∈ s.refills, r.fill.size.toNat ≤ (streamSize*2).toNat
  staged : ∀ r ∈ s.refills, (∀ c ∈ s.arq.calls, c.serial ≠ r.serial) →
    ∀ i < r.fill.size.toNat, s.mem (physical buffer+i) = r.data i
  moved : ∀ r ∈ s.refills, ∀ e ∈ s.arq.flight, e.serial = r.serial →
    ∀ i < s.progress, s.aram (r.fill.dest.toNat+i) = r.data i
  idle : s.arq.flight = [] → s.progress = 0

variable {q : Arq} {ended : Bool} {f : Fill} {pb pb' : Pb}

section Staged

variable {block : ℕ → BitVec 32} {buffer : BitVec 32} {arqRequest : ℕ → ℕ} {s s' : Streams}

theorem fillPost_high (f : Fill) : high (fillPost buffer arqRequest f) = true := rfl

theorem init_staged (req : ℕ → ARQRequest) (mem aram : ℕ → BitVec 8) :
    Staged buffer arqRequest (streamsInit req mem aram) :=
  ⟨fun _ => ⟨rfl,rfl,rfl⟩,init_inv req,nofun,nofun,nofun,nofun,nofun,nofun,fun _ => rfl⟩

theorem Staged.waits (h : Staged buffer arqRequest s) {r : Refill} (hr : r ∈ s.refills)
    (hcalls : ∀ c ∈ s.arq.calls, c.serial ≠ r.serial) : arqRequest r.fill.voiceno ∈ openHi s.arq ∧
      s.arq.serial (arqRequest r.fill.voiceno) = r.serial := by
  have hp := h.posted r hr
  rcases called_or_open h.arq.highOrder hp (fillPost_high r.fill) with ⟨c,hc,he⟩ | ⟨q,hq,he⟩
  · exact absurd he (hcalls c hc)
  · obtain ⟨p,hpost,hreq⟩ := openHi_req h.arq hq
    rw [he] at hpost
    obtain rfl := mem_unique hp hpost
    obtain rfl : arqRequest r.fill.voiceno = q := hreq
    exact ⟨hq,he⟩

def Free (arqRequest : ℕ → ℕ) (q : Arq) : Prop :=
  ∀ v, arqRequest v ∉ q.reqQueueHi ∧ q.reqPendingHi ≠ some (arqRequest v)

theorem free_not_open (hfree : Free arqRequest q) (v : ℕ) : arqRequest v ∉ openHi q := by
  intro hv
  rcases List.mem_append.mp hv with hv | hv
  · split at hv
    · exact absurd hv List.not_mem_nil
    · exact (hfree v).2 (mem_toList.mp hv)
  · exact (hfree v).1 hv

theorem Staged.all_called (h : Staged buffer arqRequest s) (hfree : Free arqRequest s.arq)
    {r : Refill} (hr : r ∈ s.refills) : ∃ c ∈ s.arq.calls, c.serial = r.serial := by
  by_contra hnone
  push Not at hnone
  exact free_not_open hfree _ (h.waits hr hnone).1

theorem Staged.not_low (h : Staged buffer arqRequest s) (v : ℕ) : arqRequest v ∉ openLo s.arq := by
  intro hv
  obtain ⟨p,hp,hreq⟩ := openLo_req h.arq hv
  obtain ⟨p',hp',hlow⟩ := open_post h.arq.lowOrder hv
  obtain rfl := mem_unique hp hp'
  have hhigh := h.owned _ p v hp hreq
  rw [high, hlow] at hhigh
  exact absurd hhigh false_ne_true

theorem fill_size (ht : Takes block ended pb pb' f) :
    0 < f.size.toNat ∧ f.size.toNat % 32 = 0 ∧ f.size.toNat ≤ (streamSize*2).toNat := by
  rcases ht.dest with ⟨hsize,-⟩ | ⟨hsize,-⟩
  · rw [hsize]
    decide
  · rw [hsize]
    decide

theorem fill_ok (h : Staged buffer arqRequest s) (hfree : Free arqRequest s.arq)
    (ht : Takes block ended pb pb' f) : ArqOk (.post (fillPost buffer arqRequest f)) s.arq := by
  obtain ⟨hpos,hmod,-⟩ := fill_size ht
  have hlow := h.not_low f.voiceno
  refine ⟨hpos,hmod,f.size.isLt,BitVec.isLt _,f.dest.isLt,?_,(hfree _).1,?_,?_⟩
  · exact fun hmem => hlow (List.mem_append_right _ hmem)
  · intro hpend
    by_contra hphase
    apply hlow
    refine List.mem_append_left _ ?_
    rw [if_neg hphase]
    exact mem_toList.mpr hpend
  · exact fun hpend => absurd hpend (hfree _).2

theorem stage_next (ht : Takes block ended pb pb' f) (mem : ℕ → BitVec 8) {i : ℕ}
    (hi : i < f.size.toNat) :
    stage buffer f mem (physical buffer+i) = nextByte mem f.src pb.mramEnd i := by
  have hlen : i < f.copyLen.toNat ↔ i < (pb.mramEnd-f.src).toNat := by
    rw [ht.len]
    split
    · rename_i hlt
      have hlt' := BitVec.lt_def.mp hlt
      omega
    · rfl
  unfold stage nextByte
  simp only [Nat.add_sub_cancel_left]
  rw [if_neg (by omega)]
  by_cases hc : i < f.copyLen.toNat
  · rw [if_pos hc, if_pos (hlen.mp hc)]
  · rw [if_neg hc, if_pos hi, if_neg (fun h => hc (hlen.mpr h))]

section

variable (h : Staged buffer arqRequest s)
include h

theorem Staged.snd {snd : Snd} (hw : Working snd) :
    Staged buffer arqRequest { s with snd := snd } :=
  ⟨hw,h.arq,h.issued,h.owned,h.posted,h.fits,h.staged,h.moved,h.idle⟩

theorem fill_staged (hfree : Free arqRequest s.arq) (ht : Takes block ended pb pb' f) :
    Staged buffer arqRequest (fill buffer arqRequest pb.mramEnd s f) := by
  have hok := fill_ok h hfree ht
  have hinv := post_inv h.arq hok rfl
  have hlater := post_later (fillPost buffer arqRequest f) s.arq
  have hissued := hlater.flightIssued h.issued
  refine ⟨h.working,hinv,hissued,?_,?_,?_,?_,?_,?_⟩
  · intro i p v hp hreq
    rcases post_new hp with hp | rfl
    · exact h.owned i p v hp hreq
    · exact fillPost_high f
  · intro r hr
    rcases List.mem_append.mp hr with hr | hr
    · exact hlater.post (h.posted r hr)
    · obtain rfl := List.mem_singleton.mp hr
      change (arqPostRequestAsync _ s.arq).posts[s.arq.posts.length]? = _
      rw [post_posts]
      exact List.getElem?_concat_length
  · intro r hr
    rcases List.mem_append.mp hr with hr | hr
    · exact h.fits r hr
    · obtain rfl := List.mem_singleton.mp hr
      exact (fill_size ht).2.2
  · intro r hr hcalls i hi
    rcases List.mem_append.mp hr with hr | hr
    · obtain ⟨c,hc,he⟩ := h.all_called hfree hr
      exact absurd he (hcalls c (hlater.calls hc))
    · obtain rfl := List.mem_singleton.mp hr
      exact stage_next ht s.mem hi
  · intro r hr e he hserial i hi
    rcases List.mem_append.mp hr with hr | hr
    · obtain ⟨c,hc,hcr⟩ := h.all_called hfree hr
      exact absurd (hcr.trans hserial.symm) (flight_not_called hinv he (hlater.calls hc))
    · obtain rfl := List.mem_singleton.mp hr
      -- the transfer of the new post has started now, so nothing of it is moved
      have hflight : s.arq.flight = [] := by
        by_contra hf
        have hsame := flight_kept h.arq (a := .post _) nofun hok rfl hf
        rw [show (fill buffer arqRequest pb.mramEnd s f).arq.flight = s.arq.flight from hsame] at he
        have hlt := (h.arq.known e (h.issued e he)).1
        rw [hserial] at hlt
        exact Nat.lt_irrefl _ hlt
      have hprogress : (fill buffer arqRequest pb.mramEnd s f).progress = 0 := h.idle hflight
      omega
  · intro hf
    by_contra hp
    have hne : s.arq.flight ≠ [] := fun hflight => hp (h.idle hflight)
    exact hne ((flight_kept h.arq (a := .post _) nofun hok rfl hne).symm.trans hf)

theorem snd_staged {e : VoiceSettings.Event}
    (hok : VoiceSettings.Possible e s.snd) (hclear : Clear arqRequest (.snd e) s)
    (hs : streamStep block buffer arqRequest (.snd e) s = some s') :
    Staged buffer arqRequest s' := by
  cases hs
  have hw := @sndAct_working block e s.snd h.working hok
  rcases @takesNext block e s.snd h.working hok with hnil | ⟨x,f,hx,hf,-,-,-,-,ht⟩
  · simp only [hnil]
    exact h.snd hw
  · have hdue : refillDue e s.snd = true :=
      fills_due (show (sndAct false block e s.snd).1 ≠ [] by simp [hf])
    simp only [hf]
    rw [← (handled_source hx).2.2.1]
    exact (fill_staged h (hclear hdue) ht).snd hw

theorem queue_staged {a : ArqAction} {n : ℕ} {snd : Snd}
    (hok : ArqOk a s.arq) (hs : arqStep a s.arq = some q) (hw : Working snd)
    (hposts : ∀ (i : ℕ) p, q.posts[i]? = some p → s.arq.posts[i]? = some p ∨
      ∀ v, p.req ≠ arqRequest v)
    (hn : n = 0 ∨ n = s.progress ∧ a ≠ .interrupt) :
    Staged buffer arqRequest { s with arq := q, snd := snd, progress := n } := by
  have hlater := step_later hs
  have hkept : n ≠ 0 → q.flight = s.arq.flight ∧ n = s.progress := by
    intro hne
    obtain ⟨heq,ha⟩ := hn.resolve_left hne
    refine ⟨flight_kept h.arq ha hok hs ?_,heq⟩
    intro hf
    exact hne (heq.trans (h.idle hf))
  refine ⟨hw,step_inv h.arq hok hs,hlater.flightIssued h.issued,?_,?_,h.fits,?_,?_,?_⟩
  · intro i p v hp hreq
    rcases hposts i p hp with hp | hne
    · exact h.owned i p v hp hreq
    · exact absurd hreq (hne v)
  · exact fun r hr => hlater.post (h.posted r hr)
  · exact fun r hr hcalls => h.staged r hr (fun c hc => hcalls c (hlater.calls hc))
  · intro r hr e he hserial i hi
    have hne : n ≠ 0 := fun h0 => not_lt_zero i (h0 ▸ hi)
    obtain ⟨hflight,heq⟩ := hkept hne
    exact h.moved r hr e (hflight ▸ he) hserial i (heq ▸ hi)
  · intro hf
    by_contra hne
    obtain ⟨hflight,heq⟩ := hkept hne
    exact hne (heq.trans (h.idle (hflight.symm.trans hf)))

end

theorem notified_working {snd : Snd} (h : Working snd) : Working (notified q snd) := by
  unfold notified
  split
  · exact h
  · exact h
  · split <;> exact h

theorem streamStep_queue {a : ArqAction} (ha : a ≠ .interrupt) :
    streamStep block buffer arqRequest (.arq a) s =
      (arqStep a s.arq).map (fun q => { s with arq := q }) := by
  cases a with
  | interrupt => exact absurd rfl ha
  | _ => rfl

section

variable (h : Staged buffer arqRequest s)
include h

theorem arq_staged {a : ArqAction} (hok : Possible buffer arqRequest (.arq a) s)
    (hs : streamStep block buffer arqRequest (.arq a) s = some s') :
    Staged buffer arqRequest s' := by
  have hsame : ∀ q : Arq, q.posts = s.arq.posts → ∀ (i : ℕ) p, q.posts[i]? = some p →
      s.arq.posts[i]? = some p ∨ ∀ v, p.req ≠ arqRequest v :=
    fun q hq i p hp => .inl (hq ▸ hp)
  cases a with
  | post p =>
    rw [streamStep_queue (a := .post p) nofun] at hs
    obtain ⟨q,hq,rfl⟩ := map_eq_some_iff.mp hs
    refine queue_staged h hok.1 hq h.working ?_ (.inr ⟨rfl,nofun⟩)
    cases hq
    intro i p' hp'
    rcases post_new hp' with hp' | rfl
    · exact .inl hp'
    · exact .inr hok.2
  | setChunkSize size =>
    rw [streamStep_queue (a := .setChunkSize size) nofun] at hs
    obtain ⟨q,hq,rfl⟩ := map_eq_some_iff.mp hs
    refine queue_staged (a := .setChunkSize size) h hok hq h.working (hsame q ?_) (.inr ⟨rfl,nofun⟩)
    cases hq
    rfl
  | interrupt =>
    obtain ⟨q,hq,rfl⟩ := map_eq_some_iff.mp hs
    obtain ⟨q',hq',hposts,-⟩ := interrupt_moves h.arq hok.1
    obtain rfl := mem_unique hq' hq
    exact queue_staged h hok.1 hq (notified_working h.working) (hsame q' hposts) (.inl rfl)
  | ret =>
    rw [streamStep_queue (a := .ret) nofun] at hs
    obtain ⟨q,hq,rfl⟩ := map_eq_some_iff.mp hs
    refine queue_staged (a := .ret) h hok hq h.working (hsame q ?_) (.inr ⟨rfl,nofun⟩)
    cases hq
    unfold callbackReturn
    split
    · rfl
    · exact (serve_kept _).1
    · exact (serve_kept _).1

theorem Staged.dma {r : Refill} (hr : r ∈ s.refills) {e : Issue}
    (he : e ∈ s.arq.flight) (hserial : e.serial = r.serial) :
    e.dma = ⟨arqMramToAram,physical buffer,r.fill.dest.toNat,r.fill.size.toNat⟩ := by
  have hp := h.posted r hr
  rw [← hserial] at hp
  rw [flight_whole h.arq h.issued he hp (fillPost_high r.fill)]
  have hmram : physical buffer < 4294967296 := BitVec.isLt _
  have haram : r.fill.dest.toNat < 4294967296 := BitVec.isLt _
  simp only [fillPost, u32, mod_eq_of_lt hmram, mod_eq_of_lt haram]

theorem move_staged {k : ℕ}
    (hok : Possible buffer arqRequest (.move k) s) : Staged buffer arqRequest (move k s) := by
  cases hflight : s.arq.flight with
  | nil =>
    rw [show move k s = s by simp [move, hflight]]
    exact h
  | cons e rest =>
    have he : e ∈ s.arq.flight := by simp [hflight]
    have honly : ∀ e' ∈ s.arq.flight, e' = e := by
      have hone := inv_oneDma h.arq
      rw [hflight, List.length_cons] at hone
      obtain rfl : rest = [] := List.length_eq_zero_iff.mp (by omega)
      intro e' he'
      rw [hflight] at he'
      exact List.mem_singleton.mp he'
    obtain ⟨hk,hapart⟩ := hok e he
    by_cases hdir : e.dma.dir = arqMramToAram
    · rw [show move k s = { s with
          aram := copyBytes s.mem s.aram (e.dma.mramAddr+s.progress) (e.dma.aramAddr+s.progress) k
          progress := s.progress+k } by simp only [move, hflight, hdir, if_true]]
      refine ⟨h.working,h.arq,h.issued,h.owned,h.posted,h.fits,h.staged,?_,?_⟩
      · intro r hr e' he' hserial i hi
        obtain rfl := honly e' he'
        have hdma := h.dma hr he' hserial
        change i < s.progress+k at hi
        rw [hdma] at hk ⊢
        dsimp only at hk ⊢
        unfold copyBytes
        by_cases hold : i < s.progress
        · rw [if_neg (by omega)]
          exact h.moved r hr e' he' hserial i hold
        · -- a byte that is moved now is still staged, as the refill is not called back
          have hcalls : ∀ c ∈ s.arq.calls, c.serial ≠ r.serial := fun c hc hcr =>
            flight_not_called h.arq he' hc (hcr.trans hserial.symm)
          have hstaged := h.staged r hr hcalls i (by omega)
          rw [if_pos (by omega), ← hstaged]
          congr 1
          omega
      · intro hf
        exact absurd (hf ▸ he) List.not_mem_nil
    · rw [show move k s = { s with
          mem := copyBytes s.aram s.mem (e.dma.aramAddr+s.progress) (e.dma.mramAddr+s.progress) k
          progress := s.progress+k } by simp only [move, hflight, hdir, if_false]]
      refine ⟨h.working,h.arq,h.issued,h.owned,h.posted,h.fits,?_,?_,?_⟩
      · intro r hr hcalls i hi
        have hfits := h.fits r hr
        have hout := hapart hdir
        change copyBytes _ _ _ _ _ _ = _
        unfold copyBytes
        rw [if_neg (by omega)]
        exact h.staged r hr hcalls i hi
      · intro r hr e' he' hserial
        obtain rfl := honly e' he'
        exact absurd (congrArg Dma.dir (h.dma hr he' hserial)) hdir
      · intro hf
        exact absurd (hf ▸ he) List.not_mem_nil

theorem store_staged {a : ℕ} {b : BitVec 8} (hok : Possible buffer arqRequest (.store a b) s) :
    Staged buffer arqRequest { s with mem := Function.update s.mem a b } := by
  refine ⟨h.working,h.arq,h.issued,h.owned,h.posted,h.fits,?_,h.moved,h.idle⟩
  intro r hr hcalls i hi
  have hfits := h.fits r hr
  have hne : physical buffer+i ≠ a := by
    rcases hok with hlt | hle
    · omega
    · omega
  exact (Function.update_of_ne hne _ _).trans (h.staged r hr hcalls i hi)

end

theorem possible_snd {e : VoiceSettings.Event} (h : Possible buffer arqRequest (.snd e) s) :
    VoiceSettings.Possible e s.snd := by
  cases e with
  | arq i => exact absurd h id
  | _ => exact h

theorem step_staged {e : Event} (h : Staged buffer arqRequest s) (hok : Ok buffer arqRequest e s)
    (hs : streamStep block buffer arqRequest e s = some s') : Staged buffer arqRequest s' := by
  cases e with
  | snd e => exact snd_staged h (possible_snd hok.1) hok.2 hs
  | arq a => exact arq_staged h hok.1 hs
  | move k =>
    cases hs
    exact move_staged h hok.1
  | store a b =>
    cases hs
    exact store_staged h hok.1

end Staged

def Complete (s : Streams) (r : Refill) : Prop :=
  ∃ e ∈ s.arq.flight, e.serial = r.serial ∧ s.progress = e.dma.len

def Arrived (s : Streams) (r : Refill) : Prop :=
  ∀ i < r.fill.size.toNat, s.aram (r.fill.dest.toNat+i) = r.data i

/-- Each refill ends with its bytes in the half-buffer, is called back or still
outstanding, and is posted with the next bytes of the voice. -/
theorem refills_arrive (block : ℕ → BitVec 32) (buffer : BitVec 32) (arqRequest : ℕ → ℕ)
    (req : ℕ → ARQRequest) (mem aram : ℕ → BitVec 8) {s : Streams}
    (h : Reach (streamStep block buffer arqRequest) (Ok buffer arqRequest)
      (streamsInit req mem aram) s) :
    (∀ r ∈ s.refills, Complete s r → Arrived s r) ∧
    (∀ r ∈ s.refills, (∃ c ∈ s.arq.calls, c.serial = r.serial) ∨
      (arqRequest r.fill.voiceno ∈ openHi s.arq ∧
        s.arq.serial (arqRequest r.fill.voiceno) = r.serial)) ∧
    (∀ e s', Ok buffer arqRequest (.snd e) s →
      streamStep block buffer arqRequest (.snd e) s = some s' → TakesNext block e s.snd ∧
        s'.refills = s.refills ++ (sndAct false block e s.snd).1.map (fun f =>
          Refill.mk s.arq.posts.length f
            (nextByte s.mem f.src (blockOf s.snd s.snd.currvoice).mramEnd))) := by
  have hst : Staged buffer arqRequest s :=
    reach_invariant (init_staged req mem aram) (fun _ _ _ hst hok hs => step_staged hst hok hs) h
  refine ⟨?_,?_,?_⟩
  · rintro r hr ⟨e,he,hserial,hwhole⟩ i hi
    refine hst.moved r hr e he hserial i ?_
    rw [hwhole, hst.dma hr he hserial]
    exact hi
  · intro r hr
    by_cases hc : ∃ c ∈ s.arq.calls, c.serial = r.serial
    · exact .inl hc
    · push Not at hc
      exact .inr (hst.waits hr hc)
  · intro e s' hok hs
    have htakes := @takesNext block e s.snd hst.working (possible_snd hok.1)
    refine ⟨htakes,?_⟩
    cases hs
    rcases htakes with hnil | ⟨x,f,hx,hf,-,-,hend,-,-⟩
    · simp [hnil]
    · rw [← hend, (handled_source hx).2.2.1]
      simp [hf, fill]

/-! Runs on voices whose sources hold one byte each. -/

def blocks (v : ℕ) : BitVec 32 := BitVec.ofNat 32 (16384+2304*v)

def requests (v : ℕ) : ℕ := 1000+v

def silent : DspWrite := ⟨0,0,0,0,0,0,0,0⟩

def sources : Streams :=
  streamsInit (fun _ => ⟨0,0,0,.ready,0,0,0,0⟩) (fun a => BitVec.ofNat 8 (a/65536)) (fun _ => 0)

/-- Voice `i` plays the source at `0x80010000*(i+1)`. -/
def plays (i : ℕ) : List Event :=
  [.snd (.api (.allocate none 0)),
    .snd (.api (.set (.voice i) (.play 3 (BitVec.ofNat 32 (2147483648+65536*(i+1))) 4096 0x10000 0
      true)))]

def admits : Event → Streams → Bool
  | .snd (.arq _), _ => false
  | .snd e, s => decide (VoiceSettings.Possible e s.snd)
  | .arq (.post _), _ => false
  | .arq .interrupt, s => decide (ArqOk .interrupt s.arq) && decide (s.snd.phase = .outside) &&
    s.arq.flight.all (fun e => decide (s.progress = e.dma.len))
  | .arq a, s => decide (ArqOk a s.arq)
  | .move k, s => s.arq.flight.all (fun e => decide (s.progress+k ≤ e.dma.len) &&
    decide (e.dma.dir = arqMramToAram))
  | .store _ _, _ => false

theorem admits_possible {e : Event} {s : Streams} (h : admits e s = true) :
    Possible 0x80050000 requests e s := by
  cases e with
  | snd e =>
    cases e with
    | arq i => exact absurd h false_ne_true
    | pause b => exact trivial
    | _ => exact of_decide_eq_true (p := VoiceSettings.Possible _ s.snd) h
  | arq a =>
    cases a with
    | post p => exact absurd h false_ne_true
    | interrupt =>
      simp only [admits, and_eq_true, decide_eq_true_eq, List.all_eq_true] at h
      exact ⟨h.1.1,h.1.2,h.2⟩
    | setChunkSize size => exact of_decide_eq_true (p := ArqOk (.setChunkSize size) s.arq) h
    | ret => exact of_decide_eq_true (p := ArqOk .ret s.arq) h
  | move k =>
    simp only [admits, List.all_eq_true, and_eq_true, decide_eq_true_eq] at h
    exact fun e he => ⟨(h e he).1,fun hne => absurd (h e he).2 hne⟩
  | store a b => exact absurd h false_ne_true

def empties : Event → Streams → Bool
  | .snd _, s => decide (s.arq.reqQueueHi = [] ∧ s.arq.reqPendingHi = none)
  | _, _ => true

theorem empties_clear {e : Event} {s : Streams} (h : empties e s = true) : Clear requests e s := by
  cases e with
  | snd e =>
    obtain ⟨hqueue,hpend⟩ := of_decide_eq_true h
    exact fun _ v => ⟨by simp [hqueue],by simp [hpend]⟩
  | _ => exact trivial

/-- The refill of voice 1 follows that of voice 0. -/
theorem refills_arrive_second : ∃ s, Reach (streamStep blocks 0x80050000 requests)
    (Ok 0x80050000 requests) sources s ∧
      (∃ r ∈ s.refills, r.fill.voiceno = 0 ∧ ∃ c ∈ s.arq.calls, c.serial = r.serial) ∧
      ∃ r ∈ s.refills, r.fill.voiceno = 1 ∧ Complete s r ∧
        s.aram (r.fill.dest.toNat+5) = r.data 5 ∧ r.data 5 = 2 := by
  have hrun : (runChecked (streamStep blocks 0x80050000 requests)
      (fun e s => admits e s && empties e s)
      (plays 0 ++ plays 1 ++ [.snd .dma,.snd (.request silent),.move 2304,.arq .interrupt,.arq .ret,
        .snd (.request silent),.move 2304]) sources).any (fun s => decide
        ((∃ r ∈ s.refills, r.fill.voiceno = 0 ∧ ∃ c ∈ s.arq.calls, c.serial = r.serial) ∧
          ∃ r ∈ s.refills, r.fill.voiceno = 1 ∧ 5 < r.fill.size.toNat ∧ r.data 5 = 2 ∧
            ∃ e ∈ s.arq.flight, e.serial = r.serial ∧ s.progress = e.dma.len)) = true := by
    decide +kernel
  obtain ⟨s,hreach,hfirst,r,hmem,hvoice,hsize,hdata,hcomplete⟩ :=
    run_reaches (check_and (fun _ _ => admits_possible) (fun _ _ => empties_clear)) hrun
  have harrived := (refills_arrive blocks 0x80050000 requests _ _ _ hreach).1 r hmem hcomplete
  exact ⟨s,hreach,hfirst,r,hmem,hvoice,hcomplete,harrived 5 hsize,hdata⟩

/-- The request of voice 1 waits for the transfer of voice 0, and moves what
voice 2 has staged in the meantime. -/
theorem other_voice_arrives : ∃ s, Reach (streamStep blocks 0x80050000 requests)
    (Possible 0x80050000 requests) sources s ∧ ∃ r ∈ s.refills, r.fill.voiceno = 1 ∧
      Complete s r ∧ r.data 0 = 2 ∧ s.aram r.fill.dest.toNat = 3 := by
  have hrun : (runChecked (streamStep blocks 0x80050000 requests) admits
      (plays 0 ++ plays 1 ++ plays 2 ++ [.snd .dma,.snd (.request silent),.move 2304,
        .snd (.request silent),.snd (.request silent),.arq .interrupt,.arq .ret,.move 2304])
      sources).any (fun s => decide (∃ r ∈ s.refills, r.fill.voiceno = 1 ∧
        (∃ e ∈ s.arq.flight, e.serial = r.serial ∧ s.progress = e.dma.len) ∧ r.data 0 = 2 ∧
          s.aram r.fill.dest.toNat = 3)) = true := by
    decide +kernel
  obtain ⟨s,hreach,harrived⟩ := run_reaches (fun _ _ => admits_possible) hrun
  exact ⟨s,hreach,harrived⟩

end Libogc.StreamDelivery
