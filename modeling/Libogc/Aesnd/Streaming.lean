import Libogc.Aesnd.Settings
import Libogc.Aram.RequestFlight

/-!
# Streaming on the GameCube

A request of the DSP copies the next bytes of a voice to the one stream buffer
and posts a request that moves them to the half of the voice's ARAM block that
the DSP has left. The engine moves the bytes of a transfer piece by piece, at
any time until its interrupt. Other users of the queue post requests of their
own. `refills` records each refill with the number of its post and the bytes
that are to arrive; no function reads it.
-/

set_option autoImplicit false

namespace Libogc.Streaming
open Voice RequestQueue Function
open VoiceSettings (sndAct atWork)

def arqMramToAram : ℕ := 0

def arqPrioHi : ℕ := 1

def aesndArqCallback : ℕ := 1

/-- `MEM_VIRTUAL_TO_PHYSICAL`. -/
def physical (a : BitVec 32) : ℕ := (a &&& 0x3fffffff).toNat

/-- The bytes of a source from a position on, zeros behind its end. -/
def nextByte (mem : ℕ → BitVec 8) (curr last : BitVec 32) (i : ℕ) : BitVec 8 :=
  if i < (last-curr).toNat then mem (physical (curr+BitVec.ofNat 32 i)) else 0

structure Refill where
  serial : ℕ
  fill : Fill
  data : ℕ → BitVec 8

/-- `progress` bytes of the transfer under way are moved. Memory is that of
the physical addresses. -/
structure Streams where
  snd : Snd
  arq : Arq
  mem : ℕ → BitVec 8
  aram : ℕ → BitVec 8
  progress : ℕ
  refills : List Refill

def streamsInit (req : ℕ → ARQRequest) (mem aram : ℕ → BitVec 8) : Streams :=
  ⟨sndInit,arqInit req,mem,aram,0,[]⟩

inductive Event where
  | snd (e : VoiceSettings.Event)
  | arq (a : ArqAction)
  | move (k : ℕ)
  | store (a : ℕ) (b : BitVec 8)
  deriving DecidableEq, Repr

section Model

variable (block : ℕ → BitVec 32) (buffer : BitVec 32) (arqRequest : ℕ → ℕ)

def stage (f : Fill) (mem : ℕ → BitVec 8) (a : ℕ) : BitVec 8 :=
  let i := a-physical buffer
  if a < physical buffer then mem a
  else if i < f.copyLen.toNat then mem (physical (f.src+BitVec.ofNat 32 i))
  else if i < f.size.toNat then 0
  else mem a

def fillPost (f : Fill) : Post :=
  ⟨arqRequest f.voiceno,f.voiceno,arqMramToAram,arqPrioHi,f.dest.toNat,physical buffer,
    f.size.toNat,if f.notify then some aesndArqCallback else none⟩

def fill (last : BitVec 32) (s : Streams) (f : Fill) : Streams :=
  { s with
    mem := stage buffer f s.mem
    arq := arqPostRequestAsync (fillPost buffer arqRequest f) s.arq
    refills := s.refills ++ [⟨s.arq.posts.length,f,nextByte s.mem f.src last⟩] }

def copyBytes (src dst : ℕ → BitVec 8) (i j n : ℕ) (a : ℕ) : BitVec 8 :=
  if j ≤ a ∧ a < j+n then src (i+(a-j)) else dst a

def move (k : ℕ) (s : Streams) : Streams :=
  match s.arq.flight with
  | [] => s
  | e::_ =>
    let mramAt := e.dma.mramAddr+s.progress
    let aramAt := e.dma.aramAddr+s.progress
    if e.dma.dir = arqMramToAram then
      { s with aram := copyBytes s.mem s.aram mramAt aramAt k, progress := s.progress+k }
    else { s with mem := copyBytes s.aram s.mem aramAt mramAt k, progress := s.progress+k }

def notified (q : Arq) (s : Snd) : Snd :=
  match q.phase, q.calls.getLast? with
  | .outside, _ => s
  | _, none => s
  | _, some c => if c.fn = aesndArqCallback then arqCallback (q.req c.req).owner s else s

def streamStep : Event → Streams → Option Streams
  | .snd e, s =>
    let r := sndAct false block e s.snd
    some { r.1.foldl (fill buffer arqRequest s.snd.command.mramEnd) s with snd := r.2 }
  | .arq .interrupt, s => (arqStep .interrupt s.arq).map (fun q =>
      { s with arq := q, snd := notified q s.snd, progress := 0 })
  | .arq a, s => (arqStep a s.arq).map (fun q => { s with arq := q })
  | .move k, s => some (move k s)
  | .store a b, s => some { s with mem := Function.update s.mem a b }

/-- The interrupt of a transfer comes when its bytes are moved. The requests
of the other users are not those of the voices, and nobody else writes to the
stream buffer. -/
def Possible : Event → Streams → Prop
  | .snd (.arq _), _ => False
  | .snd e, s => VoiceSettings.Possible e s.snd
  | .arq (.post p), s => ArqOk (.post p) s.arq ∧ ∀ v, p.req ≠ arqRequest v
  | .arq .interrupt, s => ArqOk .interrupt s.arq ∧ s.snd.phase = .outside ∧
    ∀ e ∈ s.arq.flight, s.progress = e.dma.len
  | .arq a, s => ArqOk a s.arq
  | .move k, s => ∀ e ∈ s.arq.flight, s.progress+k ≤ e.dma.len ∧
    (e.dma.dir ≠ arqMramToAram → e.dma.mramAddr+e.dma.len ≤ physical buffer ∨
      physical buffer+(streamSize*2).toNat ≤ e.dma.mramAddr)
  | .store a _, _ => a < physical buffer ∨ physical buffer+(streamSize*2).toNat ≤ a

/-! When a refill is due. -/

/-- The block that `__aesndhandlerequest` works on, and whether its source had
ended. -/
def handled : VoiceSettings.Event → Snd → Option (Bool × Pb)
  | .request d, s =>
    let pb := unfinished (written d s.dsp s.command)
    if s.abrequested || (sourceEnded pb && pb.flags.stream && pb.cb.isSome) then none
    else some (sourceEnded pb,pb)
  | .ret, s => if s.phase = .streamCb then some (true,s.command) else none
  | _, _ => none

/-- The voice has no buffer yet, or the DSP has left a half of it. -/
def due (ended : Bool) (pb : Pb) : Bool :=
  !(ended && pb.flags.once) && (decide (pb.bufStart = 0) || decide (pb.bufCurr < pb.streamLast) ||
    decide (half pb ≤ pb.bufCurr ∧ pb.streamLast < half pb))

def refillDue (e : VoiceSettings.Event) (s : Snd) : Bool :=
  (handled e s).any (fun x => due x.1 x.2)

/-- A refill comes when no request of a voice waits or is under way. -/
def Clear : Event → Streams → Prop
  | .snd e, s => refillDue e s.snd = true →
    ∀ v, arqRequest v ∉ s.arq.reqQueueHi ∧ s.arq.reqPendingHi ≠ some (arqRequest v)
  | _, _ => True

def Ok (e : Event) (s : Streams) : Prop := Possible buffer arqRequest e s ∧ Clear arqRequest e s

end Model

/-! What a request takes from the source. -/

def position (ended : Bool) (pb : Pb) : BitVec 32 :=
  if ended && !pb.flags.once && pb.flags.loop then pb.mramStart else pb.mramCurr

structure Takes (block : ℕ → BitVec 32) (ended : Bool) (pb pb' : Pb) (f : Fill) : Prop where
  voice : f.voiceno = pb.voiceno
  dest : f.size = streamSize ∧ (f.dest = block pb.voiceno ∨ f.dest = block pb.voiceno+streamSize) ∨
    f.size = streamSize*2 ∧ f.dest = block pb.voiceno
  src : f.src = position ended pb
  len : f.copyLen = if f.size < pb.mramEnd-f.src then f.size else pb.mramEnd-f.src
  moved : pb'.mramCurr = f.src+f.copyLen

section Takes

variable {block : ℕ → BitVec 32}

theorem fillBuffer_takes (upper : Bool) (pb : Pb) :
    Takes block false pb (fillBuffer block upper pb).2 (fillBuffer block upper pb).1 := by
  refine ⟨rfl,.inl ⟨rfl,?_⟩,rfl,rfl,rfl⟩
  cases upper with
  | false => exact .inl rfl
  | true => exact .inr rfl

theorem half_once {pb : Pb} (h : pb.bufCurr < pb.streamLast) :
    ¬(half pb ≤ pb.bufCurr ∧ pb.streamLast < half pb) := by
  rintro ⟨hlo,hhi⟩
  bv_omega

theorem refill_takes (pb : Pb) : ((refill block pb).1 = [] ∧
    (refill block pb).2.mramCurr = pb.mramCurr) ∨
    ∃ f, (refill block pb).1 = [f] ∧ due false pb = true ∧
      Takes block false pb (refill block pb).2 f := by
  by_cases h1 : pb.bufCurr < pb.streamLast
  · have h2 : ¬(half (fillBuffer block true pb).2 ≤ pb.bufCurr ∧
        (fillBuffer block true pb).2.streamLast < half (fillBuffer block true pb).2) := half_once h1
    have hf := @fillBuffer_takes block true pb
    right
    refine ⟨(fillBuffer block true pb).1,?_,?_,hf.voice,hf.dest,hf.src,hf.len,?_⟩
    · simp [refill, fillIf, h1, h2]
    · simp [due, h1]
    · simp only [refill, fillIf, h1, h2, decide_true, if_true]
      exact hf.moved
  · by_cases h2 : half pb ≤ pb.bufCurr ∧ pb.streamLast < half pb
    · have hf := @fillBuffer_takes block false pb
      right
      refine ⟨(fillBuffer block false pb).1,?_,?_,hf.voice,hf.dest,hf.src,hf.len,?_⟩
      · simp [refill, fillIf, h1, h2]
      · simp [due, h2]
      · simp only [refill, fillIf, h1, h2, decide_false, if_false,
          Bool.false_eq_true]
        exact hf.moved
    · left
      simp [refill, fillIf, h1, h2]

theorem fills_takes (pb : Pb) : ((fills false block pb).1 = [] ∧
    (fills false block pb).2.mramCurr = pb.mramCurr) ∨
    ∃ f, (fills false block pb).1 = [f] ∧ due false pb = true ∧
      Takes block false pb (fills false block pb).2 f := by
  unfold fills
  split
  · exact refill_takes pb
  · rename_i hstart
    refine .inr ⟨_,rfl,?_,rfl,.inr ⟨rfl,rfl⟩,rfl,rfl,rfl⟩
    simp [due, not_not.mp hstart]

theorem handleRequest_takes (ended : Bool) (pb : Pb) :
    ((handleRequest false block ended pb).1 = [] ∧
    (handleRequest false block ended pb).2.mramCurr = position ended pb) ∨
    ∃ f, (handleRequest false block ended pb).1 = [f] ∧ due ended pb = true ∧
      Takes block ended pb (handleRequest false block ended pb).2 f := by
  have hfills : ∀ curr, position ended pb = curr → ¬(ended && pb.flags.once) = true →
      ((fills false block { pb with mramCurr := curr }).1 = [] ∧
        (fills false block { pb with mramCurr := curr }).2.mramCurr = position ended pb) ∨
      ∃ f, (fills false block { pb with mramCurr := curr }).1 = [f] ∧ due ended pb = true ∧
        Takes block ended pb (fills false block { pb with mramCurr := curr }).2 f := by
    intro curr hcurr honce
    rcases @fills_takes block { pb with mramCurr := curr } with ⟨hnil,hmoved⟩ | ⟨f,hf,hdue,ht⟩
    · exact .inl ⟨hnil,hmoved.trans hcurr.symm⟩
    · refine .inr ⟨f,hf,?_,ht.voice,ht.dest,ht.src.trans hcurr.symm,ht.len,ht.moved⟩
      rw [due, Bool.eq_false_of_not_eq_true honce]
      exact hdue
  unfold handleRequest
  split
  · rename_i h
    simp only [Bool.and_eq_true] at h
    left
    simp [position, h.2]
  · rename_i honce
    split
    · rename_i hloop
      refine hfills pb.mramStart ?_ honce
      simp only [Bool.and_eq_true] at hloop
      have hnot : pb.flags.once = false := by simpa [hloop.1] using honce
      simp [position, hloop.1, hloop.2, hnot]
    · rename_i hloop
      refine hfills pb.mramCurr ?_ honce
      unfold position
      rw [if_neg]
      intro h
      simp only [Bool.and_eq_true] at h
      exact hloop (by simp [h.1.1, h.2])

end Takes

/-! What a handler does to the position of its voice. -/

def blockOf (s : Snd) (i : ℕ) : Pb := if atWork s i then s.command else s.table i

section Voice

variable {block : ℕ → BitVec 32} {e : VoiceSettings.Event} {s : Snd} {x : Bool × Pb}

theorem sndAct_fills (e : VoiceSettings.Event) (s : Snd) : (sndAct false block e s).1 =
    (handled e s).elim [] (fun x => (handleRequest false block x.1 x.2).1) := by
  cases e with
  | request d =>
    simp only [sndAct, requestCallback, handled]
    cases s.abrequested with
    | true => rfl
    | false =>
      rw [if_neg Bool.false_ne_true, Bool.false_or]
      split <;> rfl
  | ret =>
    simp only [sndAct, callbackReturns, handled]
    cases s.phase <;> rfl
  | _ => rfl

theorem handled_source (h : handled e s = some x) : x.2.mramCurr = s.command.mramCurr ∧
    x.2.mramStart = s.command.mramStart ∧ x.2.mramEnd = s.command.mramEnd ∧
      x.2.voiceno = s.command.voiceno := by
  cases e with
  | request d =>
    simp only [handled] at h
    split at h
    · exact nomatch h
    · cases h
      exact ⟨rfl,rfl,rfl,rfl⟩
  | ret =>
    simp only [handled] at h
    split at h
    · cases h
      exact ⟨rfl,rfl,rfl,rfl⟩
    · exact nomatch h
  | _ => exact nomatch h

theorem blockOf_current (hc : s.dspcomplete = false) : blockOf s s.currvoice = s.command := by
  simp [blockOf, atWork, hc]

theorem takeUp_block {i j : ℕ} (hne : i ≠ j) : blockOf (takeUp j s) i = s.table i := by
  have hcurr : (takeUp j s).currvoice = j ∧ (takeUp j s).table = s.table := by
    unfold takeUp
    simp only
    split <;> exact ⟨rfl,rfl⟩
  simp [blockOf, atWork, hcurr.1, hcurr.2, Ne.symm hne]

theorem copyBack_block : blockOf (copyBack s) s.currvoice = s.command := by
  unfold copyBack
  simp only
  split
  · rename_i hj
    have hle := (VoiceSettings.nextVoice_used hj).1
    exact (takeUp_block (Nat.ne_of_lt hle)).trans (update_self _ _ _)
  · unfold blockOf
    split
    · rfl
    · exact update_self _ _ _

theorem afterStream_block (ended : Bool) (hc : s.dspcomplete = false) :
    blockOf (afterStream false block ended s).2 s.currvoice =
      (handleRequest false block ended s.command).2 := by
  unfold afterStream
  simp only
  split
  · exact blockOf_current hc
  · exact copyBack_block

theorem sndAct_block (hc : s.dspcomplete = false) (h : handled e s = some x) :
    blockOf (sndAct false block e s).2 s.currvoice = (handleRequest false block x.1 x.2).2 := by
  cases e with
  | request d =>
    simp only [handled] at h
    split at h
    · cases h
    · rename_i hcond
      cases h
      rw [Bool.not_eq_true, Bool.or_eq_false_iff] at hcond
      simp only [sndAct, requestCallback]
      rw [if_neg (by simp [hcond.1]), if_neg (by simp [hcond.2])]
      exact afterStream_block _ hc
  | ret =>
    simp only [handled] at h
    split at h
    · rename_i hphase
      cases h
      simp only [sndAct, callbackReturns, hphase]
      exact afterStream_block true hc
    · cases h
  | _ => cases h

def Working (s : Snd) : Prop :=
  s.dspcomplete = true → s.phase = .outside ∧ s.mail = none ∧ s.abrequested = false

theorem takeUp_complete (j : ℕ) (s : Snd) : (takeUp j s).dspcomplete = s.dspcomplete := by
  unfold takeUp
  simp only
  split <;> rfl

theorem copyBack_complete (s : Snd) : (copyBack s).dspcomplete = s.dspcomplete := by
  unfold copyBack
  simp only
  split
  · exact takeUp_complete _ _
  · rfl

theorem afterStream_complete (ended : Bool) (s : Snd) :
    (afterStream false block ended s).2.dspcomplete = s.dspcomplete := by
  unfold afterStream
  simp only
  split
  · rfl
  · exact copyBack_complete _

theorem Working.busy (h : Working s) (hb : s.phase ≠ .outside ∨ s.mail ≠ none) :
    s.dspcomplete = false := by
  cases hc : s.dspcomplete with
  | false => rfl
  | true =>
    rcases hb with hb | hb
    · exact absurd (h hc).1 hb
    · exact absurd (h hc).2.1 hb

theorem working_of_busy {s' : Snd} (h : s'.dspcomplete = false) : Working s' :=
  fun hc => absurd (h.symm.trans hc) Bool.false_ne_true

theorem request_working (d : DspWrite) (h : Working s) (hphase : s.phase = .outside)
    (hmail : s.mail ≠ none) : Working (requestCallback false block d s).2 := by
  unfold requestCallback
  split
  · exact fun _ => ⟨hphase,rfl,rfl⟩
  · apply working_of_busy
    simp only
    split
    · exact h.busy (.inr hmail)
    · rw [afterStream_complete]
      exact h.busy (.inr hmail)

theorem returns_working (h : Working s) : Working (callbackReturns false block s).2 := by
  unfold callbackReturns
  split
  · exact h
  · rename_i hphase
    apply working_of_busy
    rw [afterStream_complete]
    exact h.busy (.inl (by simp [hphase]))
  · rename_i hphase
    apply working_of_busy
    rw [copyBack_complete]
    exact h.busy (.inl (by simp [hphase]))
  · rename_i hphase
    exact working_of_busy (h.busy (.inl (by simp [hphase])))

theorem sndAct_working (h : Working s) (hok : VoiceSettings.Possible e s) :
    Working (sndAct false block e s).2 := by
  cases e with
  | api a =>
    cases a with
    | set p c =>
      cases p with
      | voice i | command => exact h
    | allocate cb cbArg =>
      simp only [sndAct, VoiceSettings.apiCall, allocateVoice]
      split <;> exact h
  | pause b => exact h
  | dma =>
    simp only [sndAct, audioDmaCallback]
    split
    · exact h
    · split
      · apply working_of_busy
        rw [takeUp_complete]
      · exact h
  | request d => exact request_working d h hok.1 hok.2
  | ret => exact returns_working h
  | arq i => exact h

/-- A request for the voice at work takes the next bytes of it, and leaves its
position behind them. -/
def TakesNext (block : ℕ → BitVec 32) (e : VoiceSettings.Event) (s : Snd) : Prop :=
  (sndAct false block e s).1 = [] ∨ ∃ x f, handled e s = some x ∧
    (sndAct false block e s).1 = [f] ∧ x.2.mramCurr = (blockOf s s.currvoice).mramCurr ∧
    x.2.mramStart = (blockOf s s.currvoice).mramStart ∧
    x.2.mramEnd = (blockOf s s.currvoice).mramEnd ∧
    x.2.voiceno = (blockOf s s.currvoice).voiceno ∧
    Takes block x.1 x.2 (blockOf (sndAct false block e s).2 s.currvoice) f

theorem handled_busy (h : Working s) (hok : VoiceSettings.Possible e s)
    (hx : handled e s = some x) : s.dspcomplete = false := by
  cases e with
  | request d => exact h.busy (.inr hok.2)
  | ret => exact h.busy (.inl hok)
  | _ => exact nomatch hx

theorem takesNext (h : Working s) (hok : VoiceSettings.Possible e s) : TakesNext block e s := by
  unfold TakesNext
  cases hx : handled e s with
  | none =>
    left
    rw [sndAct_fills, hx]
    rfl
  | some x =>
    have hc := handled_busy h hok hx
    obtain ⟨hcurr,hstart,hend,hno⟩ := handled_source hx
    have hfills : (sndAct false block e s).1 = (handleRequest false block x.1 x.2).1 := by
      rw [sndAct_fills, hx]
      rfl
    rw [hfills, sndAct_block hc hx, blockOf_current hc]
    rcases @handleRequest_takes block x.1 x.2 with ⟨hnil,-⟩ | ⟨f,hf,-,ht⟩
    · exact .inl hnil
    · exact .inr ⟨x,f,rfl,hf,hcurr,hstart,hend,hno,ht⟩

theorem fills_due (h : (sndAct false block e s).1 ≠ []) : refillDue e s = true := by
  rw [sndAct_fills] at h
  unfold refillDue
  cases hx : handled e s with
  | none =>
    rw [hx] at h
    exact absurd rfl h
  | some x =>
    rw [hx] at h
    rcases @handleRequest_takes block x.1 x.2 with ⟨hnil,-⟩ | ⟨f,-,hdue,-⟩
    · exact absurd hnil h
    · exact hdue

end Voice

end Libogc.Streaming
