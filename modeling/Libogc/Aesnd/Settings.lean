import Libogc.Aesnd.Voice
import Libogc.Library.GuardedReach

/-!
# The settings of a voice

While the DSP works on a voice its settings are those of the command block,
which replaces the block of the voice afterwards. A call on the block of the
voice in that time is lost, and so is a call on the command block that is not
made from a callback. A voice is marked as running when its first buffer has
been filled, whatever was called for it in the meantime.
-/

set_option autoImplicit false

namespace Libogc.VoiceSettings
open Option GuardedReach Voice List Function

/-- A block without what the DSP and the handlers keep in it. -/
def settings (pb : Pb) : Pb :=
  { pb with
    bufStart := 0
    bufEnd := 0
    bufCurr := 0
    yn1 := 0
    yn2 := 0
    pds := 0
    counter := 0
    left := 0
    right := 0
    delay := 0
    mramCurr := 0
    streamLast := 0
    flags := { pb.flags with finished := false } }

def atWork (s : Snd) (i : ℕ) : Bool := !s.dspcomplete && decide (s.currvoice = i)

def settingsOf (s : Snd) (i : ℕ) : Pb := settings (if atWork s i then s.command else s.table i)

/-! The calls. -/

inductive Api where
  | set (p : Ptr) (c : Setting)
  | allocate (cb : Option ℕ) (cbArg : ℕ)
  deriving DecidableEq, Repr

def apiCall : Api → Snd → Snd
  | .set p c, s => setAt p c s
  | .allocate cb cbArg, s => allocateVoice cb cbArg s

def target : Api → Snd → Option ℕ
  | .set (.voice i) _, _ => some i
  | .set .command _, s => some s.currvoice
  | .allocate _ _, s => freeVoice s

inductive Event where
  | api (a : Api)
  | pause (b : Bool)
  | dma
  | request (d : DspWrite)
  | ret
  | arq (i : ℕ)
  deriving DecidableEq, Repr

def sndAct (wii : Bool) (block : ℕ → BitVec 32) : Event → Snd → List Fill × Snd
  | .api a, s => ([], apiCall a s)
  | .pause b, s => ([], { s with globalpause := b })
  | .dma, s => ([], audioDmaCallback s)
  | .request d, s => requestCallback wii block d s
  | .ret, s => callbackReturns wii block s
  | .arq i, s => ([], arqCallback i s)

/-- An interrupt comes when no handler runs, and the DSP answers its mails. -/
def Possible : Event → Snd → Prop
  | .api (.set (.voice i) _), _ => i < maxVoices
  | .api (.set .command _), _ => True
  | .api (.allocate _ _), _ => True
  | .pause _, _ => True
  | .dma, s => s.phase = .outside
  | .request _, s => s.phase = .outside ∧ s.mail ≠ none
  | .ret, s => s.phase ≠ .outside
  | .arq i, _ => i < maxVoices

/-- The step fills the first buffer of the voice at work. -/
def fillsFirst : Event → Snd → Bool
  | .request _, s =>
    let ended := sourceEnded s.command
    !s.abrequested && !(ended && s.command.flags.stream && s.command.cb.isSome) &&
      decide (s.command.bufStart = 0) && !(ended && s.command.flags.once)
  | .ret, s => decide (s.phase = .streamCb) && decide (s.command.bufStart = 0) &&
    !s.command.flags.once
  | _, _ => false

def playing (pb : Pb) : Bool := pb.flags.used && !pb.flags.stopped

/-- A call is not for the block of a voice that the DSP works on, and for the
command block only if a callback makes it; a voice that is to play once is at
its end when its stream callback returns. The first buffer of a voice is filled,
and its transfer to ARAM completed, while the voice is in use and not stopped;
the voice has not been played anew before the completion. -/
def Orderly : Event → Snd → Prop
  | .api (.set (.voice i) _), s => atWork s i = false
  | .api (.set .command _), s => s.phase ≠ .outside
  | .request d, s => fillsFirst (.request d) s = true → playing s.command = true
  | .ret, s =>
    (s.phase = .streamCb → s.command.flags.once = true → sourceEnded s.command = true) ∧
      (fillsFirst .ret s = true → playing s.command = true)
  | .arq i, s => atWork s i = false → playing (s.table i) = true ∧ (s.table i).bufStart ≠ 0
  | _, _ => True

structure Inv (s : Snd) : Prop where
  idle : s.dspcomplete = true → s.phase = .outside ∧ s.mail = none ∧ s.abrequested = false
  mixed : s.abrequested = true → s.phase = .outside ∧ s.mail = some .samples ∧
    maxVoices ≤ s.currvoice
  busy : s.dspcomplete = false → s.abrequested = false → s.currvoice < maxVoices ∧
    (s.table s.currvoice).flags.used = true ∧ (s.phase = .outside → s.dsp = s.command)

theorem Inv.waiting {s : Snd} (h : Inv s) (hph : s.phase ≠ .outside) :
    s.dspcomplete = false ∧ s.abrequested = false := by
  constructor
  · cases hc : s.dspcomplete with
    | false => rfl
    | true => exact absurd (h.idle hc).1 hph
  · cases ha : s.abrequested with
    | false => rfl
    | true => exact absurd (h.mixed ha).1 hph

def stopped (pb : Pb) : Pb := { pb with flags := { pb.flags with stopped := true } }

def started (pb : Pb) : Pb := { pb with flags := { pb.flags with running := true } }

def EndsOnce (v : ℕ) (s : Snd) : Prop :=
  atWork s v = true ∧ s.command.flags.once = true ∧ sourceEnded s.command = true

/-- The voice starts to run: on the Wii with its first buffer, on the GameCube
when that is in ARAM. -/
def Starts (wii : Bool) (v : ℕ) (e : Event) (s : Snd) : Prop :=
  wii = true ∧ atWork s v = true ∧ fillsFirst e s = true ∨ e = .arq v ∧ atWork s v = false

def Kept (wii : Bool) (e : Event) (s s' : Snd) (v : ℕ) : Prop :=
  settingsOf s' v = settingsOf s v ∨ EndsOnce v s ∧ settingsOf s' v = stopped (settingsOf s v) ∨
    Starts wii v e s ∧ settingsOf s' v = started (settingsOf s v)

section Handlers

variable {wii : Bool} {block : ℕ → BitVec 32} {s : Snd} {e : Event} {i : ℕ}

theorem nextVoice_used {j : ℕ} (h : nextVoice s j < maxVoices) :
    j ≤ nextVoice s j ∧ (s.table (nextVoice s j)).flags.used = true := by
  unfold nextVoice at h ⊢
  generalize hf : (range maxVoices).find? (fun k => decide (j ≤ k) && (s.table k).flags.used &&
    !(s.table k).flags.stopped) = f at h
  cases f with
  | none => exact absurd h (Nat.lt_irrefl _)
  | some k =>
    have hk := find?_some hf
    simp only [Bool.and_eq_true, decide_eq_true_eq] at hk
    exact hk.1

end Handlers

/-! What a call does to the settings. -/

section Calls

variable {s : Snd} {a : Api} {i j : ℕ}

end Calls

/-! Whole runs. -/

def Ok (e : Event) (s : Snd) : Prop := Possible e s ∧ Orderly e s

/-- How settings may change without a call: the voice is stopped at the end of
what it plays once, and it starts to run unless it was stopped or free. -/
def Later (x y : Pb) : Prop :=
  y = x ∨ y = stopped x ∨ playing x = true ∧ (y = started x ∨ y = stopped (started x))

section Runs

variable {wii : Bool} {block : ℕ → BitVec 32} {s : Snd} {e : Event} {v : ℕ}

theorem starts_playing (hok : Orderly e s) (h : Starts wii v e s) :
    playing (settingsOf s v) = true := by
  unfold settingsOf
  rcases h with ⟨-,hw,hfirst⟩ | ⟨rfl,hw⟩
  · rw [hw]
    cases e with
    | request d => exact hok hfirst
    | ret => exact hok.2 hfirst
    | _ => exact absurd hfirst Bool.false_ne_true
  · rw [hw]
    exact (hok hw).1

theorem Later.kept {x : Pb} {s' : Snd} (h : Later x (settingsOf s v)) (hok : Orderly e s)
    (hk : Kept wii e s s' v) : Later x (settingsOf s' v) := by
  rcases hk with hk | ⟨-,hk⟩ | ⟨hstart,hk⟩
  · rwa [hk]
  · rw [hk]
    rcases h with h | h | ⟨hp,h | h⟩ <;> rw [h]
    · exact .inr (.inl rfl)
    · exact .inr (.inl rfl)
    · exact .inr (.inr ⟨hp,.inr rfl⟩)
    · exact .inr (.inr ⟨hp,.inr rfl⟩)
  · have hplay := starts_playing hok hstart
    rw [hk]
    rcases h with h | h | ⟨hp,h | h⟩ <;> rw [h] at hplay ⊢
    · exact .inr (.inr ⟨hplay,.inl rfl⟩)
    · simp [playing, stopped] at hplay
    · exact .inr (.inr ⟨hp,.inl rfl⟩)
    · exact .inr (.inr ⟨hp,.inr rfl⟩)

theorem init_inv : Inv sndInit := ⟨fun _ => ⟨rfl,rfl,rfl⟩,nofun,nofun⟩

end Runs

instance (e : Event) (s : Snd) : Decidable (Possible e s) :=
  match e with
  | .api (.set (.voice _) _) => inferInstanceAs (Decidable (_ < _))
  | .api (.set .command _) => instDecidableTrue
  | .api (.allocate _ _) => instDecidableTrue
  | .pause _ => instDecidableTrue
  | .dma => inferInstanceAs (Decidable (_ = _))
  | .request _ => inferInstanceAs (Decidable (_ ∧ _))
  | .ret => inferInstanceAs (Decidable (_ ≠ _))
  | .arq _ => inferInstanceAs (Decidable (_ < _))

instance (e : Event) (s : Snd) : Decidable (Orderly e s) :=
  match e with
  | .api (.set (.voice _) _) => inferInstanceAs (Decidable (_ = _))
  | .api (.set .command _) => inferInstanceAs (Decidable (_ ≠ _))
  | .api (.allocate _ _) => instDecidableTrue
  | .pause _ => instDecidableTrue
  | .dma => instDecidableTrue
  | .request _ => inferInstanceAs (Decidable (_ → _))
  | .ret => inferInstanceAs (Decidable ((_ → _ → _) ∧ (_ → _)))
  | .arq _ => inferInstanceAs (Decidable (_ → _ ∧ _))

end Libogc.VoiceSettings
