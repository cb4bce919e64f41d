import Mathlib.Data.Nat.Notation
import Mathlib.Logic.Function.Basic

/-!
# Voices

The voice table of `aesndlib.c` and the command block in which the DSP works on
one voice after the other. A handler runs up to a callback, and what follows
the callback is run when it returns, so what a callback does is a sequence of
calls in between. The ratio of a frequency is computed in floating point and
supplied. What a handler copies is returned as a list of fills.
-/

set_option autoImplicit false

namespace Libogc.Voice

def maxVoices : ℕ := 32

def streamSize : BitVec 32 := 1152

structure Flags where
  format : BitVec 3
  pause : Bool
  loop : Bool
  once : Bool
  stream : Bool
  finished : Bool
  stopped : Bool
  running : Bool
  used : Bool
  deriving DecidableEq, Repr

/-- `struct aesndpb_t`, without what only the command block has. -/
structure Pb where
  bufStart : BitVec 32
  bufEnd : BitVec 32
  bufCurr : BitVec 32
  yn1 : BitVec 16
  yn2 : BitVec 16
  pds : BitVec 16
  freqH : BitVec 16
  freqL : BitVec 16
  counter : BitVec 16
  left : BitVec 16
  right : BitVec 16
  volumeL : BitVec 16
  volumeR : BitVec 16
  delay : BitVec 32
  flags : Flags
  mramStart : BitVec 32
  mramCurr : BitVec 32
  mramEnd : BitVec 32
  streamLast : BitVec 32
  voiceno : ℕ
  shift : ℕ
  cb : Option ℕ
  cbArg : ℕ
  deriving DecidableEq, Repr

def noFlags : Flags := ⟨0,false,false,false,false,false,false,false,false⟩

def zeroPb : Pb := ⟨0,0,0,0,0,0,0,0,0,0,0,0,0,0,noFlags,0,0,0,0,0,0,none,0⟩

/-! The calls on one block. -/

def setVoiceFormat (format : BitVec 32) (pb : Pb) : Pb :=
  { pb with
    flags := { pb.flags with format := format.setWidth 3 }
    shift := if format.getLsbD 1 then 1 else 0 }

def setVoiceBuffer (buffer len : BitVec 32) (pb : Pb) : Pb :=
  { pb with mramStart := buffer, mramCurr := buffer, mramEnd := buffer+len }

def setVoiceFreq (ratio : BitVec 32) (pb : Pb) : Pb :=
  { pb with freqH := (ratio >>> 16).setWidth 16, freqL := ratio.setWidth 16 }

inductive Setting where
  | play (format buffer len ratio delay : BitVec 32) (looped : Bool)
  | buffer (buffer len : BitVec 32)
  | format (format : BitVec 32)
  | volume (volumeL volumeR : BitVec 16)
  | frequency (ratio : BitVec 32)
  | stream (stream : Bool)
  | loop (loop : Bool)
  | mute (mute : Bool)
  | stop (stop : Bool)
  | callback (cb : Option ℕ) (cbArg : ℕ)
  | delay (delay : BitVec 32)
  | free
  deriving DecidableEq, Repr

def playVoice (format buffer len ratio delay : BitVec 32) (looped : Bool) (pb : Pb) : Pb :=
  let pb := setVoiceBuffer buffer len (setVoiceFreq ratio (setVoiceFormat format pb))
  { pb with
    flags := { pb.flags with running := false, stopped := false, loop := looped, once := !looped }
    bufStart := 0
    bufCurr := 0
    bufEnd := 0
    streamLast := 0
    delay := delay*48
    pds := 0
    yn1 := 0
    yn2 := 0
    counter := 0 }

def apply : Setting → Pb → Pb
  | .play format buffer len ratio delay looped, pb =>
    playVoice format buffer len ratio delay looped pb
  | .buffer buffer len, pb => setVoiceBuffer buffer len pb
  | .format format, pb => setVoiceFormat format pb
  | .volume l r, pb => { pb with volumeL := l, volumeR := r }
  | .frequency ratio, pb => setVoiceFreq ratio pb
  | .stream stream, pb => { pb with flags := { pb.flags with stream := stream } }
  | .loop loop, pb => { pb with flags := { pb.flags with loop := loop } }
  | .mute mute, pb => { pb with flags := { pb.flags with pause := mute } }
  | .stop stop, pb => { pb with flags := { pb.flags with stopped := stop } }
  | .callback cb cbArg, pb => { pb with cb := cb, cbArg := cbArg }
  | .delay delay, pb => { pb with delay := delay*48 }
  | .free, _ => zeroPb

def allocated (i : ℕ) (cb : Option ℕ) (cbArg : ℕ) (pb : Pb) : Pb :=
  { pb with
    voiceno := i
    flags := { noFlags with used := true, stopped := true }
    pds := 0
    yn1 := 0
    yn2 := 0
    bufStart := 0
    bufCurr := 0
    bufEnd := 0
    counter := 0
    volumeL := 0x100
    volumeR := 0x100
    freqH := 1
    freqL := 0
    cb := cb
    cbArg := cbArg }

/-! The state. -/

inductive Phase where
  | outside
  | streamCb
  | stoppedCb
  | runningCb
  deriving DecidableEq, Repr

inductive DspMail where
  | process
  | samples
  deriving DecidableEq, Repr

/-- `dsp` is the copy that the DSP works on. -/
structure Snd where
  table : ℕ → Pb
  command : Pb
  dsp : Pb
  currvoice : ℕ
  dspcomplete : Bool
  abrequested : Bool
  globalpause : Bool
  phase : Phase
  mail : Option DspMail

/-- The state after `AESND_Init`, once the DSP task has started. -/
def sndInit : Snd := ⟨fun _ => zeroPb,zeroPb,zeroPb,0,true,false,false,.outside,none⟩

def setVoice (i : ℕ) (pb : Pb) (s : Snd) : Snd := { s with table := Function.update s.table i pb }

/-- A caller has the address of a voice, and a callback that of the command
block. -/
inductive Ptr where
  | voice (i : ℕ)
  | command
  deriving DecidableEq, Repr

def setAt (p : Ptr) (c : Setting) (s : Snd) : Snd :=
  match p with
  | .voice i => setVoice i (apply c (s.table i)) s
  | .command => { s with command := apply c s.command }

def freeVoice (s : Snd) : Option ℕ :=
  (List.range maxVoices).find? (fun i => !(s.table i).flags.used)

def allocateVoice (cb : Option ℕ) (cbArg : ℕ) (s : Snd) : Snd :=
  match freeVoice s with
  | none => s
  | some i => setVoice i (allocated i cb cbArg (s.table i)) s

/-! The requests of the DSP. -/

/-- Bytes that go to the stream buffer of a voice: `copyLen` from the source
and zeros up to `size`. -/
structure Fill where
  voiceno : ℕ
  dest : BitVec 32
  src : BitVec 32
  copyLen : BitVec 32
  size : BitVec 32
  notify : Bool
  deriving DecidableEq, Repr

section Handler

variable (wii : Bool) (block : ℕ → BitVec 32)

def copyLen (size : BitVec 32) (pb : Pb) : BitVec 32 :=
  let n := pb.mramEnd-pb.mramCurr
  if size < n then size else n

def fillBuffer (upper : Bool) (pb : Pb) : Fill × Pb :=
  let dest := if upper then block pb.voiceno+streamSize else block pb.voiceno
  let n := copyLen streamSize pb
  (⟨pb.voiceno,dest,pb.mramCurr,n,streamSize,false⟩, { pb with mramCurr := pb.mramCurr+n })

def half (pb : Pb) : BitVec 32 := pb.bufStart+(streamSize >>> pb.shift)

def fillIf (c upper : Bool) (pb : Pb) : List Fill × Pb :=
  if c then ([(fillBuffer block upper pb).1], (fillBuffer block upper pb).2) else ([], pb)

def refill (pb : Pb) : List Fill × Pb :=
  let curr := pb.bufCurr
  let a := fillIf block (decide (curr < pb.streamLast)) true pb
  let b := fillIf block (decide (half a.2 ≤ curr ∧ a.2.streamLast < half a.2)) false a.2
  (a.1 ++ b.1, { b.2 with streamLast := curr })

/-- On the Wii the voice runs at once, on the GameCube when the transfer to
ARAM is complete. -/
def firstFill (pb : Pb) : List Fill × Pb :=
  let addr := block pb.voiceno
  let n := copyLen (streamSize*2) pb
  ([⟨pb.voiceno,addr,pb.mramCurr,n,streamSize*2,true⟩],
    { pb with
      bufStart := addr >>> pb.shift
      bufEnd := (addr+streamSize*2-(1 <<< pb.shift)) >>> pb.shift
      bufCurr := addr >>> pb.shift
      mramCurr := pb.mramCurr+n
      flags := { pb.flags with running := pb.flags.running || wii } })

def fills (pb : Pb) : List Fill × Pb :=
  if pb.bufStart ≠ 0 then refill block pb else firstFill wii block pb

/-- `__aesndhandlerequest` after the stream callback. -/
def handleRequest (ended : Bool) (pb : Pb) : List Fill × Pb :=
  if ended && pb.flags.once then
    ([], { pb with
      bufStart := if wii then 0 else pb.bufStart
      flags := { pb.flags with stopped := true } })
  else if ended && pb.flags.loop then fills wii block { pb with mramCurr := pb.mramStart }
  else fills wii block pb

def nextVoice (s : Snd) (i : ℕ) : ℕ :=
  ((List.range maxVoices).find? (fun j => decide (i ≤ j) && (s.table j).flags.used &&
    !(s.table j).flags.stopped)).getD maxVoices

def sendProcess (s : Snd) : Snd :=
  { s with dsp := s.command, phase := .outside, mail := some .process }

def takeUp (i : ℕ) (s : Snd) : Snd :=
  let s := { s with command := s.table i, currvoice := i }
  if s.command.cb.isSome then { s with phase := .runningCb } else sendProcess s

def copyBack (s : Snd) : Snd :=
  let s := setVoice s.currvoice s.command s
  let i := nextVoice s (s.currvoice+1)
  if i < maxVoices then takeUp i s
  else { s with currvoice := i, abrequested := true, phase := .outside, mail := some .samples }

def afterStream (ended : Bool) (s : Snd) : List Fill × Snd :=
  let f := handleRequest wii block ended s.command
  let s := { s with command := f.2 }
  (f.1, if s.command.flags.stopped && s.command.cb.isSome then { s with phase := .stoppedCb }
    else copyBack s)

structure DspWrite where
  bufCurr : BitVec 32
  yn1 : BitVec 16
  yn2 : BitVec 16
  pds : BitVec 16
  counter : BitVec 16
  left : BitVec 16
  right : BitVec 16
  delay : BitVec 32
  deriving DecidableEq, Repr

/-- The DSP writes its copy back, which is the first half of the block. -/
def written (d : DspWrite) (dsp pb : Pb) : Pb :=
  { dsp with
    bufCurr := d.bufCurr
    yn1 := d.yn1
    yn2 := d.yn2
    pds := d.pds
    counter := d.counter
    left := d.left
    right := d.right
    delay := d.delay
    flags := { dsp.flags with finished := true }
    mramStart := pb.mramStart
    mramCurr := pb.mramCurr
    mramEnd := pb.mramEnd
    streamLast := pb.streamLast
    voiceno := pb.voiceno
    shift := pb.shift
    cb := pb.cb
    cbArg := pb.cbArg }

def unfinished (pb : Pb) : Pb := { pb with flags := { pb.flags with finished := false } }

def sourceEnded (pb : Pb) : Bool := decide (pb.mramEnd ≤ pb.mramCurr)

/-- `__dsp_requestcallback`, up to a callback. The DSP has set VOICE_FINISHED
if it was to process a voice. -/
def requestCallback (d : DspWrite) (s : Snd) : List Fill × Snd :=
  if s.abrequested then ([], { s with abrequested := false, dspcomplete := true, mail := none })
  else
    let pb := unfinished (written d s.dsp s.command)
    let s := { s with command := pb, mail := none }
    if sourceEnded pb && pb.flags.stream && pb.cb.isSome then ([], { s with phase := .streamCb })
    else afterStream wii block (sourceEnded pb) s

def callbackReturns (s : Snd) : List Fill × Snd :=
  match s.phase with
  | .outside => ([], s)
  | .streamCb => afterStream wii block true s
  | .stoppedCb => ([], copyBack s)
  | .runningCb => ([], sendProcess s)

end Handler

def audioDmaCallback (s : Snd) : Snd :=
  if s.globalpause || !s.dspcomplete then s
  else
    let i := nextVoice s 0
    if i < maxVoices then takeUp i { s with dspcomplete := false } else { s with currvoice := i }

def arqCallback (i : ℕ) (s : Snd) : Snd :=
  setVoice i { s.table i with flags := { (s.table i).flags with running := true } } s

end Libogc.Voice
