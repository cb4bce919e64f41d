import Libogc.Library.ByteStore
import Mathlib.Algebra.GroupWithZero.Nat
import Mathlib.Data.Fin.Basic

/-!
# The serial interface

The transfers of `si.c`. A packet is started by `SI_Transfer`, by its alarm or
when the transfer before it is complete. Each function runs with the interrupts
disabled. An entry of `sipacket` whose `chan` is -1 is `none`, and so is
`sicntrl.chan`. The buffer of the interface is kept as bytes, of which a
register has four, and times are counts of ticks that do not go round. What
`si.c` keeps about the type of a device only decides whether it starts a
transfer of its own, and is left out.
-/

set_option autoImplicit false

namespace Libogc.Serial
open ByteStore List Nat

scoped instance fourChannels : NeZero 4 := ⟨by decide⟩

structure Xfer where
  chan : Fin 4
  out : ℕ
  outLen : ℕ
  inBuf : ℕ
  inLen : ℕ
  cb : ℕ
  deriving DecidableEq, Repr

structure SiPacket where
  out : ℕ
  outBytes : ℕ
  inBuf : ℕ
  inBytes : ℕ
  callback : ℕ
  fire : ℕ
  deriving DecidableEq, Repr

structure SiCntrl where
  chan : Option (Fin 4)
  inBytes : ℕ
  inBuf : ℕ
  callback : Option ℕ
  deriving DecidableEq, Repr

/-- The fields of `SICOMCSR` that `__si_transfer` writes. -/
structure SiComCsr where
  tcintmsk : Bool
  outlen : ℕ
  inlen : ℕ
  channel : Fin 4
  tstart : Bool
  deriving DecidableEq, Repr

/-- `alarm` is the tick from which on the alarm of a channel can expire. -/
structure Si where
  packet : Fin 4 → Option SiPacket
  cntrl : SiCntrl
  xferTime : Fin 4 → ℕ
  alarm : Fin 4 → Option ℕ
  csr : SiComCsr
  regs : Bytes
  mem : Bytes

def siInit (mem : Bytes) : Si where
  packet _ := none
  cntrl := ⟨none,0,0,none⟩
  xferTime _ := 0
  alarm _ := none
  csr := ⟨false,0,0,0,false⟩
  regs _ := 0
  mem := mem

/-! Ticks and nanoseconds. -/

/-- `PPC_TIMER_CLOCK` and 1000000000 divided by what they have in common. -/
def tickRatio (wii : Bool) : ℕ × ℕ := if wii then (243, 4000) else (81, 2000)

def ppcNsToTicks (wii : Bool) (ns : ℕ) : ℕ :=
  ns*(tickRatio wii).1 % 18446744073709551616/(tickRatio wii).2

def ppcTicksToNs (wii : Bool) (ticks : ℕ) : ℕ :=
  ticks*(tickRatio wii).2 % 18446744073709551616/(tickRatio wii).1

def ppcUsToTicks (wii : Bool) (us : ℕ) : ℕ := if wii then us*243/4 else us*81/2

/-- `tv_nsec` has 32 bits and a sign. -/
def timespecToTicks (wii : Bool) (nsec : ℕ) : ℕ :=
  ppcNsToTicks wii ((BitVec.ofNat 32 nsec).signExtend 64).toNat

/-! Transfers. -/

def outField (len : ℕ) : ℕ := (if len = 128 then 0 else len) &&& 0x7f

def siStarted (x : Xfer) (s : Si) : Si :=
  { s with
    cntrl := ⟨some x.chan,x.inLen,x.inBuf,some x.cb⟩
    regs := blit s.mem x.out 0 ((x.outLen+3)/4*4) s.regs
    csr := ⟨true,outField x.outLen,outField x.inLen,x.chan,true⟩ }

/-- `__si_transfer`: whether the transfer has been started. -/
def siStart (x : Xfer) (s : Si) : Bool × Si :=
  if s.cntrl.chan ≠ none then (false, s) else (true, siStarted x s)

def SiPacket.xfer (c : Fin 4) (p : SiPacket) : Xfer :=
  ⟨c,p.out,p.outBytes,p.inBuf,p.inBytes,p.callback⟩

def setPacket (c : Fin 4) (p : Option SiPacket) (s : Si) : Si :=
  { s with packet := Function.update s.packet c p }

def setAlarm (c : Fin 4) (a : Option ℕ) (s : Si) : Si :=
  { s with alarm := Function.update s.alarm c a }

/-- `__si_alarmhandler`, which is called when the alarm has been taken out. -/
def siAlarmhandler (c : Fin 4) (s : Si) : Si :=
  match s.packet c with
  | none => s
  | some p =>
    match siStart (p.xfer c) s with
    | (true, s) => setPacket c none s
    | (false, s) => s

def copyWords (o : ℕ) (regs : Bytes) : ℕ → Bytes → Bytes
  | 0, mem => mem
  | n+1, mem => setWord (o+n*4) (word regs (n*4)) (copyWords o regs n mem)

def copyRest (o val : ℕ) : ℕ → Bytes → Bytes
  | 0, mem => mem
  | n+1, mem => setByte (o+n) (UInt8.ofNat (val >>> ((3-n)*8))) (copyRest o val n mem)

def copyIn (o n : ℕ) (regs mem : Bytes) : Bytes :=
  let mem := copyWords o regs (n/4) mem
  if n % 4 ≠ 0 then copyRest (o+n/4*4) (word regs (n/4*4)) (n % 4) mem else mem

def sisrCollision : ℕ := 0x0004

def siResult (c : Fin 4) (sisr : ℕ) (comerr : Bool) : ℕ :=
  if comerr then
    let e := (sisr >>> ((3-c.val)*8)) &&& 0x0f
    if e = 0 then sisrCollision else e
  else 0

/-- `__si_completetransfer`, where the device has left its response in the
buffer of the interface. -/
def siCompletetransfer (time : ℕ) (c : Fin 4) (s : Si) : Si :=
  { s with
    xferTime := Function.update s.xferTime c time
    mem := copyIn s.cntrl.inBuf s.cntrl.inBytes s.regs s.mem
    csr := { s.csr with tstart := false }
    cntrl := { s.cntrl with chan := none } }

/-- `__si_transfernext`, with the ticks at which it looks at the channels. -/
def siTransfernext : List (Fin 4 × ℕ) → Si → Si
  | [], s => s
  | (c, now)::rest, s =>
    match s.packet c with
    | none => siTransfernext rest s
    | some p =>
      if p.fire ≤ now then
        match siStart (p.xfer c) s with
        | (false, s) => s
        | (true, s) => siTransfernext rest (setPacket c none (setAlarm c none s))
      else siTransfernext rest s

def after (c : Fin 4) : List (Fin 4) := [c+1, c+2, c+3, c]

/-- `__si_interrupthandler` for a complete transfer, up to the callback, which
it returns with its arguments. -/
def siComplete (time : ℕ) (nows : List ℕ) (resp : Bytes) (sisr : ℕ) (comerr : Bool) (s : Si) :
    Option (ℕ × Fin 4 × ℕ) × Si :=
  match s.cntrl.chan with
  | none => (none, s)
  | some c =>
    let s := { s with regs := resp }
    let cb := s.cntrl.callback
    let s := { s with cntrl := { s.cntrl with callback := none } }
    (cb.map (fun cb => (cb, c, siResult c sisr comerr)),
      siTransfernext ((after c).zip nows) (siCompletetransfer time c s))

def fireTime (wii : Bool) (c : Fin 4) (usDelay now : ℕ) (s : Si) : ℕ :=
  if usDelay ≠ 0 then s.xferTime c+ppcUsToTicks wii usDelay else now

def busyChan (c : Fin 4) (s : Si) : Bool := (s.packet c).isSome || decide (s.cntrl.chan = some c)

def pend (x : Xfer) (fire : ℕ) (s : Si) : Si :=
  setPacket x.chan (some ⟨x.out,x.outLen,x.inBuf,x.inLen,x.cb,fire⟩) s

/-- `SI_Transfer` at the tick `now`; if it sets an alarm, then at `set`. -/
def siTransfer (wii : Bool) (x : Xfer) (usDelay now set : ℕ) (s : Si) : Bool × Si :=
  if busyChan x.chan s then (false, s)
  else
    let fire := fireTime wii x.chan usDelay now s
    if now < fire then
      (true, pend x fire
        (setAlarm x.chan (some (set+timespecToTicks wii (ppcTicksToNs wii (fire-now)))) s))
    else
      match siStart x s with
      | (true, s) => (true, s)
      | (false, s) => (true, pend x fire s)

/-! The copy of a response. -/

section Copy

variable {regs mem : Bytes}

theorem byte_word (b : Bytes) (a : ℕ) {n : ℕ} (h : n < 4) :
    UInt8.ofNat (word b a >>> ((3-n)*8)) = b (a+n) := by
  have h0 := (b a).toNat_lt
  have h1 := (b (a+1)).toNat_lt
  have h2 := (b (a+2)).toNat_lt
  have h3 := (b (a+3)).toNat_lt
  have hw : word b a = (b a).toNat*16777216+(b (a+1)).toNat*65536+(b (a+2)).toNat*256+
      (b (a+3)).toNat := by
    unfold word half
    rw [show a+2+1 = a+3 from rfl]
    omega
  apply UInt8.toNat_inj.mp
  rw [UInt8.toNat_ofNat', shiftRight_eq_div_pow]
  match n, h with
  | 0, _ =>
    change _ / 16777216 % 256 = (b a).toNat
    omega
  | 1, _ =>
    omega
  | 2, _ =>
    omega
  | 3, _ =>
    change _ / 1 % 256 = _
    omega

theorem copyRest_blit (o a : ℕ) {n : ℕ} (h : n ≤ 4) :
    copyRest o (word regs a) n mem = blit regs a o n mem := by
  induction n with
  | zero =>
    funext i
    exact (blit_out (by omega)).symm
  | succ n ih =>
    rw [copyRest, ih (by omega), byte_word regs a (by omega)]
    funext i
    by_cases hi : i = o+n
    · subst hi
      rw [setByte_same, blit_in (by omega), Nat.add_sub_cancel_left]
    · rw [setByte_ne _ hi]
      by_cases hin : o ≤ i ∧ i < o+n
      · rw [blit_in hin, blit_in (by omega)]
      · rw [blit_out (by omega), blit_out (by omega)]

theorem setWord_word (a o : ℕ) : setWord o (word regs a) mem = blit regs a o 4 mem := by
  have hhigh : word regs a/65536/256 = word regs a >>> 24 := by
    rw [Nat.div_div_eq_div_mul, shiftRight_eq_div_pow]
  have h16 : word regs a/65536 = word regs a >>> 16 := (shiftRight_eq_div_pow _ 16).symm
  have h8 : word regs a/256 = word regs a >>> 8 := (shiftRight_eq_div_pow _ 8).symm
  rw [← copyRest_blit o a (le_refl 4)]
  unfold setWord setHalf
  rw [hhigh, h16, h8]
  rfl

theorem copyWords_blit (o n : ℕ) : copyWords o regs n mem = blit regs 0 o (n*4) mem := by
  induction n with
  | zero =>
    funext i
    exact (blit_out (by omega)).symm
  | succ n ih =>
    rw [copyWords, ih, setWord_word, Nat.add_mul]
    have h := blit_append (b := mem) regs 0 o (n*4) 4
    rwa [Nat.zero_add] at h

theorem copyIn_blit (o n : ℕ) : copyIn o n regs mem = blit regs 0 o n mem := by
  unfold copyIn
  rw [copyWords_blit]
  split
  · rw [copyRest_blit _ _ (by omega)]
    have h := blit_append (b := mem) regs 0 o (n/4*4) (n % 4)
    rwa [Nat.zero_add, show n/4*4+n % 4 = n by omega] at h
  · rw [show n/4*4 = n by omega]

end Copy

/-! What the functions do. -/

section Effects

variable {s : Si} {c : Fin 4} {x : Xfer} {p : SiPacket}

theorem start_free (h : s.cntrl.chan = none) (x : Xfer) : siStart x s = (true, siStarted x s) :=
  if_neg (by simp [h])

theorem start_busy (h : s.cntrl.chan ≠ none) (x : Xfer) : siStart x s = (false, s) := if_pos h

def startPacket (c : Fin 4) (p : SiPacket) (s : Si) : Si :=
  setPacket c none (siStarted (p.xfer c) s)

theorem alarmhandler_cases (c : Fin 4) (s : Si) :
    ((s.packet c = none ∨ s.cntrl.chan ≠ none) ∧ siAlarmhandler c s = s) ∨
      ∃ p, s.packet c = some p ∧ s.cntrl.chan = none ∧ siAlarmhandler c s = startPacket c p s := by
  unfold siAlarmhandler
  cases hp : s.packet c with
  | none => exact .inl ⟨.inl rfl,rfl⟩
  | some p =>
    by_cases hb : s.cntrl.chan = none
    · right
      refine ⟨p,rfl,hb,?_⟩
      dsimp only
      rw [start_free hb]
      rfl
    · left
      refine ⟨.inr hb,?_⟩
      dsimp only
      rw [start_busy hb]

theorem transfernext_busy (l : List (Fin 4 × ℕ)) (h : s.cntrl.chan ≠ none) :
    siTransfernext l s = s := by
  induction l with
  | nil => rfl
  | cons e l ih =>
    rw [siTransfernext]
    split
    · exact ih
    split
    · rw [start_busy h]
    · exact ih

theorem transfernext_cases (l : List (Fin 4 × ℕ)) (h : s.cntrl.chan = none) :
    ((∀ e ∈ l, ∀ p, s.packet e.1 = some p → e.2 < p.fire) ∧ siTransfernext l s = s) ∨
      ∃ e ∈ l, ∃ p, s.packet e.1 = some p ∧ p.fire ≤ e.2 ∧
        siTransfernext l s = startPacket e.1 p (setAlarm e.1 none s) := by
  induction l with
  | nil => exact .inl ⟨fun _ he => absurd he not_mem_nil,rfl⟩
  | cons e l ih =>
    obtain ⟨c,now⟩ := e
    have hskip : (∀ p, s.packet c = some p → now < p.fire) →
        siTransfernext ((c, now)::l) s = siTransfernext l s →
        ((∀ e ∈ (c, now)::l, ∀ p, s.packet e.1 = some p → e.2 < p.fire) ∧
          siTransfernext ((c, now)::l) s = s) ∨ ∃ e ∈ (c, now)::l, ∃ p, s.packet e.1 = some p ∧
            p.fire ≤ e.2 ∧ siTransfernext ((c, now)::l) s =
              startPacket e.1 p (setAlarm e.1 none s) := by
      intro hlate heq
      rw [heq]
      rcases ih with ⟨hl,hs⟩ | ⟨e,he,hp⟩
      · left
        refine ⟨fun e he => ?_,hs⟩
        rcases mem_cons.mp he with rfl | he
        · exact hlate
        · exact hl e he
      · exact .inr ⟨e,mem_cons_of_mem _ he,hp⟩
    cases hp : s.packet c with
    | none => exact hskip (by simp [hp]) (by rw [siTransfernext, hp])
    | some p =>
      by_cases hf : p.fire ≤ now
      · right
        refine ⟨(c, now),mem_cons_self,p,hp,hf,?_⟩
        rw [siTransfernext, hp]
        dsimp only
        rw [if_pos hf, start_free h]
        exact transfernext_busy l (by simp [setPacket, setAlarm, siStarted])
      · refine hskip (fun q hq => ?_) ?_
        · obtain rfl := Option.mem_unique hp hq
          omega
        · rw [siTransfernext, hp]
          dsimp only
          rw [if_neg hf]

theorem transfer_cases (wii : Bool) (x : Xfer) (usDelay now set : ℕ) (s : Si) :
    (busyChan x.chan s = true ∧ siTransfer wii x usDelay now set s = (false, s)) ∨
    (busyChan x.chan s = false ∧
      ((∃ e, siTransfer wii x usDelay now set s =
          (true, pend x (fireTime wii x.chan usDelay now s) (setAlarm x.chan (some e) s))) ∨
        (s.cntrl.chan = none ∧ siTransfer wii x usDelay now set s = (true, siStarted x s)) ∨
        (s.cntrl.chan ≠ none ∧ fireTime wii x.chan usDelay now s ≤ now ∧
          siTransfer wii x usDelay now set s =
            (true, pend x (fireTime wii x.chan usDelay now s) s)))) := by
  unfold siTransfer
  by_cases hb : busyChan x.chan s = true
  · exact .inl ⟨hb,if_pos hb⟩
  · right
    rw [if_neg hb]
    refine ⟨Bool.eq_false_iff.mpr hb,?_⟩
    by_cases hlt : now < fireTime wii x.chan usDelay now s
    · rw [if_pos hlt]
      exact .inl ⟨_,rfl⟩
    · rw [if_neg hlt]
      right
      by_cases hc : s.cntrl.chan = none
      · rw [start_free hc]
        exact .inl ⟨hc,rfl⟩
      · rw [start_busy hc]
        exact .inr ⟨hc,by omega,rfl⟩

end Effects

end Libogc.Serial
