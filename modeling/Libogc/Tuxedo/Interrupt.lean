import Mathlib.Data.Nat.Notation

/-!
# Interrupt masks

`interrupt.c` scatters one 32-bit mask over the enable bits of five kinds of
device registers and finds the source of an interrupt by a decoder with bit
numbers of its own. A status bit of a device register is cleared by writing
one to it, so a register is kept as its control bits and its status bits. The
build is for the GameCube or for the Wii, which has one source more.
-/

set_option autoImplicit false

namespace Libogc.Interrupt

inductive KIrqId where
  | piError
  | piDebug
  | mem0
  | mem1
  | mem2
  | mem3
  | memAddress
  | piRsw
  | piVi
  | piPeToken
  | piPeFinish
  | piHsp
  | dspAram
  | dspDsp
  | ai
  | exi0Exi
  | exi0Tc
  | exi0Ext
  | exi1Exi
  | exi1Tc
  | exi1Ext
  | exi2Exi
  | exi2Tc
  | piSi
  | piDi
  | dspAi
  | piCp
  | piAcr
  deriving DecidableEq, Repr

def KIrqId.num (id : KIrqId) : ℕ := id.ctorIdx

def irqs (wii : Bool) : List KIrqId :=
  [KIrqId.piError, .piDebug] ++ ([KIrqId.mem0, .mem1, .mem2, .mem3, .memAddress] ++
    ([KIrqId.piRsw, .piVi, .piPeToken, .piPeFinish, .piHsp] ++ ([KIrqId.dspAram, .dspDsp] ++
      ([KIrqId.ai] ++ ([KIrqId.exi0Exi, .exi0Tc, .exi0Ext] ++
        ([KIrqId.exi1Exi, .exi1Tc, .exi1Ext] ++ ([KIrqId.exi2Exi, .exi2Tc] ++
          ([KIrqId.piSi, .piDi] ++ ([KIrqId.dspAi] ++ ([KIrqId.piCp] ++
            if wii then [KIrqId.piAcr] else []))))))))))

/-! Masks. -/

def ppcBit (n : ℕ) : BitVec 32 := 0x80000000#32 >>> n

def irqMask (id : KIrqId) : BitVec 32 := ppcBit id.num

def masks (l : List KIrqId) : BitVec 32 := l.foldr (fun id m => irqMask id ||| m) 0

def memLines : List KIrqId := [.mem0, .mem1, .mem2, .mem3, .memAddress]

def imMem : BitVec 32 := masks memLines

def imDsp : BitVec 32 := masks [.dspAi, .dspAram, .dspDsp]

def imAi : BitVec 32 := masks [.ai]

def imExi0 : BitVec 32 := masks [.exi0Exi, .exi0Tc, .exi0Ext]

def imExi1 : BitVec 32 := masks [.exi1Exi, .exi1Tc, .exi1Ext]

def imExi2 : BitVec 32 := masks [.exi2Exi, .exi2Tc]

def imPi (wii : Bool) : BitVec 32 :=
  masks ([.piCp, .piPeToken, .piPeFinish, .piSi, .piDi, .piRsw, .piError, .piVi, .piDebug,
    .piHsp] ++
    if wii then [.piAcr] else [])

/-! Registers. -/

structure DevReg (w : ℕ) where
  ctl : BitVec w
  sts : BitVec w
  deriving DecidableEq, Repr

/-- The status bits of the device are those of the mask. -/
def DevReg.read {w : ℕ} (status : BitVec w) (r : DevReg w) : BitVec w :=
  (r.ctl &&& ~~~status) ||| (r.sts &&& status)

/-- Writing one to a status bit clears it. -/
def DevReg.write {w : ℕ} (v : BitVec w) (r : DevReg w) : DevReg w := ⟨v,r.sts &&& ~~~v⟩

def dspStatus : BitVec 16 := 0xa8

def aiStatus : BitVec 32 := 0x8

def exiStatus : BitVec 32 := 0x80a

/-- `HWREG_PI[0]` and `[1]`, `HWREG_MI[14]` and `[15]`, `HWREG_DSP[5]`,
`HWREG_AI[0]`, and `HWREG_EXI[0]`, `[5]` and `[10]`. -/
structure Hw where
  pi0 : BitVec 32
  pi1 : BitVec 32
  mi14 : BitVec 16
  mi15 : BitVec 16
  dsp5 : DevReg 16
  ai0 : DevReg 32
  exi0 : DevReg 32
  exi5 : DevReg 32
  exi10 : DevReg 32
  deriving DecidableEq, Repr

def Hw.readDsp (hw : Hw) : BitVec 32 := (hw.dsp5.read dspStatus).setWidth 32

def Hw.readAi (hw : Hw) : BitVec 32 := hw.ai0.read aiStatus

def kIrqInit (hw : Hw) : Hw := { hw with
  pi1 := 0xf0
  mi14 := 0
  dsp5 := hw.dsp5.write ((hw.readDsp &&& ~~~0x1f8).setWidth 16)
  ai0 := hw.ai0.write (hw.readAi &&& ~~~0x2c)
  exi0 := hw.exi0.write (hw.exi0.read exiStatus &&& ~~~0x2c0f)
  exi5 := hw.exi5.write (hw.exi5.read exiStatus &&& ~~~0x0c0f)
  exi10 := hw.exi10.write (hw.exi10.read exiStatus &&& ~~~0x000f) }

/-! The encoders. -/

def encode (table : List (KIrqId × ℕ)) (mask : BitVec 32) : BitVec 32 :=
  table.foldr (fun e ret => if mask &&& irqMask e.1 ≠ 0 then ret ||| 1#32 <<< e.2 else ret) 0

def kIrqEncodeMem (mask : BitVec 32) : BitVec 32 := (mask >>> KIrqId.mem0.num) &&& 0x1f

def kIrqEncodeDsp : BitVec 32 → BitVec 32 := encode [(.dspAram, 6), (.dspDsp, 8), (.dspAi, 4)]

def kIrqEncodeAi : BitVec 32 → BitVec 32 := encode [(.ai, 2)]

def kIrqEncodeExi : BitVec 32 → BitVec 32 := encode [(.exi0Exi, 0), (.exi0Tc, 2), (.exi0Ext, 10)]

def kIrqEncodePi (wii : Bool) : BitVec 32 → BitVec 32 :=
  encode ([(.piError, 0), (.piDebug, 12), (.piRsw, 1), (.piVi, 8), (.piPeToken, 9),
    (.piPeFinish, 10), (.piHsp, 13), (.piSi, 3), (.piDi, 2), (.piCp, 11)] ++
      if wii then [(.piAcr, 14)] else [])

def adjust (clr set reg : BitVec 32) : BitVec 32 := (reg &&& ~~~clr) ||| set

def kIrqModify (wii : Bool) (clr set : BitVec 32) (hw : Hw) : Hw :=
  let mod := clr ^^^ set
  let clr := clr &&& mod
  let set := set &&& mod
  let exi2 (mask : BitVec 32) := kIrqEncodeExi ((mask <<< 6) &&& ~~~irqMask .exi0Ext)
  { hw with
    mi14 := if mod &&& imMem ≠ 0 then
        (adjust (kIrqEncodeMem clr) (kIrqEncodeMem set) (hw.mi14.setWidth 32)).setWidth 16
      else hw.mi14
    dsp5 := if mod &&& imDsp ≠ 0 then hw.dsp5.write
        ((adjust (kIrqEncodeDsp clr) (kIrqEncodeDsp set) (hw.readDsp &&& ~~~0xa8)).setWidth 16)
      else hw.dsp5
    ai0 := if mod &&& imAi ≠ 0 then hw.ai0.write
        (adjust (kIrqEncodeAi clr) (kIrqEncodeAi set) (hw.readAi &&& ~~~0x8))
      else hw.ai0
    exi0 := if mod &&& imExi0 ≠ 0 then hw.exi0.write
        (adjust (kIrqEncodeExi clr) (kIrqEncodeExi set) (hw.exi0.read exiStatus &&& ~~~0x280a))
      else hw.exi0
    exi5 := if mod &&& imExi1 ≠ 0 then hw.exi5.write
        (adjust (kIrqEncodeExi (clr <<< 3)) (kIrqEncodeExi (set <<< 3))
          (hw.exi5.read exiStatus &&& ~~~0x80a))
      else hw.exi5
    exi10 := if mod &&& imExi2 ≠ 0 then hw.exi10.write
        (adjust (exi2 clr) (exi2 set) (hw.exi10.read exiStatus &&& ~~~0xa))
      else hw.exi10
    pi1 := if mod &&& imPi wii ≠ 0 then adjust (kIrqEncodePi wii clr) (kIrqEncodePi wii set) hw.pi1
      else hw.pi1 }

def kIrqEnable (wii : Bool) (mask : BitVec 32) : Hw → Hw := kIrqModify wii 0 mask

def kIrqDisable (wii : Bool) (mask : BitVec 32) : Hw → Hw := kIrqModify wii mask 0

/-! The decoder. -/

def bitSet (m : BitVec 32) (b : ℕ) : Bool := decide (m &&& 1#32 <<< b ≠ 0)

def report (c : Bool) (id : KIrqId) : Option ℕ := if c then some id.num else none

def kIrqDecodeExiCause (exi : BitVec 32) : Option ℕ :=
  let cause := exi &&& exi <<< 1
  (report (bitSet cause 1) .exi0Exi).or <| (report (bitSet cause 3) .exi0Tc).or <|
    report (bitSet cause 11) .exi0Ext

/-- `__builtin_ffs`. -/
def ffs (m : BitVec 32) : ℕ := ((List.range 32).find? (fun i => m.getLsbD i)).elim 0 (· + 1)

def memCause (hw : Hw) : Option ℕ :=
  let mi := ((hw.mi14 &&& hw.mi15).setWidth 32) &&& 0x1f
  if mi ≠ 0 then some (ffs mi-1+KIrqId.mem0.num) else none

def piCause (hw : Hw) : BitVec 32 := hw.pi0 &&& hw.pi1

def dspCause (hw : Hw) : BitVec 32 := hw.readDsp &&& hw.readDsp >>> 1

def aiCause (hw : Hw) : BitVec 32 := hw.readAi &&& hw.readAi <<< 1

def exiCause (hw : Hw) : Option ℕ :=
  (kIrqDecodeExiCause (hw.exi0.read exiStatus)).or <|
  ((kIrqDecodeExiCause (hw.exi5.read exiStatus)).map
    (fun n => n+KIrqId.exi1Exi.num-KIrqId.exi0Exi.num)).or <|
  (kIrqDecodeExiCause (hw.exi10.read exiStatus &&& ~~~(1#32 <<< 11))).map
    (fun n => n+KIrqId.exi2Exi.num-KIrqId.exi0Exi.num)

def guarded (c : Bool) (r : Option ℕ) : Option ℕ := if c then r else none

/-- The end of `KIrqGetCause`, from the EXI channels on. -/
def laterCause (wii : Bool) (hw : Hw) : Option ℕ :=
  (guarded (bitSet (piCause hw) 4) (exiCause hw)).or <|
  (report (bitSet (piCause hw) 3) .piSi).or <|
  (report (bitSet (piCause hw) 2) .piDi).or <|
  -- the flag has_dsp_ai, which was set where the DSP was looked at
  (guarded (bitSet (piCause hw) 6) <| report (bitSet (dspCause hw) 3) .dspAi).or <|
  (report (bitSet (piCause hw) 11) .piCp).or <|
  guarded wii <| report (bitSet (piCause hw) 14) .piAcr

/-- `KIrqGetCause`, `none` for -1. -/
def kIrqGetCause (wii : Bool) (hw : Hw) : Option ℕ :=
  (report (bitSet (piCause hw) 0) .piError).or <|
  (report (bitSet (piCause hw) 12) .piDebug).or <|
  (guarded (bitSet (piCause hw) 7) (memCause hw)).or <|
  (report (bitSet (piCause hw) 1) .piRsw).or <|
  (report (bitSet (piCause hw) 8) .piVi).or <|
  (report (bitSet (piCause hw) 9) .piPeToken).or <|
  (report (bitSet (piCause hw) 10) .piPeFinish).or <|
  (report (bitSet (piCause hw) 13) .piHsp).or <|
  (guarded (bitSet (piCause hw) 6) <| (report (bitSet (dspCause hw) 5) .dspAram).or <|
    report (bitSet (dspCause hw) 7) .dspDsp).or <|
  (guarded (bitSet (piCause hw) 5) <| report (bitSet (aiCause hw) 3) .ai).or <|
  laterCause wii hw

/-! The lines. -/

def enabled (hw : Hw) : KIrqId → Bool
  | .piError => hw.pi1.getLsbD 0
  | .piDebug => hw.pi1.getLsbD 12
  | .mem0 => hw.mi14.getLsbD 0
  | .mem1 => hw.mi14.getLsbD 1
  | .mem2 => hw.mi14.getLsbD 2
  | .mem3 => hw.mi14.getLsbD 3
  | .memAddress => hw.mi14.getLsbD 4
  | .piRsw => hw.pi1.getLsbD 1
  | .piVi => hw.pi1.getLsbD 8
  | .piPeToken => hw.pi1.getLsbD 9
  | .piPeFinish => hw.pi1.getLsbD 10
  | .piHsp => hw.pi1.getLsbD 13
  | .dspAram => hw.readDsp.getLsbD 6
  | .dspDsp => hw.readDsp.getLsbD 8
  | .ai => hw.readAi.getLsbD 2
  | .exi0Exi => (hw.exi0.read exiStatus).getLsbD 0
  | .exi0Tc => (hw.exi0.read exiStatus).getLsbD 2
  | .exi0Ext => (hw.exi0.read exiStatus).getLsbD 10
  | .exi1Exi => (hw.exi5.read exiStatus).getLsbD 0
  | .exi1Tc => (hw.exi5.read exiStatus).getLsbD 2
  | .exi1Ext => (hw.exi5.read exiStatus).getLsbD 10
  | .exi2Exi => (hw.exi10.read exiStatus).getLsbD 0
  | .exi2Tc => (hw.exi10.read exiStatus).getLsbD 2
  | .piSi => hw.pi1.getLsbD 3
  | .piDi => hw.pi1.getLsbD 2
  | .dspAi => hw.readDsp.getLsbD 4
  | .piCp => hw.pi1.getLsbD 11
  | .piAcr => hw.pi1.getLsbD 14

/-- The source asks for an interrupt: its own status bit, and for a device the
bit of the device in the processor interface. -/
def pending (hw : Hw) : KIrqId → Bool
  | .piError => hw.pi0.getLsbD 0
  | .piDebug => hw.pi0.getLsbD 12
  | .mem0 => hw.pi0.getLsbD 7 && hw.mi15.getLsbD 0
  | .mem1 => hw.pi0.getLsbD 7 && hw.mi15.getLsbD 1
  | .mem2 => hw.pi0.getLsbD 7 && hw.mi15.getLsbD 2
  | .mem3 => hw.pi0.getLsbD 7 && hw.mi15.getLsbD 3
  | .memAddress => hw.pi0.getLsbD 7 && hw.mi15.getLsbD 4
  | .piRsw => hw.pi0.getLsbD 1
  | .piVi => hw.pi0.getLsbD 8
  | .piPeToken => hw.pi0.getLsbD 9
  | .piPeFinish => hw.pi0.getLsbD 10
  | .piHsp => hw.pi0.getLsbD 13
  | .dspAram => hw.pi0.getLsbD 6 && hw.readDsp.getLsbD 5
  | .dspDsp => hw.pi0.getLsbD 6 && hw.readDsp.getLsbD 7
  | .ai => hw.pi0.getLsbD 5 && hw.readAi.getLsbD 3
  | .exi0Exi => hw.pi0.getLsbD 4 && (hw.exi0.read exiStatus).getLsbD 1
  | .exi0Tc => hw.pi0.getLsbD 4 && (hw.exi0.read exiStatus).getLsbD 3
  | .exi0Ext => hw.pi0.getLsbD 4 && (hw.exi0.read exiStatus).getLsbD 11
  | .exi1Exi => hw.pi0.getLsbD 4 && (hw.exi5.read exiStatus).getLsbD 1
  | .exi1Tc => hw.pi0.getLsbD 4 && (hw.exi5.read exiStatus).getLsbD 3
  | .exi1Ext => hw.pi0.getLsbD 4 && (hw.exi5.read exiStatus).getLsbD 11
  | .exi2Exi => hw.pi0.getLsbD 4 && (hw.exi10.read exiStatus).getLsbD 1
  | .exi2Tc => hw.pi0.getLsbD 4 && (hw.exi10.read exiStatus).getLsbD 3
  | .piSi => hw.pi0.getLsbD 3
  | .piDi => hw.pi0.getLsbD 2
  | .dspAi => hw.pi0.getLsbD 6 && hw.readDsp.getLsbD 3
  | .piCp => hw.pi0.getLsbD 11
  | .piAcr => hw.pi0.getLsbD 14

def active (hw : Hw) (id : KIrqId) : Bool := enabled hw id && pending hw id

end Libogc.Interrupt
