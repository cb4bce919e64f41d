import Mathlib.Data.List.Nodup
import Libogc.Tuxedo.Interrupt

/-!
# The enable bits and the reported source

Of every line but those of the memory interface the enable bit follows the
masks that `KIrqModify` is given. `KIrqGetCause` reports the first line, in the
order of the numbers, that is enabled and pending.
-/

set_option autoImplicit false

namespace Libogc.InterruptLines
open List Interrupt BitVec

theorem num_lt (id : KIrqId) : id.num < 32 := by
  cases id <;> decide

theorem ppcBit_eq {n : ℕ} (h : n < 32) : ppcBit n = BitVec.twoPow 32 (31-n) := by
  have hall : ∀ k : Fin 32, ppcBit k = twoPow 32 (31-k) := by decide
  exact hall ⟨n,h⟩

def has (m : BitVec 32) (id : KIrqId) : Bool := m.getLsbD (31-id.num)

variable {c s : Bool} {hw : Hw} {id : KIrqId} {b : ℕ} (m : BitVec 32)

theorem and_twoPow_ne (h : b < 32) : m &&& BitVec.twoPow 32 b ≠ 0 ↔ m.getLsbD b = true := by
  rw [and_twoPow]
  cases hb : m.getLsbD b with
  | false => simp
  | true =>
    have hne : twoPow 32 b ≠ 0 := by
      intro he
      have hbit := congrArg (fun v => v.getLsbD b) he
      simp [h] at hbit
    simpa using hne

theorem and_irqMask_ne (id : KIrqId) : m &&& irqMask id ≠ 0 ↔ has m id = true := by
  rw [irqMask, ppcBit_eq (num_lt id)]
  exact and_twoPow_ne m (by omega)

theorem and_masks_ne (l : List KIrqId) : m &&& masks l ≠ 0 ↔ ∃ id ∈ l, has m id = true := by
  induction l with
  | nil => simp [masks]
  | cons id l ih =>
    have hcons : masks (id::l) = irqMask id ||| masks l := rfl
    have hor : m &&& masks (id::l) ≠ 0 ↔ m &&& irqMask id ≠ 0 ∨ m &&& masks l ≠ 0 := by
      rw [hcons, and_or_distrib_left, ← not_and_or]
      exact not_congr or_eq_zero_iff
    rw [hor, and_irqMask_ne, ih]
    simp

theorem bitSet_eq (h : b < 32) : bitSet m b = m.getLsbD b := by
  rw [bitSet, Bool.eq_iff_iff, decide_eq_true_eq]
  exact and_twoPow_ne m h

theorem getLsbD_encode (table : List (KIrqId × ℕ)) (h : ∀ e ∈ table, e.2 < 32) (mask : BitVec 32)
    (b : ℕ) : (encode table mask).getLsbD b =
      table.any (fun e => has mask e.1 && decide (e.2 = b)) := by
  induction table with
  | nil => simp [encode]
  | cons e table ih =>
    have hcons : encode (e::table) mask = if mask &&& irqMask e.1 ≠ 0 then
        encode table mask ||| 1#32 <<< e.2 else encode table mask := rfl
    have ih := ih (fun x hx => h x (mem_cons_of_mem e hx))
    rw [hcons, any_cons, ← ih]
    by_cases hm : mask &&& irqMask e.1 ≠ 0
    · rw [if_pos hm, (and_irqMask_ne _ _).mp hm, ← twoPow_eq]
      simp [h e mem_cons_self, Bool.or_comm]
    · rw [if_neg hm]
      have hf : has mask e.1 = false := by
        simpa using mt (and_irqMask_ne _ _).mpr hm
      simp [hf]

/-! What `KIrqModify` does to one enable bit. -/

section Modify

variable (wii : Bool) (clr set : BitVec 32) (hw : Hw)

theorem getLsbD_adjust (c s reg : BitVec 32) (h : b < 32) :
    (adjust c s reg).getLsbD b = ((reg.getLsbD b && !c.getLsbD b) || s.getLsbD b) := by
  simp [adjust, h]

variable {P : Prop} {keep ec es : BitVec 32} {id' : KIrqId}

theorem merged [Decidable P] {new old : Bool} (hnew : new = ((old && !c) || s))
    (hout : ¬P → c = false ∧ s = false) : (if P then new else old) = ((old && !c) || s) := by
  split
  · exact hnew
  · rename_i hP
    simp [hout hP]

theorem has_and (a m : BitVec 32) (id : KIrqId) : has (a &&& m) id = (has a id && has m id) :=
  getLsbD_and ..

theorem untouched {clr set : BitVec 32} {l : List KIrqId} {id : KIrqId} (hid : id ∈ l)
    (h : ¬(clr ^^^ set) &&& masks l ≠ 0) :
    has (clr &&& (clr ^^^ set)) id = false ∧ has (set &&& (clr ^^^ set)) id = false := by
  have hm : has (clr ^^^ set) id = false := by
    by_contra hne
    exact h ((and_masks_ne _ l).mpr ⟨id,hid,by simpa using hne⟩)
  rw [has_and, has_and, hm]
  simp

theorem read_write {w : ℕ} (status v : BitVec w) (r : DevReg w) (hb : b < w)
    (hs : status.getLsbD b = false) : ((r.write v).read status).getLsbD b = v.getLsbD b := by
  simp only [DevReg.read, DevReg.write, getLsbD_or, getLsbD_and, getLsbD_not, hs,
    hb]
  simp

theorem encode_bit {table : List (KIrqId × ℕ)} (hd : (table.map Prod.snd).Nodup)
    (hlt : ∀ e ∈ table, e.2 < 32) (h : (id,b) ∈ table) (mask : BitVec 32) :
    (encode table mask).getLsbD b = has mask id := by
  rw [getLsbD_encode table hlt, Bool.eq_iff_iff, any_eq_true]
  constructor
  · rintro ⟨e,he,hb⟩
    simp only [Bool.and_eq_true, decide_eq_true_eq] at hb
    have hsame : e = (id,b) := inj_on_of_nodup_map hd he h hb.2
    rw [hsame] at hb
    exact hb.1
  · exact fun hm => ⟨(id,b),h,by simp [hm]⟩

theorem reg_modify [Decidable P] {status : BitVec 32} (r : DevReg 32)
    (hb : b < 32) (hst : status.getLsbD b = false) (hkeep : keep.getLsbD b = false)
    (hc : ec.getLsbD b = c) (hs : es.getLsbD b = s) (hout : ¬P → c = false ∧ s = false) :
    ((if P then r.write (adjust ec es (r.read status &&& ~~~keep)) else r).read status).getLsbD b =
      (((r.read status).getLsbD b && !c) || s) := by
  rw [apply_ite (fun x : DevReg 32 => (x.read status).getLsbD b)]
  refine merged ?_ hout
  rw [read_write _ _ _ hb hst, getLsbD_adjust _ _ _ hb, hc, hs, getLsbD_and,
    getLsbD_not, hkeep, decide_eq_true hb]
  simp

theorem reg16_modify [Decidable P] {status : BitVec 16}
    (r : DevReg 16) (hb : b < 16) (hst : status.getLsbD b = false)
    (hkeep : keep.getLsbD b = false) (hc : ec.getLsbD b = c) (hs : es.getLsbD b = s)
    (hout : ¬P → c = false ∧ s = false) :
    (((if P then r.write ((adjust ec es ((r.read status).setWidth 32 &&& ~~~keep)).setWidth 16)
      else r).read status).setWidth 32).getLsbD b =
      ((((r.read status).setWidth 32).getLsbD b && !c) || s) := by
  rw [apply_ite (fun x : DevReg 16 => ((x.read status).setWidth 32).getLsbD b)]
  have hb32 : b < 32 := by omega
  refine merged ?_ hout
  rw [getLsbD_setWidth, read_write _ _ _ hb hst, getLsbD_setWidth,
    getLsbD_adjust _ _ _ hb32, hc, hs, getLsbD_and, getLsbD_not, hkeep,
    decide_eq_true hb, decide_eq_true hb32]
  simp

def cleared (clr set : BitVec 32) : BitVec 32 := clr &&& (clr ^^^ set)

def added (clr set : BitVec 32) : BitVec 32 := set &&& (clr ^^^ set)

theorem dsp_modify (h : (id,b) ∈ [(KIrqId.dspAram,6), (KIrqId.dspDsp,8), (KIrqId.dspAi,4)]) :
    (kIrqModify wii clr set hw).readDsp.getLsbD b =
      ((hw.readDsp.getLsbD b && !has (cleared clr set) id) || has (added clr set) id) := by
  have hb : b < 16 ∧ dspStatus.getLsbD b = false ∧ (0xa8#32).getLsbD b = false ∧
      id ∈ [KIrqId.dspAi, .dspAram, .dspDsp] := by
    simp only [mem_cons, not_mem_nil, or_false] at h
    rcases h with ⟨rfl,rfl⟩ | ⟨rfl,rfl⟩ | ⟨rfl,rfl⟩ <;> decide
  exact reg16_modify hw.dsp5 hb.1 hb.2.1 hb.2.2.1 (encode_bit (by decide) (by decide) h _)
    (encode_bit (by decide) (by decide) h _) (untouched hb.2.2.2)

theorem ai_modify : (kIrqModify wii clr set hw).readAi.getLsbD 2 =
    ((hw.readAi.getLsbD 2 && !has (cleared clr set) .ai) || has (added clr set) .ai) :=
  reg_modify hw.ai0 (by decide) (by decide) (by decide)
    (encode_bit (by decide) (by decide) (by simp) _)
      (encode_bit (by decide) (by decide) (by simp) _)
    (untouched (by simp))

def exiTable : List (KIrqId × ℕ) := [(.exi0Exi, 0), (.exi0Tc, 2), (.exi0Ext, 10)]

theorem exiTable_bits (h : (id,b) ∈ exiTable) :
    b < 32 ∧ exiStatus.getLsbD b = false ∧ (0x280a#32).getLsbD b = false ∧
      (0x80a#32).getLsbD b = false ∧ (0xa#32).getLsbD b = false := by
  simp only [exiTable, mem_cons, not_mem_nil, or_false] at h
  rcases h with ⟨rfl,rfl⟩ | ⟨rfl,rfl⟩ | ⟨rfl,rfl⟩ <;> decide

theorem encodeExi_bit (h : (id,b) ∈ exiTable) (mask : BitVec 32) :
    (kIrqEncodeExi mask).getLsbD b = has mask id :=
  encode_bit (by decide) (by decide) h mask

theorem exi0_modify (h : (id,b) ∈ exiTable) :
    ((kIrqModify wii clr set hw).exi0.read exiStatus).getLsbD b =
      (((hw.exi0.read exiStatus).getLsbD b && !has (cleared clr set) id) ||
        has (added clr set) id) := by
  have hl : id ∈ [KIrqId.exi0Exi, .exi0Tc, .exi0Ext] := mem_map_of_mem (f := Prod.fst) h
  obtain ⟨hb,hst,hkeep,-⟩ := exiTable_bits h
  exact reg_modify hw.exi0 hb hst hkeep (encodeExi_bit h _) (encodeExi_bit h _) (untouched hl)

theorem exi1_modify (id : KIrqId) (h : (id,b) ∈ exiTable) (hn : id'.num = id.num+3)
    (hl : id' ∈ [KIrqId.exi1Exi, .exi1Tc, .exi1Ext]) :
    ((kIrqModify wii clr set hw).exi5.read exiStatus).getLsbD b =
      (((hw.exi5.read exiStatus).getLsbD b && !has (cleared clr set) id') ||
        has (added clr set) id') := by
  obtain ⟨hb,hst,-,hkeep,-⟩ := exiTable_bits h
  have hlt := num_lt id'
  have hshift : ∀ m : BitVec 32, has (m <<< 3) id = has m id' := by
    intro m
    rw [has, getLsbD_shiftLeft, decide_eq_true (by omega), decide_eq_false (by omega)]
    simp only [Bool.not_false, Bool.true_and]
    congr 1
    omega
  exact reg_modify hw.exi5 hb hst hkeep ((encodeExi_bit h _).trans (hshift _))
    ((encodeExi_bit h _).trans (hshift _)) (untouched hl)

theorem exi2_modify (id : KIrqId) (h : (id,b) ∈ exiTable) (hn : id'.num = id.num+6)
    (hl : id' ∈ [KIrqId.exi2Exi, .exi2Tc]) :
    ((kIrqModify wii clr set hw).exi10.read exiStatus).getLsbD b =
      (((hw.exi10.read exiStatus).getLsbD b && !has (cleared clr set) id') ||
        has (added clr set) id') := by
  obtain ⟨hb,hst,-,-,hkeep⟩ := exiTable_bits h
  have hlt := num_lt id'
  have hext : (irqMask .exi0Ext).getLsbD (31-id.num) = false := by
    have hid : id = .exi0Exi ∨ id = .exi0Tc := by
      simp only [exiTable, mem_cons, not_mem_nil, or_false] at h hl
      rcases h with ⟨rfl,-⟩ | ⟨rfl,-⟩ | ⟨rfl,-⟩
      · exact .inl rfl
      · exact .inr rfl
      · rcases hl with rfl | rfl <;> exact absurd hn (by decide)
    rcases hid with rfl | rfl <;> decide
  have hshift : ∀ m : BitVec 32, has ((m <<< 6) &&& ~~~irqMask .exi0Ext) id = has m id' := by
    intro m
    rw [has, getLsbD_and, getLsbD_not, hext, getLsbD_shiftLeft,
      decide_eq_true (by omega), decide_eq_false (by omega)]
    simp only [Bool.not_false, Bool.and_true, Bool.true_and]
    congr 1
    omega
  exact reg_modify hw.exi10 hb hst hkeep ((encodeExi_bit h _).trans (hshift _))
    ((encodeExi_bit h _).trans (hshift _)) (untouched hl)

def piTable (wii : Bool) : List (KIrqId × ℕ) :=
  [(.piError, 0), (.piDebug, 12), (.piRsw, 1), (.piVi, 8), (.piPeToken, 9), (.piPeFinish, 10),
    (.piHsp, 13), (.piSi, 3), (.piDi, 2), (.piCp, 11)] ++ if wii then [(.piAcr, 14)] else []

theorem piTable_snd : ((piTable wii).map Prod.snd).Nodup ∧ ∀ e ∈ piTable wii, e.2 < 32 := by
  cases wii <;> decide

theorem piTable_mem : ∀ e ∈ piTable wii, e.1 ∈
    [KIrqId.piCp, .piPeToken, .piPeFinish, .piSi, .piDi, .piRsw, .piError, .piVi, .piDebug,
      .piHsp] ++
      if wii then [.piAcr] else [] := by
  cases wii <;> decide

theorem modify_pi1 : (kIrqModify wii clr set hw).pi1 = if (clr ^^^ set) &&& imPi wii ≠ 0 then
    adjust (kIrqEncodePi wii (cleared clr set)) (kIrqEncodePi wii (added clr set)) hw.pi1
    else hw.pi1 := rfl

theorem pi_modify (h : (id,b) ∈ piTable wii) : (kIrqModify wii clr set hw).pi1.getLsbD b =
      ((hw.pi1.getLsbD b && !has (cleared clr set) id) || has (added clr set) id) := by
  obtain ⟨hd,hlt⟩ := piTable_snd wii
  have hcode : ∀ m, (kIrqEncodePi wii m).getLsbD b = has m id := encode_bit hd hlt h
  rw [modify_pi1, apply_ite (fun x : BitVec 32 => x.getLsbD b)]
  refine merged ?_ (untouched (piTable_mem wii _ h))
  rw [getLsbD_adjust _ _ _ (hlt _ h), hcode, hcode]

theorem pi_kept (hb : b < 32) (h : ∀ id, (id,b) ∉ piTable wii) :
    (kIrqModify wii clr set hw).pi1.getLsbD b = hw.pi1.getLsbD b := by
  have hcode : ∀ m, (kIrqEncodePi wii m).getLsbD b = false := by
    intro m
    have hany : (kIrqEncodePi wii m).getLsbD b = _ :=
      getLsbD_encode (piTable wii) (piTable_snd wii).2 m b
    rw [hany, any_eq_false]
    intro e he hb
    simp only [Bool.and_eq_true, decide_eq_true_eq] at hb
    exact h e.1 (hb.2 ▸ he)
  rw [modify_pi1]
  split
  · rw [getLsbD_adjust _ _ _ hb, hcode, hcode]
    simp
  · rfl

theorem enabled_modify (hid : id ∈ irqs wii) (hmem : id ∉ memLines) :
    enabled (kIrqModify wii clr set hw) id =
      ((enabled hw id && !has (cleared clr set) id) || has (added clr set) id) := by
  cases id with
  | mem0 | mem1 | mem2 | mem3 | memAddress => exact absurd hmem (by decide)
  | dspAram | dspDsp | dspAi => exact dsp_modify wii clr set hw (by simp)
  | ai => exact ai_modify wii clr set hw
  | exi0Exi | exi0Tc | exi0Ext => exact exi0_modify wii clr set hw (by simp [exiTable])
  | exi1Exi => exact exi1_modify wii clr set hw .exi0Exi (by simp [exiTable]) rfl (by simp)
  | exi1Tc => exact exi1_modify wii clr set hw .exi0Tc (by simp [exiTable]) rfl (by simp)
  | exi1Ext => exact exi1_modify wii clr set hw .exi0Ext (by simp [exiTable]) rfl (by simp)
  | exi2Exi => exact exi2_modify wii clr set hw .exi0Exi (by simp [exiTable]) rfl (by simp)
  | exi2Tc => exact exi2_modify wii clr set hw .exi0Tc (by simp [exiTable]) rfl (by simp)
  | piAcr =>
    have hwii : wii = true := by
      by_contra hne
      simp [irqs, hne] at hid
    subst hwii
    exact pi_modify true clr set hw (by simp [piTable])
  | piError | piDebug | piRsw | piVi | piPeToken | piPeFinish | piHsp | piSi | piDi | piCp =>
    exact pi_modify wii clr set hw (by simp [piTable])

end Modify

/-! The decoder. -/

section Cause

variable (wii : Bool) (hw : Hw)

def first (hw : Hw) (l : List KIrqId) : Option ℕ := (l.find? (active hw)).map KIrqId.num

theorem first_append (l m : List KIrqId) : first hw (l ++ m) = (first hw l).or (first hw m) := by
  unfold first
  rw [find?_append]
  cases l.find? (active hw) <;> rfl

theorem first_cons (id : KIrqId) (l : List KIrqId) :
    first hw (id::l) = (report (active hw id) id).or (first hw l) := by
  unfold first report
  rw [find?_cons]
  cases active hw id <;> rfl

theorem first_nil : first hw [] = none := rfl

theorem piCause_bit (h : b < 32) :
    bitSet (piCause hw) b = (hw.pi0.getLsbD b && hw.pi1.getLsbD b) := by
  rw [bitSet_eq _ h, piCause, getLsbD_and]

theorem report_and (a c : Bool) (id : KIrqId) : report (a && c) id = guarded a (report c id) := by
  cases a <;> rfl

theorem guarded_or (c : Bool) (a b : Option ℕ) :
    guarded c (a.or b) = (guarded c a).or (guarded c b) := by
  cases c <;> rfl

/-- The processor interface lets the interrupts of the devices through. -/
def Open (hw : Hw) : Prop := ∀ b, 4 ≤ b → b ≤ 7 → hw.pi1.getLsbD b = true

theorem pi_reported (hb : b < 32) (he : enabled hw id = hw.pi1.getLsbD b)
    (hp : pending hw id = hw.pi0.getLsbD b) : bitSet (piCause hw) b = active hw id := by
  rw [piCause_bit hw hb, active, he, hp, Bool.and_comm]

theorem device_reported (h : Open hw) {g : ℕ} (hg : 4 ≤ g ∧ g ≤ 7) (id : KIrqId) {e p : Bool}
    (hc : c = (p && e)) (he : enabled hw id = e) (hp : pending hw id = (hw.pi0.getLsbD g && p)) :
    (bitSet (piCause hw) g && c) = active hw id := by
  rw [piCause_bit hw (by omega), h g hg.1 hg.2, active, he, hp, hc]
  cases hw.pi0.getLsbD g <;> cases p <;> cases e <;> rfl

theorem dspCause_bit (b : ℕ) (h : b < 32) :
    bitSet (dspCause hw) b = (hw.readDsp.getLsbD b && hw.readDsp.getLsbD (b+1)) := by
  rw [bitSet_eq _ h, dspCause, getLsbD_and, getLsbD_ushiftRight, Nat.add_comm]

theorem shifted_bit (v : BitVec 32) (b : ℕ) (h : b+1 < 32) :
    bitSet (v &&& v <<< 1) (b+1) = (v.getLsbD (b+1) && v.getLsbD b) := by
  rw [bitSet_eq _ h, getLsbD_and, getLsbD_shiftLeft]
  simp [h]

theorem dsp_first (h : Open hw) : guarded (bitSet (piCause hw) 6)
    ((report (bitSet (dspCause hw) 5) .dspAram).or (report (bitSet (dspCause hw) 7) .dspDsp)) =
      first hw [.dspAram, .dspDsp] := by
  rw [guarded_or, ← report_and, ← report_and,
    device_reported hw h (by decide) .dspAram (dspCause_bit hw 5 (by decide)) rfl rfl,
    device_reported hw h (by decide) .dspDsp (dspCause_bit hw 7 (by decide)) rfl rfl, first_cons,
      first_cons,
    first_nil, Option.or_none]

theorem dspAi_first (h : Open hw) :
    guarded (bitSet (piCause hw) 6) (report (bitSet (dspCause hw) 3) .dspAi) =
      first hw [.dspAi] := by
  rw [← report_and, device_reported hw h (by decide) .dspAi (dspCause_bit hw 3 (by decide)) rfl rfl,
    first_cons, first_nil, Option.or_none]

theorem ai_first (h : Open hw) :
    guarded (bitSet (piCause hw) 5) (report (bitSet (aiCause hw) 3) .ai) = first hw [.ai] := by
  have hbit : bitSet (aiCause hw) 3 = (hw.readAi.getLsbD 3 && hw.readAi.getLsbD 2) :=
    shifted_bit hw.readAi 2 (by decide)
  rw [← report_and, device_reported hw h (by decide) .ai hbit rfl rfl, first_cons, first_nil,
    Option.or_none]

theorem decodeExi_eq (v : BitVec 32) : kIrqDecodeExiCause v =
    (report (v.getLsbD 1 && v.getLsbD 0) .exi0Exi).or
      ((report (v.getLsbD 3 && v.getLsbD 2) .exi0Tc).or
        (report (v.getLsbD 11 && v.getLsbD 10) .exi0Ext)) := by
  have h1 : bitSet (v &&& v <<< 1) 1 = (v.getLsbD 1 && v.getLsbD 0) := shifted_bit v 0 (by decide)
  have h3 : bitSet (v &&& v <<< 1) 3 = (v.getLsbD 3 && v.getLsbD 2) := shifted_bit v 2 (by decide)
  have h11 : bitSet (v &&& v <<< 1) 11 = (v.getLsbD 11 && v.getLsbD 10) :=
    shifted_bit v 10 (by decide)
  rw [← h1, ← h3, ← h11]
  rfl

theorem report_map (c : Bool) (id id' : KIrqId) (f : ℕ → ℕ) (h : f id.num = id'.num) :
    (report c id).map f = report c id' := by
  cases c
  · rfl
  · exact congrArg some h

theorem exi_line (h : Open hw) (v : BitVec 32) (id : KIrqId) (b p : ℕ)
    (he : enabled hw id = v.getLsbD b) (hp : pending hw id = (hw.pi0.getLsbD 4 && v.getLsbD p)) :
    guarded (bitSet (piCause hw) 4) (report (v.getLsbD p && v.getLsbD b) id) =
      report (active hw id) id := by
  rw [← report_and, device_reported hw h (by decide) id rfl he hp]

theorem exi0_first (h : Open hw) :
    guarded (bitSet (piCause hw) 4) (kIrqDecodeExiCause (hw.exi0.read exiStatus)) =
      first hw [.exi0Exi, .exi0Tc, .exi0Ext] := by
  rw [decodeExi_eq, guarded_or, guarded_or, exi_line hw h _ .exi0Exi 0 1 rfl rfl,
    exi_line hw h _ .exi0Tc 2 3 rfl rfl, exi_line hw h _ .exi0Ext 10 11 rfl rfl]
  simp only [first_cons, first_nil, Option.or_none]

theorem exi1_first (h : Open hw) : guarded (bitSet (piCause hw) 4)
    ((kIrqDecodeExiCause (hw.exi5.read exiStatus)).map
      (fun n => n+KIrqId.exi1Exi.num-KIrqId.exi0Exi.num)) =
      first hw [.exi1Exi, .exi1Tc, .exi1Ext] := by
  rw [decodeExi_eq, Option.map_or, Option.map_or, report_map _ .exi0Exi .exi1Exi _ rfl,
    report_map _ .exi0Tc .exi1Tc _ rfl, report_map _ .exi0Ext .exi1Ext _ rfl, guarded_or,
    guarded_or, exi_line hw h _ .exi1Exi 0 1 rfl rfl, exi_line hw h _ .exi1Tc 2 3 rfl rfl,
    exi_line hw h _ .exi1Ext 10 11 rfl rfl]
  simp only [first_cons, first_nil, Option.or_none]

theorem exi2_first (h : Open hw) : guarded (bitSet (piCause hw) 4)
    ((kIrqDecodeExiCause (hw.exi10.read exiStatus &&& ~~~(1#32 <<< 11))).map
      (fun n => n+KIrqId.exi2Exi.num-KIrqId.exi0Exi.num)) = first hw [.exi2Exi, .exi2Tc] := by
  have hbit : ∀ b, b < 32 → (hw.exi10.read exiStatus &&& ~~~(1#32 <<< 11)).getLsbD b =
      ((hw.exi10.read exiStatus).getLsbD b && !decide (11 = b)) := by
    intro b hb
    rw [getLsbD_and, getLsbD_not, ← twoPow_eq, getLsbD_twoPow]
    simp [hb]
  rw [decodeExi_eq, hbit 11 (by decide)]
  have hcut : ∀ c, report ((hw.exi10.read exiStatus).getLsbD 11 && !decide (11 = 11) && c)
      .exi0Ext = none := by
    intro c
    simp [report]
  have hsame : ∀ b, b ≠ 11 → b < 32 → (hw.exi10.read exiStatus &&& ~~~(1#32 <<< 11)).getLsbD b =
      (hw.exi10.read exiStatus).getLsbD b := by
    intro b hne hb
    rw [hbit b hb, decide_eq_false (Ne.symm hne), Bool.not_false, Bool.and_true]
  rw [hcut, Option.or_none, hsame 0 (by decide) (by decide), hsame 1 (by decide) (by decide),
    hsame 2 (by decide) (by decide), hsame 3 (by decide) (by decide), Option.map_or,
    report_map _ .exi0Exi .exi2Exi _ rfl, report_map _ .exi0Tc .exi2Tc _ rfl, guarded_or,
    exi_line hw h _ .exi2Exi 0 1 rfl rfl, exi_line hw h _ .exi2Tc 2 3 rfl rfl]
  simp only [first_cons, first_nil, Option.or_none]

/-! The memory interface. -/

theorem ffs_or_none (m : BitVec 32) (k : ℕ) : (if m ≠ 0 then some (ffs m-1+k) else none) =
    ((List.range 32).find? (fun i => m.getLsbD i)).map (fun i => i+k) := by
  unfold ffs
  cases hf : (range 32).find? (fun i => m.getLsbD i) with
  | some i =>
    have hne : m ≠ 0 := by
      rintro rfl
      simp at hf
    rw [if_pos hne]
    rfl
  | none =>
    have hz : m = 0 := by
      apply eq_of_getLsbD_eq
      intro i hi
      simpa using find?_eq_none.mp hf i (mem_range.mpr hi)
    simp [hz]

theorem mem_bit {i : ℕ} (h : i < 32) :
    (((hw.mi14 &&& hw.mi15).setWidth 32) &&& (0x1f : BitVec 32)).getLsbD i =
      (decide (i < 5) && (hw.mi14.getLsbD i && hw.mi15.getLsbD i)) := by
  have hmask : (0x1f : BitVec 32).getLsbD i = decide (i < 5) := by
    have hall : ∀ i : Fin 32, (0x1f : BitVec 32).getLsbD i = decide (i.val < 5) := by decide
    exact hall ⟨i,h⟩
  rw [getLsbD_and, hmask, getLsbD_setWidth, decide_eq_true h, getLsbD_and,
    Bool.and_comm, Bool.true_and]

theorem mem_first (h : Open hw) :
    guarded (bitSet (piCause hw) 7) (memCause hw) = first hw memLines := by
  have hrange : range 32 = [0,1,2,3,4] ++ (range 27).map (· + 5) := by decide
  have hcause : memCause hw = ([0,1,2,3,4].find? (fun i =>
      (((hw.mi14 &&& hw.mi15).setWidth 32) &&& (0x1f : BitVec 32)).getLsbD i)).map
        (fun i => i+KIrqId.mem0.num) := by
    rw [memCause, ffs_or_none, hrange, find?_append]
    have hrest : ((range 27).map (· + 5)).find? (fun i =>
        (((hw.mi14 &&& hw.mi15).setWidth 32) &&& (0x1f : BitVec 32)).getLsbD i) = none := by
      rw [find?_eq_none]
      intro x hx
      obtain ⟨i,hi,rfl⟩ := mem_map.mp hx
      have hlt := mem_range.mp hi
      rw [mem_bit hw (by omega)]
      simp [show ¬i+5 < 5 by omega]
    rw [hrest, Option.or_none]
  have hline : ∀ k, k < 5 → ∀ id, enabled hw id = hw.mi14.getLsbD k →
      pending hw id = (hw.pi0.getLsbD 7 && hw.mi15.getLsbD k) →
      (bitSet (piCause hw) 7 &&
        (((hw.mi14 &&& hw.mi15).setWidth 32) &&& (0x1f : BitVec 32)).getLsbD k) = active hw id := by
    intro k hk id he hp
    refine device_reported hw h (by decide) id ?_ he hp
    rw [mem_bit hw (by omega), decide_eq_true hk, Bool.true_and, Bool.and_comm]
  rw [hcause, memLines]
  simp only [first_cons, first_nil, ← hline 0 (by decide) .mem0 rfl rfl,
    ← hline 1 (by decide) .mem1 rfl rfl, ← hline 2 (by decide) .mem2 rfl rfl,
    ← hline 3 (by decide) .mem3 rfl rfl, ← hline 4 (by decide) .memAddress rfl rfl,
    find?_cons, report_and, ← guarded_or, Option.or_none]
  generalize (((hw.mi14 &&& hw.mi15).setWidth 32) &&& (0x1f : BitVec 32)).getLsbD = bit
  cases bit 0 <;> cases bit 1 <;> cases bit 2 <;> cases bit 3 <;> cases bit 4 <;> rfl

theorem getCause_first (h : Open hw) : kIrqGetCause wii hw = first hw (irqs wii) := by
  have hpi : ∀ (b : ℕ) (id : KIrqId), b < 32 → enabled hw id = hw.pi1.getLsbD b →
      pending hw id = hw.pi0.getLsbD b →
      report (bitSet (piCause hw) b) id = report (active hw id) id :=
    fun b id hb he hp => by rw [pi_reported hw hb he hp]
  have hacr : guarded wii (report (bitSet (piCause hw) 14) .piAcr) =
      first hw (if wii then [.piAcr] else []) := by
    rw [hpi 14 .piAcr (by decide) rfl rfl]
    cases wii
    · rfl
    · simp [first_cons, first_nil, guarded]
  unfold kIrqGetCause laterCause irqs
  rw [hpi 0 .piError (by decide) rfl rfl, hpi 12 .piDebug (by decide) rfl rfl, mem_first hw h,
    hpi 1 .piRsw (by decide) rfl rfl, hpi 8 .piVi (by decide) rfl rfl,
    hpi 9 .piPeToken (by decide) rfl rfl, hpi 10 .piPeFinish (by decide) rfl rfl,
    hpi 13 .piHsp (by decide) rfl rfl, dsp_first hw h, ai_first hw h, exiCause, guarded_or,
    guarded_or, exi0_first hw h, exi1_first hw h, exi2_first hw h,
    hpi 3 .piSi (by decide) rfl rfl, hpi 2 .piDi (by decide) rfl rfl, dspAi_first hw h,
    hpi 11 .piCp (by decide) rfl rfl, hacr]
  simp only [first_append, first_cons, first_nil, memLines, Option.or_none, Option.or_assoc]

end Cause

/-! Sequences of calls. -/

inductive Call where
  | enable (mask : BitVec 32)
  | disable (mask : BitVec 32)
  | device (pi0 : BitVec 32) (mi15 dsp5 : BitVec 16) (ai0 exi0 exi5 exi10 : BitVec 32)
  deriving DecidableEq, Repr

def step (wii : Bool) (hw : Hw) : Call → Hw
  | .enable mask => kIrqEnable wii mask hw
  | .disable mask => kIrqDisable wii mask hw
  | .device pi0 mi15 dsp5 ai0 exi0 exi5 exi10 => { hw with
    pi0 := pi0
    mi15 := mi15
    dsp5 := { hw.dsp5 with sts := dsp5 }
    ai0 := { hw.ai0 with sts := ai0 }
    exi0 := { hw.exi0 with sts := exi0 }
    exi5 := { hw.exi5 with sts := exi5 }
    exi10 := { hw.exi10 with sts := exi10 } }

def run (wii : Bool) (hw : Hw) (calls : List Call) : Hw := calls.foldl (step wii) hw

/-- Whether the last call whose mask contains the line was an enable, after one
more call. -/
def follow (id : KIrqId) (last : Bool) : Call → Bool
  | .enable mask => has mask id || last
  | .disable mask => !has mask id && last
  | .device .. => last

def requested (id : KIrqId) (calls : List Call) : Bool := calls.foldl (follow id) false

section Run

variable (wii : Bool)

theorem init_dsp (hw : Hw) (hb : b = 4 ∨ b = 6 ∨ b = 8) :
    (kIrqInit hw).readDsp.getLsbD b = false := by
  have hbits : b < 16 ∧ dspStatus.getLsbD b = false ∧ (0x1f8 : BitVec 32).getLsbD b = true := by
    rcases hb with rfl | rfl | rfl <;> decide
  have hwrite : (kIrqInit hw).dsp5 =
      hw.dsp5.write ((hw.readDsp &&& ~~~(0x1f8 : BitVec 32)).setWidth 16) := rfl
  rw [Hw.readDsp, getLsbD_setWidth, hwrite, read_write _ _ _ hbits.1 hbits.2.1,
    getLsbD_setWidth, getLsbD_and, getLsbD_not, hbits.2.2]
  simp

theorem init_reg (status keep v : BitVec 32) (r : DevReg 32) (hb : b < 32)
    (hs : status.getLsbD b = false) (hk : keep.getLsbD b = true) :
    ((r.write (v &&& ~~~keep)).read status).getLsbD b = false := by
  rw [read_write _ _ _ hb hs, getLsbD_and, getLsbD_not, hk]
  simp

theorem init_enabled (hw : Hw) (id : KIrqId) : enabled (kIrqInit hw) id = false := by
  cases id with
  | dspAram | dspDsp | dspAi => exact init_dsp hw (by simp)
  | ai => exact init_reg aiStatus 0x2c hw.readAi hw.ai0 (by decide) (by decide) (by decide)
  | exi0Exi | exi0Tc | exi0Ext =>
    exact init_reg exiStatus 0x2c0f _ hw.exi0 (by decide) (by decide) (by decide)
  | exi1Exi | exi1Tc | exi1Ext =>
    exact init_reg exiStatus 0x0c0f _ hw.exi5 (by decide) (by decide) (by decide)
  | exi2Exi | exi2Tc =>
    exact init_reg exiStatus 0x000f _ hw.exi10 (by decide) (by decide) (by decide)
  | piError | piDebug | mem0 | mem1 | mem2 | mem3 | memAddress | piRsw | piVi | piPeToken
    | piPeFinish
  | piHsp | piSi | piDi | piCp | piAcr => simp [enabled, kIrqInit]

theorem init_open (hw : Hw) : Open (kIrqInit hw) := by
  intro b hlo hhi
  have hall : ∀ b : Fin 32, 4 ≤ b.val → b.val ≤ 7 → (0xf0#32).getLsbD b = true := by decide
  exact hall ⟨b,by omega⟩ hlo hhi

theorem modify_open (h : Open hw) (clr set : BitVec 32) : Open (kIrqModify wii clr set hw) := by
  intro b hlo hhi
  rw [pi_kept wii clr set hw (by omega), h b hlo hhi]
  have hall : ∀ e ∈ piTable wii, e.2 < 4 ∨ 7 < e.2 := by cases wii <;> decide
  intro id hm
  have hrange : b < 4 ∨ 7 < b := hall _ hm
  omega

theorem step_open (h : Open hw) (call : Call) : Open (step wii hw call) := by
  cases call with
  | enable mask => exact modify_open wii h 0 mask
  | disable mask => exact modify_open wii h mask 0
  | device => exact h

theorem run_open (h : Open hw) (calls : List Call) : Open (run wii hw calls) := by
  induction calls generalizing hw with
  | nil => exact h
  | cons call calls ih => exact ih (step_open wii h call)

theorem device_enabled {w : ℕ} (status sts : BitVec w) (r : DevReg w)
    (hs : status.getLsbD b = false) : ((⟨r.ctl,sts⟩ : DevReg w).read status).getLsbD b =
      (r.read status).getLsbD b := by
  simp only [DevReg.read, getLsbD_or, getLsbD_and, hs, Bool.and_false]

theorem has_added (mask : BitVec 32) (id : KIrqId) : has (added 0 mask) id = has mask id ∧
    has (cleared 0 mask) id = false := by
  simp [has, added, cleared]

theorem has_cleared (mask : BitVec 32) (id : KIrqId) : has (cleared mask 0) id = has mask id ∧
    has (added mask 0) id = false := by
  simp [has, added, cleared]

theorem enable_enabled (mask : BitVec 32) (hw : Hw) (hid : id ∈ irqs wii) (hmem : id ∉ memLines) :
    enabled (kIrqEnable wii mask hw) id = (has mask id || enabled hw id) := by
  rw [kIrqEnable, enabled_modify wii 0 mask hw hid hmem, (has_added mask id).1,
    (has_added mask id).2, Bool.not_false, Bool.and_true, Bool.or_comm]

theorem disable_enabled (mask : BitVec 32) (hw : Hw) (hid : id ∈ irqs wii) (hmem : id ∉ memLines) :
    enabled (kIrqDisable wii mask hw) id = (!has mask id && enabled hw id) := by
  rw [kIrqDisable, enabled_modify wii mask 0 hw hid hmem, (has_cleared mask id).1,
    (has_cleared mask id).2, Bool.or_false, Bool.and_comm]

theorem device_step (hw : Hw) (id : KIrqId) (pi0 : BitVec 32) (mi15 dsp5 : BitVec 16)
    (ai0 exi0 exi5 exi10 : BitVec 32) :
    enabled (step wii hw (.device pi0 mi15 dsp5 ai0 exi0 exi5 exi10)) id = enabled hw id := by
  have hdsp : ∀ b, dspStatus.getLsbD b = false →
      (step wii hw (.device pi0 mi15 dsp5 ai0 exi0 exi5 exi10)).readDsp.getLsbD b =
        hw.readDsp.getLsbD b := by
    intro b hb
    rw [Hw.readDsp, Hw.readDsp, getLsbD_setWidth, getLsbD_setWidth]
    exact congrArg _ (device_enabled dspStatus dsp5 hw.dsp5 hb)
  cases id with
  | dspAram | dspDsp | dspAi => exact hdsp _ (by decide)
  | ai => exact device_enabled aiStatus ai0 hw.ai0 (by decide)
  | exi0Exi | exi0Tc | exi0Ext => exact device_enabled exiStatus exi0 hw.exi0 (by decide)
  | exi1Exi | exi1Tc | exi1Ext => exact device_enabled exiStatus exi5 hw.exi5 (by decide)
  | exi2Exi | exi2Tc => exact device_enabled exiStatus exi10 hw.exi10 (by decide)
  | piError | piDebug | mem0 | mem1 | mem2 | mem3 | memAddress | piRsw | piVi | piPeToken
    | piPeFinish
  | piHsp | piSi | piDi | piCp | piAcr => rfl

theorem step_enabled (hid : id ∈ irqs wii) (hmem : id ∉ memLines) (hw : Hw) (call : Call) :
    enabled (step wii hw call) id = follow id (enabled hw id) call := by
  cases call with
  | enable mask => exact enable_enabled wii mask hw hid hmem
  | disable mask => exact disable_enabled wii mask hw hid hmem
  | device pi0 mi15 dsp5 ai0 exi0 exi5 exi10 => exact device_step wii hw id ..

theorem run_enabled (hid : id ∈ irqs wii) (hmem : id ∉ memLines) (calls : List Call) (hw : Hw) :
    enabled (run wii hw calls) id = calls.foldl (follow id) (enabled hw id) := by
  induction calls generalizing hw with
  | nil => rfl
  | cons call calls ih =>
    rw [foldl_cons, ← step_enabled wii hid hmem]
    exact ih _

/-! The order in which the sources are reported. -/

theorem irqs_sorted : (irqs wii).Pairwise (fun a b => a.num < b.num) := by
  cases wii <;> decide

theorem irqs_all (id : KIrqId) : id ∈ irqs true := by
  cases id <;> decide

theorem num_inj {a b : KIrqId} (h : a.num = b.num) : a = b := by
  have hs : ((irqs true).map KIrqId.num).Nodup := by decide
  exact inj_on_of_nodup_map hs (irqs_all a) (irqs_all b) h

theorem cause_active (h : Open hw) (hc : kIrqGetCause wii hw = some id.num) :
    active hw id = true := by
  rw [getCause_first wii hw h] at hc
  obtain ⟨a,ha,hn⟩ := Option.map_eq_some_iff.mp hc
  rw [← num_inj hn]
  exact find?_some ha

theorem active_cause (h : Open hw) (hid : id ∈ irqs wii) (ha : active hw id = true) :
    ∃ n, n ≤ id.num ∧ kIrqGetCause wii hw = some n := by
  rw [getCause_first wii hw h, first]
  cases hf : (irqs wii).find? (active hw) with
  | none => exact absurd ha (by simpa using find?_eq_none.mp hf id hid)
  | some a =>
    refine ⟨a.num,?_,rfl⟩
    obtain ⟨-,l,m,hl,hnone⟩ := find?_eq_some_iff_append.mp hf
    have hs := irqs_sorted wii
    rw [hl] at hid hs
    rcases mem_append.mp hid with hid | hid
    · exact absurd ha (by simpa using hnone id hid)
    · rcases mem_cons.mp hid with rfl | hid
      · exact Nat.le_refl _
      · exact Nat.le_of_lt ((pairwise_cons.mp (pairwise_append.mp hs).2.1).1 id hid)

end Run

/-- The hardware follows the calls for a line: the enable bit is set just if
the last call whose mask contained the line was an enable, a line that is
reported was enabled, and a pending line that was enabled, or one before it,
is reported. -/
def Follows (wii : Bool) (hw : Hw) (id : KIrqId) (calls : List Call) : Prop :=
  enabled hw id = requested id calls ∧
  (kIrqGetCause wii hw = some id.num → requested id calls = true) ∧
  (requested id calls = true → pending hw id = true →
    ∃ n, n ≤ id.num ∧ kIrqGetCause wii hw = some n)

/-- The code of the memory interface takes the bits of other lines. -/
theorem mem_alone (wii : Bool) (hw : Hw) (h : id ∈ memLines) :
    enabled (run wii (kIrqInit hw) [.enable (irqMask id)]) id = false := by
  have hmi : (run wii (kIrqInit hw) [.enable (irqMask id)]).mi14 =
      if (0 ^^^ irqMask id) &&& imMem ≠ 0 then (adjust (kIrqEncodeMem (cleared 0 (irqMask id)))
        (kIrqEncodeMem (added 0 (irqMask id))) ((0 : BitVec 16).setWidth 32)).setWidth 16
          else 0 := rfl
  simp only [memLines, mem_cons, not_mem_nil, or_false] at h
  rcases h with rfl | rfl | rfl | rfl | rfl <;> rw [enabled, hmi] <;> decide

theorem masks_followed_iff (wii : Bool) (hw : Hw) {id : KIrqId} (hid : id ∈ irqs wii) :
    (∀ calls, Follows wii (run wii (kIrqInit hw) calls) id calls) ↔ id ∉ memLines := by
  constructor
  · intro h hmem
    have hbit := (h [.enable (irqMask id)]).1
    rw [mem_alone wii hw hmem] at hbit
    have hself : has (irqMask id) id = true :=
      (and_irqMask_ne (irqMask id) id).mp (by cases id <;> decide)
    simp [requested, follow, hself] at hbit
  · intro hmem calls
    have hopen := run_open wii (init_open hw) calls
    have hbit : enabled (run wii (kIrqInit hw) calls) id = requested id calls := by
      rw [run_enabled wii hid hmem, init_enabled]
      rfl
    refine ⟨hbit,?_,?_⟩
    · intro hc
      have ha := cause_active wii hopen hc
      rw [active, Bool.and_eq_true] at ha
      exact hbit ▸ ha.1
    · intro hr hp
      refine active_cause wii hopen hid ?_
      rw [active, hbit, hr, hp]
      rfl

def blankHw : Hw := ⟨0,0,0,0,⟨0,0⟩,⟨0,0⟩,⟨0,0⟩,⟨0,0⟩,⟨0,0⟩⟩

theorem masks_followed_exi1 : KIrqId.exi1Ext ∈ irqs false ∧
    ∀ calls, Follows false (run false (kIrqInit blankHw) calls) .exi1Ext calls :=
  ⟨by decide,(masks_followed_iff false blankHw (by decide)).mpr (by decide)⟩

/-- All lines of the memory interface are enabled, and an address error is
pending, which is not reported. Enabling the first of them together with the
audio interrupt of the DSP enables the address error instead. -/
theorem memory_lines_misplaced :
    requested .memAddress [.enable imMem, .device 0x80 0x10 0 0 0 0 0] = true ∧
    pending (run false (kIrqInit blankHw) [.enable imMem, .device 0x80 0x10 0 0 0 0 0])
      .memAddress = true ∧
    kIrqGetCause false (run false (kIrqInit blankHw)
      [.enable imMem, .device 0x80 0x10 0 0 0 0 0]) = none ∧
    kIrqGetCause false (run false (kIrqInit blankHw)
      [.enable (masks [.mem0, .dspAi]), .device 0x80 0x1f 0 0 0 0 0]) =
        some KIrqId.memAddress.num := by
  decide +kernel

end Libogc.InterruptLines
