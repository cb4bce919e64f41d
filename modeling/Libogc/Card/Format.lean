import Libogc.Card.Rounds

/-!
# Formatting

The ten stages of a format that succeeds: five sectors are erased, and then
written with the five blocks of the work area.
-/

set_option autoImplicit false

namespace Libogc.CardFormat
open Function Nat
open ByteStore CardLayout CardControl CardCallbacks CardCalls CardSystem CardTransfer CardRounds
open RestingRun

variable {s : Card} {now : ℕ}

def nextStage (s : Card) : Card :=
  if s.formatStep+1 < sysArea then
    erased ((s.formatStep+1)*s.geo.sector) { s with formatStep := s.formatStep+1 }
  else
    blockWritten 64 ((s.formatStep+1-sysArea)*s.geo.sector) (.work (s.formatStep+1-sysArea) 0)
      { s with formatStep := s.formatStep+1 }

theorem nextStage_frame (s : Card) :
    (nextStage s).geo = s.geo ∧ (nextStage s).work = s.work ∧ channel (nextStage s) = channel s ∧
      (nextStage s).apiCb = s.apiCb ∧ (nextStage s).formatStep = s.formatStep+1 := by
  unfold nextStage
  split <;> exact ⟨rfl,rfl,rfl,rfl,rfl⟩

theorem nextStage_goes (h : Quiet s) (hs : s.formatStep+1 < 10) :
    Goes (advance now) (formatCallback (fine now) 0 s)
      (formatCallback (fine now) 0 (nextStage s)) := by
  have h5 : sysArea = 5 := rfl
  have hb := s.geo.blocks_gt
  have hq : Quiet { s with formatStep := s.formatStep+1 } := h.same rfl
  rw [nextStage]
  nth_rewrite 1 [formatCallback]
  rw [if_neg (by decide)]
  dsimp only
  by_cases h1 : s.formatStep+1 < sysArea
  · obtain ⟨ha,hm⟩ := sector_addr (s := s) (k := s.formatStep+1) (by omega)
    rw [if_pos h1, if_pos h1, sectorErase_quiet _ hq hm, ha]
    exact erasing_goes hq _ .format
  · have he := s.geo.block_end (k := s.formatStep+1-sysArea) (by omega)
    have hsec := s.geo.sector_ge
    rw [if_neg h1, if_neg h1, if_pos hs, cardWrite_quiet _ hq]
    exact pages_goes 63 _ _ .format hq (by omega)

def formatStage (s : Card) : ℕ → Card
  | 0 => erased 0 s
  | j+1 => nextStage (formatStage s j)

theorem formatStage_frame (s : Card) (j : ℕ) :
    (formatStage s j).geo = s.geo ∧ (formatStage s j).work = s.work ∧
      channel (formatStage s j) = channel s ∧ (formatStage s j).apiCb = s.apiCb ∧
      (formatStage s j).formatStep = s.formatStep+j := by
  induction j with
  | zero => exact ⟨rfl,rfl,rfl,rfl,rfl⟩
  | succ j ih =>
    obtain ⟨h1,h2,h3,h4,h5⟩ := nextStage_frame (formatStage s j)
    obtain ⟨i1,i2,i3,i4,i5⟩ := ih
    exact ⟨h1.trans i1,h2.trans i2,h3.trans i3,h4.trans i4,by rw [formatStage]; omega⟩

theorem formatStage_quiet (h : Quiet s) (j : ℕ) : Quiet (formatStage s j) :=
  h.same (formatStage_frame s j).2.2.1

theorem formatStage_step (h : s.formatStep = 0) (j : ℕ) : (formatStage s j).formatStep = j := by
  rw [(formatStage_frame s j).2.2.2.2, h, Nat.zero_add]

theorem formatStage_goes (now : ℕ) (h : Quiet s) (h0 : s.formatStep = 0) (j : ℕ) (hj : j < 10) :
    Goes (advance now) (erasing 0 .format s) (formatCallback (fine now) 0 (formatStage s j)) := by
  induction j with
  | zero => exact erasing_goes h 0 .format
  | succ j ih =>
    refine goes_trans (ih (by omega)) (nextStage_goes (formatStage_quiet h j) ?_)
    rw [formatStage_step h0]
    exact hj

def formatEnd (s : Card) : Card :=
  { s with
    formatStep := 10,
    work := update (update s.work 1 (s.work 2)) 3 (s.work 4),
    currDir := 1, currFat := 3, apiCb := none, result := 0 }

theorem formatEnd_goes (now : ℕ) (h : Quiet s) (hs : s.formatStep = 9) :
    Goes (advance now) (formatCallback (fine now) 0 s) (resume now s.apiCb (formatEnd s)) := by
  have h5 : sysArea = 5 := rfl
  have hw : formatCallback (fine now) 0 s = later s.apiCb 0 (formatEnd s) := by
    rw [formatCallback]
    dsimp only
    rw [if_neg (by omega), if_neg (by omega)]
    simp [finishApi, putCntrlBlock, setWork, h.attached, formatEnd, hs]
  have hq : Quiet (formatEnd s) := h.same rfl
  rw [hw]
  exact later_goes hq s.apiCb

def formatted (s : Card) : Card := formatEnd (formatStage s 9)

theorem format_goes (now : ℕ) (h : Quiet s) (h0 : s.formatStep = 0) :
    Goes (advance now) (erasing 0 .format s) (resume now s.apiCb (formatted s)) := by
  have h9 := formatStage_goes now h h0 9 (by decide)
  have he := formatEnd_goes now (formatStage_quiet h 9) (formatStage_step h0 9)
  rw [(formatStage_frame s 9).2.2.2.1] at he
  exact goes_trans h9 he

theorem formatStage_flash (h0 : s.formatStep = 0) {j k i : ℕ} (hj : j < 10) (hk : k+sysArea ≤ j)
    (hi : i < 8192) : (formatStage s j).flash (k*s.geo.sector+i) = s.work k i := by
  have h5 : sysArea = 5 := rfl
  have hs := s.geo.sector_ge
  induction j with
  | zero => omega
  | succ j ih =>
    obtain ⟨hg,hw,-⟩ := formatStage_frame s j
    rw [formatStage, nextStage, formatStage_step h0, if_neg (by omega)]
    simp only [blockWritten, getBytes, bytesAt_zero, hw, hg]
    by_cases hlast : k = j+1-sysArea
    · subst hlast
      rw [blit_in (by omega)]
      congr 1
      omega
    · have hlt : k+1 ≤ j+1-sysArea := by omega
      have hm := mul_le_mul_right s.geo.sector hlt
      rw [succ_mul] at hm
      rw [blit_out (by omega)]
      exact ih (by omega) (by omega)

/-- The call: both tables are blank in the work area, and the first erase is under way. -/
def formatCall (header : Bytes) (cb : Option Cb) (s : Card) : Card :=
  { s with
    work := update (update (update (update (update
      s.work 0 header) 1 blankDir) 2 blankDir) 3 (blankFat s.geo 0)) 4 (blankFat s.geo 1),
    apiCb := some (cb.getD .default), formatStep := 0, result := errorBusy }

theorem formatAsync_quiet (h : Quiet s) (hr : s.result ≠ errorBusy) {chn : ℤ}
    (hc : chnOk chn = true) (header : Bytes) (cb : Option Cb) :
    CardCalls.formatAsync chn header cb (fine now) s =
      (errorReady, erasing 0 .format (formatCall header cb s)) := by
  have hq : Quiet (formatCall header cb s) := h.same rfl
  have he := sectorErase_quiet now hq
    (show 0%(formatCall header cb s).geo.sector = 0 from zero_mod _) .format
  rw [formatAsync, if_neg (by simp [hc]), getCntrlBlock, if_neg (by simp [hc]),
    if_neg (by simp [h.attached]), if_pos hr]
  simp only [setWork]
  change orPut (sectorErase 0 .format (fine now) (formatCall header cb s)) = _
  rw [he]
  rfl

end Libogc.CardFormat
