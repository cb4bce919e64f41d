import Libogc.Card.Transfer

/-!
# Rounds of the two tables

A round of `__card_updatefat` or `__card_updatedir` that succeeds: the current
copy is stamped, its sector is erased and written, and the other copy in the
work area becomes the current one.
-/

set_option autoImplicit false

namespace Libogc.CardRounds
open Function ByteStore CardLayout CardControl CardCallbacks CardSystem CardTransfer RestingRun

variable {s : Card} {now : ℕ}

def rewritten (sector addr n : ℕ) (b flash : Bytes) : Bytes :=
  blit b 0 addr n (fill addr sector 255 flash)

theorem eraseWrite_goes (now : ℕ) {addr n : ℕ} {p : Ptr} {x y : Cb} (h : Quiet s)
    (hx : callback (fine now) 0 (erased addr s) x = paging (n+1) addr p y (erased addr s))
    (hb : addr+128*(n+1) ≤ 16777216) : Goes (advance now) (erasing addr x s)
      (callback (fine now) 0 (blockWritten (n+1) addr p (erased addr s)) y) := by
  refine goes_trans (erasing_goes h addr x) ?_
  rw [hx]
  exact pages_goes n addr p y (erased_quiet h addr) hb

def resume (now : ℕ) (cb : Option Cb) (s : Card) : Card := cb.elim s (callback (fine now) 0 s)

theorem later_goes (h : Quiet s) (cb : Option Cb) :
    Goes (advance now) (later cb 0 s) (resume now cb s) := by
  cases cb with
  | none => exact goes_refl _
  | some cb =>
    rw [show later (some cb) 0 s = { s with pending := [(cb,0)] } by simp [later, h.ended]]
    exact dispatch_goes cb h.ended

theorem sector_addr {k : ℕ} (h : k < s.geo.blocks) :
    k*s.geo.sector/512*512%16777216 = k*s.geo.sector ∧ k*s.geo.sector%s.geo.sector = 0 := by
  have h1 := s.geo.block_end h
  have h2 := s.geo.sector_ge
  have h3 := s.geo.sector_pages
  have h4 : k*s.geo.sector%512 = 0 :=
    Nat.mod_eq_zero_of_dvd (Nat.dvd_mul_left_of_dvd (by omega) k)
  exact ⟨by omega,Nat.mul_mod_left _ _⟩

def otherFat (s : Card) : ℕ := if s.currFat = 3 then 4 else 3

def otherDir (s : Card) : ℕ := if s.currDir = 1 then 2 else 1

def rounded (k : ℕ) (b : Bytes) (s : Card) : Card :=
  { s with
    cmdBlckCnt := 0, cmdSectorAddr := k*s.geo.sector+8192, cmdUsrBuf := .work k 8192,
    xferCb := none, eraseCb := none, cmd := ⟨.page,k*s.geo.sector+8064⟩, cmdRetries := 3,
    unlockCb := none, alarm := false,
    issued := s.issued++(⟨.erase,k*s.geo.sector⟩::pageCmds 64 (k*s.geo.sector)),
    flash := rewritten s.geo.sector (k*s.geo.sector) 8192 b s.flash,
    result := if s.apiCb.isNone then 0 else s.result }

def fatRound (s : Card) : Card :=
  { rounded s.currFat (newFat (fat s)) s with
    work := update (update s.work s.currFat (newFat (fat s))) (otherFat s)
      (newFat (fat s)),
    currFat := otherFat s }

def dirRound (s : Card) : Card :=
  { rounded s.currDir (newDir (dir s)) s with
    work := update (update s.work s.currDir (newDir (dir s))) (otherDir s)
      (newDir (dir s)),
    currDir := otherDir s }

theorem fatRound_quiet (h : Quiet s) : Quiet (fatRound s) := h.same rfl

theorem dirRound_quiet (h : Quiet s) : Quiet (dirRound s) := h.same rfl

theorem round_goes (now : ℕ) {k : ℕ} {v : Card} {x y : Cb} {c : Option Cb} (h : Quiet s)
    (hk : k < s.geo.blocks) (hx : callback (fine now) 0 (erased (k*s.geo.sector) s) x =
      paging 64 (k*s.geo.sector) (.work k 0) y (erased (k*s.geo.sector) s))
    (hy : callback (fine now) 0 (blockWritten 64 (k*s.geo.sector) (.work k 0)
      (erased (k*s.geo.sector) s)) y = later c 0 v) (hv : Quiet v) :
    sectorErase (k*s.geo.sector) x (fine now) s = (errorReady,erasing (k*s.geo.sector) x s) ∧
      Goes (advance now) (erasing (k*s.geo.sector) x s) (resume now c v) := by
  obtain ⟨ha,hm⟩ := sector_addr hk
  have he := s.geo.block_end hk
  have hg := s.geo.sector_ge
  refine ⟨?_,goes_trans (eraseWrite_goes now h hx (by omega)) ?_⟩
  · rw [sectorErase_quiet _ h hm, ha]
  · rw [hy]
    exact later_goes hv c

theorem updateFat_goes (now : ℕ) (h : Quiet s) (hc : s.currFat = 3 ∨ s.currFat = 4)
    (cb : Option Cb) :
    ∃ t, updateFat cb (fine now) s = (errorReady,t) ∧
      Goes (advance now) t (resume now cb (fatRound s)) := by
  have hb := s.geo.blocks_gt
  have hq : Quiet { setFat (newFat (fat s)) s with eraseCb := cb } := h.same rfl
  obtain ⟨he,hgo⟩ := round_goes now (x := .fatErase) (y := .fatWrite) (v := fatRound s) (c := cb) hq
    (show s.currFat < s.geo.blocks by omega) (by
      simp only [callback, fatEraseCallback, cardWrite_quiet _ (erased_quiet hq _)]
      rfl) (by
      obtain hc | hc := hc <;> cases hp : s.apiCb <;>
      simp [callback, fatWriteCallback, hc, hp, blockWritten, erased, setFat, setWork, finishErase,
        putUnlessApi, putCntrlBlock, fatRound, rounded, otherFat, rewritten, getBytes,
        bytesAt_zero, Ptr.add]) (fatRound_quiet h)
  refine ⟨_,?_,hgo⟩
  rw [updateFat, if_neg (by simp [h.attached])]
  exact he

theorem updateDir_goes (now : ℕ) (h : Quiet s) (hc : s.currDir = 1 ∨ s.currDir = 2)
    (cb : Option Cb) :
    ∃ t, updateDir cb (fine now) s = (errorReady,t) ∧
      Goes (advance now) t (resume now cb (dirRound s)) := by
  have hb := s.geo.blocks_gt
  have hq : Quiet { setDir (newDir (dir s)) s with eraseCb := cb } := h.same rfl
  obtain ⟨he,hgo⟩ := round_goes now (x := .dirErase) (y := .dirWrite) (v := dirRound s) (c := cb) hq
    (show s.currDir < s.geo.blocks by omega) (by
      simp only [callback, dirEraseCallback, cardWrite_quiet _ (erased_quiet hq _)]
      rfl) (by
      obtain hc | hc := hc <;> cases hp : s.apiCb <;>
      simp [callback, dirWriteCallback, hc, hp, blockWritten, erased, setDir, setWork, finishErase,
        putUnlessApi, putCntrlBlock, dirRound, rounded, otherDir, rewritten, getBytes,
        bytesAt_zero, Ptr.add]) (dirRound_quiet h)
  refine ⟨_,?_,hgo⟩
  rw [updateDir, if_neg (by simp [h.attached])]
  exact he

end Libogc.CardRounds
