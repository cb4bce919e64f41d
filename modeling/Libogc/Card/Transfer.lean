import Libogc.Card.System

/-!
# Transfers that succeed

The states a card goes through while an erase, the pages of a block or the
segments of a block are transferred and nothing is refused, and the states in
which the callback of the transfer is called.
-/

set_option autoImplicit false

namespace Libogc.CardTransfer
open ByteStore CardLayout CardControl CardCallbacks CardSystem RestingRun List Nat

structure Quiet (s : Card) : Prop where
  attached : s.attached = true
  unlocked : s.lock = none
  alone : s.waiters = []
  deselected : s.selected = false
  still : s.dma = none
  idle : s.armed = none
  handler : s.exiHandler = true
  ended : s.pending = []
  noTx : s.txCb = none
  noExi : s.exiCb = none

def channel (s : Card) :=
  (s.attached,s.lock,s.waiters,s.selected,s.dma,s.armed,s.exiHandler,s.pending,s.txCb,s.exiCb)

variable {s t : Card} {now : ℕ}

theorem Quiet.same (h : Quiet s) (e : channel t = channel s) : Quiet t := by
  simp only [channel, Prod.mk.injEq] at e
  obtain ⟨e1,e2,e3,e4,e5,e6,e7,e8,e9,e10⟩ := e
  exact ⟨e1.trans h.attached,e2.trans h.unlocked,e3.trans h.alone,e4.trans h.deselected,
    e5.trans h.still,e6.trans h.idle,e7.trans h.handler,e8.trans h.ended,e9.trans h.noTx,
    e10.trans h.noExi⟩

def plainCard : Card where
  geo := ⟨4,8192,by decide,by decide,by decide⟩
  attached := true
  result := 0
  work := fun _ _ => 0
  currDir := 1
  currFat := 3
  cmd := ⟨.none,0⟩
  cmdBlckCnt := 0
  cmdSectorAddr := 0
  cmdUsrBuf := .user 0
  cmdRetries := 0
  formatStep := 0
  currFileblock := 0
  currFile := 0
  extCb := none
  txCb := none
  exiCb := none
  apiCb := none
  xferCb := none
  eraseCb := none
  unlockCb := none
  file := fun _ => ⟨0,0,0,0,0⟩
  mem := fun _ => 0
  gamecode := fun _ => 255
  company := fun _ => 255
  lock := none
  waiters := []
  selected := false
  dma := none
  alarm := false
  exiHandler := true
  armed := none
  flash := fun _ => 255
  pending := []
  issued := []
  failed := false
  calls := []

theorem plainCard_quiet : Quiet plainCard := ⟨rfl,rfl,rfl,rfl,rfl,rfl,rfl,rfl,rfl,rfl⟩

theorem quiet_rests (h : Quiet s) : advance now s = none := by
  simp [advance, nextAction, h.ended, h.still, h.idle]

theorem dispatch_advance {cb : Cb} {ret : ℤ} (h : s.pending = [(cb,ret)]) :
    advance now s = some (callback (fine now) ret { s with pending := [] } cb) := by
  simp [advance, nextAction, step, dispatch, h]

theorem dispatch_goes (cb : Cb) {ret : ℤ} (h : s.pending = []) :
    Goes (advance now) { s with pending := [(cb,ret)] } (callback (fine now) ret s cb) := by
  refine goes_step (dispatch_advance rfl) ?_
  have hs : { s with pending := [] } = s := by rw [← h]
  simp only [hs]
  exact goes_refl _

def erasing (addr : ℕ) (cb : Cb) (s : Card) : Card :=
  { s with
    cmd := ⟨.erase,addr⟩, cmdRetries := 3, exiCb := some cb, unlockCb := none, alarm := true,
    issued := s.issued++[⟨.erase,addr⟩], armed := some (.erase addr) }

def erased (addr : ℕ) (s : Card) : Card :=
  { s with
    cmd := ⟨.erase,addr⟩, cmdRetries := 3, unlockCb := none, alarm := false,
    issued := s.issued++[⟨.erase,addr⟩], flash := fill addr s.geo.sector 255 s.flash }

theorem erased_quiet (h : Quiet s) (addr : ℕ) : Quiet (erased addr s) :=
  h.same rfl

theorem sectorErase_quiet (now : ℕ) (h : Quiet s) {sector : ℕ} (hs : sector%s.geo.sector = 0)
    (cb : Cb) :
    sectorErase sector cb (fine now) s = (errorReady, erasing (sector/512*512%16777216) cb s) := by
  simp [sectorErase, sectorEraseRaw, noted, hs, start, exiLock, exiSelect, exiUnlock, exiWake,
    letGo, setupTimeout, eraseIssued, issue, fine, erasing, h.unlocked, h.alone, h.deselected]

theorem erasing_goes (h : Quiet s) (addr : ℕ) (cb : Cb) :
    Goes (advance now) (erasing addr cb s) (callback (fine now) 0 (erased addr s) cb) := by
  have h1 : advance now (erasing addr cb s) =
      some { erased addr s with pending := [(cb,0)] } := by
    simp [advance, nextAction, step, erasing, erased, exiHandler, exiLock, exiUnlock, exiWake,
      worked, callExi, later, h.attached, h.unlocked, h.alone, h.still, h.idle, h.handler, h.ended,
      h.noExi]
  exact goes_step h1 (dispatch_goes cb h.ended)

def paging (n addr : ℕ) (buf : Ptr) (cb : Cb) (s : Card) : Card :=
  { s with
    cmdBlckCnt := n, cmdSectorAddr := addr, cmdUsrBuf := buf, xferCb := some cb,
    cmd := ⟨.page,addr%16777216⟩, cmdRetries := 3, exiCb := some .blockWrite, unlockCb := none,
    lock := some .card, selected := true, alarm := true,
    dma := some (⟨.page,addr%16777216⟩,buf), issued := s.issued++[⟨.page,addr%16777216⟩] }

def pageWritten (n addr : ℕ) (buf : Ptr) (cb : Cb) (s : Card) : Card :=
  { s with
    cmdBlckCnt := n, cmdSectorAddr := addr, cmdUsrBuf := buf, xferCb := some cb,
    cmd := ⟨.page,addr%16777216⟩, cmdRetries := 3, unlockCb := none, alarm := false,
    issued := s.issued++[⟨.page,addr%16777216⟩],
    flash := blit (getBytes s buf) 0 (addr%16777216) 128 s.flash }

theorem writePage_quiet (h : Quiet s) : writePage .blockWrite (fine now) s = (errorReady,
      { s with
        cmd := ⟨.page,s.cmdSectorAddr%16777216⟩, cmdRetries := 3, exiCb := some .blockWrite,
        unlockCb := none, lock := some .card, selected := true, alarm := true,
        dma := some (⟨.page,s.cmdSectorAddr%16777216⟩,s.cmdUsrBuf),
        issued := s.issued++[⟨.page,s.cmdSectorAddr%16777216⟩] }) := by
  simp [writePage, writePageRaw, noted, start, exiLock, exiSelect, setupTimeout, dmaIssued, issue,
    fine, h.unlocked, h.deselected]

theorem cardWrite_quiet (now : ℕ) (h : Quiet s) (addr len : ℕ) (buf : Ptr) (cb : Cb) :
    cardWrite addr len buf cb (fine now) s = (errorReady, paging (len/128) addr buf cb s) := by
  rw [cardWrite, if_neg (by simp [h.attached]), writePage_quiet]
  · rfl
  · exact h.same rfl

theorem paging_goes (h : Quiet s) (n addr : ℕ) (buf : Ptr) (cb : Cb) :
    Goes (advance now) (paging n addr buf cb s)
      (blockWriteCallback (fine now) 0 (pageWritten n addr buf cb s)) := by
  have h1 : advance now (paging n addr buf cb s) = some
      { paging n addr buf cb s with
        dma := none, lock := none, selected := false,
        armed := some (.program (addr%16777216) (getBytes s buf)) } := by
    have hg : getBytes { paging n addr buf cb s with dma := none } buf = getBytes s buf := by
      cases buf <;> rfl
    simp [advance, nextAction, step, paging, txHandler, transferred, letGo, exiUnlock, exiWake,
      h.alone, h.ended, h.noTx] at hg ⊢
    exact hg
  have h2 : advance now { paging n addr buf cb s with
        dma := none, lock := none, selected := false,
        armed := some (.program (addr%16777216) (getBytes s buf)) } =
      some { pageWritten n addr buf cb s with pending := [(.blockWrite,0)] } := by
    simp [advance, nextAction, step, paging, pageWritten, exiHandler, exiLock, exiUnlock, exiWake,
      worked, callExi, later, h.attached, h.unlocked, h.alone, h.still, h.idle, h.handler, h.ended,
      h.noExi, h.deselected]
  exact goes_step h1 (goes_step h2 (dispatch_goes .blockWrite h.ended))

def pageCmds : ℕ → ℕ → List Command
  | 0, _ => []
  | n+1, a => ⟨.page,a⟩::pageCmds n (a+128)

def blockWritten (n addr : ℕ) (buf : Ptr) (s : Card) : Card :=
  { s with
    cmdBlckCnt := 0, cmdSectorAddr := addr+128*n, cmdUsrBuf := buf.add (128*n), xferCb := none,
    cmd := ⟨.page,addr+128*(n-1)⟩, cmdRetries := 3, unlockCb := none, alarm := false,
    issued := s.issued++pageCmds n addr, flash := blit (getBytes s buf) 0 addr (128*n) s.flash,
    result := if s.apiCb.isNone then 0 else s.result }

theorem pageWritten_quiet (h : Quiet s) (n addr : ℕ) (buf : Ptr) (cb : Cb) :
    Quiet (pageWritten n addr buf cb s) :=
  h.same rfl

theorem ptr_add_add (p : Ptr) (m n : ℕ) : (p.add m).add n = p.add (m+n) := by
  cases p <;> simp [Ptr.add, Nat.add_assoc]

theorem getBytes_add (s : Card) (p : Ptr) (n : ℕ) :
    getBytes s (p.add n) = bytesAt (getBytes s p) n := by
  cases p <;> (funext i; simp [Ptr.add, getBytes, bytesAt, Nat.add_assoc])

theorem getBytes_congr (hw : t.work = s.work) (hm : t.mem = s.mem) (p : Ptr) :
    getBytes t p = getBytes s p := by
  cases p <;> simp [getBytes, hw, hm]

theorem dec32_succ {n : ℕ} (h : n < 4294967295) : dec32 (n+1) = n := by
  unfold dec32
  omega

variable (n addr : ℕ) (buf : Ptr) (a : ℕ) (cb : Cb)

theorem one_more (c n : ℕ) : a+c+c*n = a+c*(n+1) := by
  rw [mul_succ, Nat.add_assoc, Nat.add_comm c]

theorem pages_first (hb : addr+128*(n+1+1) ≤ 16777216) :
    blockWritten (n+1) (addr+128) (buf.add 128) (pageWritten (n+1+1) addr buf cb s) =
      blockWritten (n+1+1) addr buf s := by
  have hd : getBytes (pageWritten (n+1+1) addr buf cb s) (buf.add 128) =
      bytesAt (getBytes s buf) 128 := by
    rw [getBytes_add, getBytes_congr (t := pageWritten (n+1+1) addr buf cb s) (s := s) rfl rfl]
  have hf := blit_append (b := s.flash) (getBytes s buf) 0 addr 128 (128*(n+1))
  have ha := one_more addr 128 (n+1)
  have hl : addr+128+128*(n+1-1) = addr+128*(n+1+1-1) := one_more addr 128 n
  have hn : 128+128*(n+1) = 128*(n+1+1) := by omega
  unfold blockWritten
  rw [hd, blit_bytesAt]
  simp only [pageWritten, ptr_add_add, pageCmds, append_assoc, singleton_append,
    mod_eq_of_lt (show addr < 16777216 by omega), ha, hl, hn] at hf ⊢
  rw [hf]

/-- The pages of a block, by induction on how many are left. -/
theorem pages_goes (h : Quiet s) (hb : addr+128*(n+1) ≤ 16777216) :
    Goes (advance now) (paging (n+1) addr buf cb s)
      (callback (fine now) 0 (blockWritten (n+1) addr buf s) cb) := by
  induction n generalizing addr buf s with
  | zero =>
    refine goes_trans (paging_goes h 1 addr buf cb) ?_
    have h1 : blockWriteCallback (fine now) 0 (pageWritten 1 addr buf cb s) =
        { blockWritten 1 addr buf s with pending := [(cb,0)] } := by
      have hm : addr%16777216 = addr := mod_eq_of_lt (by omega)
      simp only [blockWriteCallback, pageWritten, blockWritten, dec32, finishXfer, putUnlessApi,
        putCntrlBlock, later, h.attached, h.ended, hm, pageCmds]
      cases hc : s.apiCb <;> simp
    rw [h1]
    exact dispatch_goes cb h.ended
  | succ n ih =>
    refine goes_trans (paging_goes h (n+1+1) addr buf cb) ?_
    have hq := pageWritten_quiet h (n+1+1) addr buf cb
    have h1 : blockWriteCallback (fine now) 0 (pageWritten (n+1+1) addr buf cb s) =
        paging (n+1) (addr+128) (buf.add 128) cb (pageWritten (n+1+1) addr buf cb s) := by
      have hd : dec32 (n+1+1) = n+1 := dec32_succ (by omega)
      rw [blockWriteCallback]
      simp only [pageWritten, hd]
      rw [writePage_quiet (by exact h.same rfl)]
      rfl
    rw [h1, ← pages_first n addr buf cb hb]
    exact ih (addr+128) (buf.add 128) hq (by omega)

def segmenting (n addr a : ℕ) (cb : Cb) (s : Card) : Card :=
  { s with
    cmdBlckCnt := n, cmdSectorAddr := addr, cmdUsrBuf := .user a, xferCb := some cb,
    cmd := ⟨.segment,addr%16777216⟩, cmdRetries := 0, txCb := some .blockRead, unlockCb := none,
    lock := some .card, selected := true, alarm := false,
    dma := some (⟨.segment,addr%16777216⟩,.user a), issued := s.issued++[⟨.segment,addr%16777216⟩] }

def segmentRead (n addr a : ℕ) (cb : Cb) (s : Card) : Card :=
  { s with
    cmdBlckCnt := n, cmdSectorAddr := addr, cmdUsrBuf := .user a, xferCb := some cb,
    cmd := ⟨.segment,addr%16777216⟩, cmdRetries := 0, unlockCb := none, alarm := false,
    issued := s.issued++[⟨.segment,addr%16777216⟩],
    mem := blit s.flash (addr%16777216) a 512 s.mem }

theorem readSegment_quiet (h : Quiet s) : readSegment .blockRead (fine now) s = (errorReady,
      { s with
        cmd := ⟨.segment,s.cmdSectorAddr%16777216⟩, cmdRetries := 0, txCb := some .blockRead,
        unlockCb := none, lock := some .card, selected := true, alarm := false,
        dma := some (⟨.segment,s.cmdSectorAddr%16777216⟩,s.cmdUsrBuf),
        issued := s.issued++[⟨.segment,s.cmdSectorAddr%16777216⟩] }) := by
  simp [readSegment, readSegmentRaw, noted, start, exiLock, exiSelect, setupTimeout, dmaIssued,
    issue, fine, h.unlocked, h.deselected]

theorem cardRead_quiet (now : ℕ) (h : Quiet s) (addr len a : ℕ) (cb : Cb) :
    cardRead addr len (.user a) cb (fine now) s =
      (errorReady, segmenting (len/512) addr a cb s) := by
  rw [cardRead, readSegment_quiet]
  · rfl
  · exact h.same rfl

theorem segmenting_goes (h : Quiet s) (n addr a : ℕ) (cb : Cb) :
    Goes (advance now) (segmenting n addr a cb s)
      (blockReadCallback (fine now) 0 (segmentRead n addr a cb s)) := by
  have h1 : advance now (segmenting n addr a cb s) =
      some { segmentRead n addr a cb s with pending := [(.blockRead,0)] } := by
    simp [advance, nextAction, step, segmenting, segmentRead, txHandler, transferred, putBytes,
      letGo, exiUnlock, exiWake, later, fine, h.alone, h.ended, h.noTx, h.unlocked, h.still,
      h.deselected, blit_bytesAt]
  exact goes_step h1 (dispatch_goes .blockRead h.ended)

def segmentCmds : ℕ → ℕ → List Command
  | 0, _ => []
  | n+1, a => ⟨.segment,a⟩::segmentCmds n (a+512)

def blockFetched (n addr a : ℕ) (s : Card) : Card :=
  { s with
    cmdBlckCnt := 0, cmdSectorAddr := addr+512*n, cmdUsrBuf := .user (a+512*n), xferCb := none,
    cmd := ⟨.segment,addr+512*(n-1)⟩, cmdRetries := 0, unlockCb := none, alarm := false,
    issued := s.issued++segmentCmds n addr, mem := blit s.flash addr a (512*n) s.mem,
    result := if s.apiCb.isNone then 0 else s.result }

theorem segments_first (hb : addr+512*(n+1+1) ≤ 16777216) :
    blockFetched (n+1) (addr+512) (a+512) (segmentRead (n+1+1) addr a cb s) =
      blockFetched (n+1+1) addr a s := by
  have hf := blit_append (b := s.mem) s.flash addr a 512 (512*(n+1))
  have ha := one_more addr 512 (n+1)
  have hu := one_more a 512 (n+1)
  have hl : addr+512+512*(n+1-1) = addr+512*(n+1+1-1) := one_more addr 512 n
  have hn : 512+512*(n+1) = 512*(n+1+1) := (Nat.add_comm _ _).trans (mul_succ 512 (n+1)).symm
  unfold blockFetched
  simp only [segmentRead, segmentCmds, append_assoc, singleton_append,
    mod_eq_of_lt (show addr < 16777216 by omega), ha, hu, hl, hn] at hf ⊢
  rw [hf]

theorem segments_goes (now : ℕ) (n addr a : ℕ) (cb : Cb) (h : Quiet s)
    (hb : addr+512*(n+1) ≤ 16777216) :
    Goes (advance now) (segmenting (n+1) addr a cb s)
      (callback (fine now) 0 (blockFetched (n+1) addr a s) cb) := by
  induction n generalizing addr a s with
  | zero =>
    refine goes_trans (segmenting_goes h 1 addr a cb) ?_
    have h1 : blockReadCallback (fine now) 0 (segmentRead 1 addr a cb s) =
        { blockFetched 1 addr a s with pending := [(cb,0)] } := by
      have hm : addr%16777216 = addr := mod_eq_of_lt (by omega)
      simp only [blockReadCallback, segmentRead, blockFetched, dec32, finishXfer, putUnlessApi,
        putCntrlBlock, later, h.attached, h.ended, hm, segmentCmds, Ptr.add]
      cases hc : s.apiCb <;> simp
    rw [h1]
    exact dispatch_goes cb h.ended
  | succ n ih =>
    refine goes_trans (segmenting_goes h (n+1+1) addr a cb) ?_
    have h1 : blockReadCallback (fine now) 0 (segmentRead (n+1+1) addr a cb s) =
        segmenting (n+1) (addr+512) (a+512) cb (segmentRead (n+1+1) addr a cb s) := by
      have hd : dec32 (n+1+1) = n+1 := dec32_succ (by omega)
      rw [blockReadCallback]
      simp only [segmentRead, hd]
      rw [readSegment_quiet (by exact h.same rfl)]
      rfl
    rw [h1, ← segments_first n addr a cb hb]
    exact ih (addr+512) (a+512) (h.same rfl) ((one_more addr 512 (n+1)).trans_le hb)

end Libogc.CardTransfer
