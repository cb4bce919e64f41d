import Libogc.Card.ReadFile
import Libogc.Card.Recovery

/-!
# Writing a file

A call of `CARD_Write` whose transfers all succeed: the commands that the card
is given for the area of the files, and what stands there afterwards.
-/

set_option autoImplicit false

namespace Libogc.CardWriteFile
open List Nat
open ByteStore CardLayout CardControl CardCallbacks CardCalls CardSystem CardTransfer CardRounds
open CardFatLoops CardTables CardConsistency CardAccess CardReadFile RestingRun

variable {s t : Card} {now : ℕ} {l : List ℕ}

def dataLog (s t : Card) : List Command :=
  (t.issued.drop s.issued.length).filter fun c => sysArea*s.geo.sector ≤ c.addr

def blockCmds (g : Geometry) (b : ℕ) : List Command :=
  ⟨.erase,b*g.sector⟩::pageCmds (g.sector/128) (b*g.sector)

/-- The blocks `l` are rewritten one after the other with the memory at
`buffer`, and all other blocks of files are as they were. -/
structure Rewritten (s t : Card) (l : List ℕ) (buffer : ℕ) : Prop where
  log : dataLog s t = l.flatMap (blockCmds s.geo)
  bytes : ∀ j b, l[j]? = some b → ∀ x < s.geo.sector,
    t.flash (b*s.geo.sector+x) = s.mem (buffer+j*s.geo.sector+x)
  others : ∀ b x, sysArea ≤ b → b ∉ l → x < s.geo.sector →
    t.flash (b*s.geo.sector+x) = s.flash (b*s.geo.sector+x)

theorem pageCmds_addr {n a : ℕ} {c : Command} (h : c ∈ pageCmds n a) :
    a ≤ c.addr ∧ c.addr < a+128*n := by
  induction n generalizing a with
  | zero => exact absurd h (by simp [pageCmds])
  | succ n ih =>
    obtain rfl | h := mem_cons.mp h
    · exact ⟨le_refl _,by dsimp only; omega⟩
    · have := ih h
      omega

theorem pageCmds_length (n a : ℕ) : (pageCmds n a).length = n := by
  induction n generalizing a with
  | zero => rfl
  | succ n ih => rw [pageCmds, length_cons, ih]

theorem filter_above {l : List Command} {m : ℕ} (h : ∀ c ∈ l, m ≤ c.addr) :
    l.filter (fun c => m ≤ c.addr) = l :=
  filter_eq_self.mpr fun c hc => decide_eq_true (h c hc)

theorem filter_below {l : List Command} {m : ℕ} (h : ∀ c ∈ l, c.addr < m) :
    l.filter (fun c => m ≤ c.addr) = [] :=
  filter_eq_nil_iff.mpr fun c hc => by simpa using h c hc

def writeCall (a buffer n o b : ℕ) (s : Card) : Card :=
  { sought a n o b s with apiCb := some .sync, cmdUsrBuf := .user buffer }

def wrote (a buffer n o b : ℕ) (s : Card) : Card :=
  blockWritten (s.geo.sector/128) (b*s.geo.sector) (.user buffer)
    (erased (b*s.geo.sector) (writeCall a buffer n o b s))

variable {a i : ℕ} {c : ℕ → List ℕ}

section Wrote

variable (a buffer n o b : ℕ) (s : Card)

theorem wrote_dir : (wrote a buffer n o b s).currDir = s.currDir := rfl

theorem wrote_geo : (wrote a buffer n o b s).geo = s.geo := rfl

theorem wrote_issued : (wrote a buffer n o b s).issued = s.issued++blockCmds s.geo b :=
  append_assoc _ _ _

theorem wrote_flash : (wrote a buffer n o b s).flash = blit (bytesAt s.mem buffer) 0
    (b*s.geo.sector) (128*(s.geo.sector/128))
      (fill (b*s.geo.sector) s.geo.sector 255 s.flash) := rfl

end Wrote

theorem writeAsync_found (now : ℕ) (hg : Good s) (hr : s.result ≠ errorBusy)
    (hc : Owned s.geo (dir s) (fat s) c) (hi : isFile (dir s) i) (ho : OpenFile s a i (c i))
    (len offset : UInt32) {b : ℕ} (hlen : 0 < len.toNat ∧ len.toNat%s.geo.sector = 0)
    (hoff : offset.toNat%s.geo.sector = 0)
    (hin : offset.toNat+len.toNat ≤ (c i).length*s.geo.sector)
    (hb : (c i)[offset.toNat/s.geo.sector]? = some b) (buffer : ℕ) :
    writeAsync a buffer len offset (some .sync) (fine now) s = some (errorReady,
      erasing (b*s.geo.sector) .erase (writeCall a buffer len.toNat offset.toNat b s)) := by
  have hl := Owned.linked hc hi
  have hsize := hl.size
  have hq : Quiet (writeCall a buffer len.toNat offset.toNat b s) := hg.quiet.same rfl
  have hfile : ((sought a len.toNat offset.toNat b s).file a).iblock = b := by rw [sought_file]
  have hs := seek_found hg.quiet.attached hr hc hi ho hin hb
  obtain ⟨ha,hm⟩ := sector_addr (hl.area b (mem_of_getElem? hb)).2
  have he := sectorErase_quiet now hq hm .erase
  rw [ha] at he
  rw [writeAsync, s32_id (by omega) (by omega), s32_id (by omega) (by omega), hs]
  dsimp only
  rw [if_neg (by decide), if_neg (by decide), hfile,
    if_neg (by rw [show (sought a len.toNat offset.toNat b s).geo = s.geo from rfl]; omega)]
  change some (orPut (sectorErase (b*s.geo.sector) .erase (fine now)
    (writeCall a buffer len.toNat offset.toNat b s))) = _
  rw [he]
  rfl

theorem write_pages (g : Geometry) : ∃ n, g.sector/128 = n+1 ∧ 128*(n+1) = g.sector := by
  have hS := g.sector_ge
  have hp := g.sector_pages
  exact ⟨g.sector/128-1,by omega,by omega⟩

theorem block_goes (now buffer : ℕ) (hg : Good s) {n o b : ℕ} (hb : b < s.geo.blocks) :
    Goes (advance now) (erasing (b*s.geo.sector) .erase (writeCall a buffer n o b s))
      (writeCallback (fine now) 0 (wrote a buffer n o b s)) := by
  obtain ⟨m,hm,hm'⟩ := write_pages s.geo
  have hq : Quiet (writeCall a buffer n o b s) := hg.quiet.same rfl
  have hend := s.geo.block_end hb
  have hfile : ((writeCall a buffer n o b s).file a).iblock = b :=
    congrArg CardFile.iblock (sought_file a n o b s)
  have hx : callback (fine now) 0 (erased (b*s.geo.sector) (writeCall a buffer n o b s)) .erase =
      paging (m+1) (b*s.geo.sector) (.user buffer) .write
        (erased (b*s.geo.sector) (writeCall a buffer n o b s)) := by
    have hw := cardWrite_quiet now (erased_quiet hq (b*s.geo.sector)) (b*s.geo.sector)
      s.geo.sector (.user buffer) .write
    rw [hm] at hw
    change orElse (cardWrite (((writeCall a buffer n o b s).file a).iblock*s.geo.sector)
      s.geo.sector (.user buffer) .write (fine now) (erased (b*s.geo.sector)
      (writeCall a buffer n o b s))) finishApi = _
    rw [hfile, hw]
    rfl
  have hgo := eraseWrite_goes now hq hx (hm'.symm ▸ hend)
  rw [← hm] at hgo
  exact hgo

def stamped (now : ℕ) (v : Card) : Card :=
  { setDir (setWord (entry (v.file v.currFile).filenum.toNat+40) now (dir v))
      (setFile v.currFile { v.file v.currFile with
        len := s32 (v.geo.sector-(v.file v.currFile).len) } v) with apiCb := none }

theorem stamped_result (v : Card) : (dirRound (stamped now v)).result = errorReady := rfl

theorem stamped_round (now : ℕ) (v : Card) : (dirRound (stamped now v)).issued = v.issued++
      (⟨.erase,v.currDir*v.geo.sector⟩::pageCmds 64 (v.currDir*v.geo.sector)) ∧
    (dirRound (stamped now v)).flash = rewritten v.geo.sector (v.currDir*v.geo.sector) 8192
      (newDir (dir (stamped now v))) v.flash := ⟨rfl,rfl⟩

theorem writeCallback_last {v : Card} (h0 : ¬(v.file v.currFile).len < 0)
    (h1 : s32 (v.geo.sector-(v.file v.currFile).len) ≤ 0) : writeCallback (fine now) 0 v =
      orElse (updateDir v.apiCb (fine now) (stamped now v)) finishApi := by
  rw [writeCallback]
  rw [if_neg h0, if_pos h1]
  rfl

/-- One block is taken for the whole of the request. -/
theorem writeCallback_ends (now : ℕ) (hg : Good s) {n o b buffer : ℕ} (hn : s.geo.sector ≤ n)
    (hmax : n ≤ 16777216) : Goes (advance now) (writeCallback (fine now) 0 (wrote a buffer n o b s))
      (dirRound (stamped now (wrote a buffer n o b s))) := by
  have hlen : ((wrote a buffer n o b s).file (wrote a buffer n o b s).currFile).len = n :=
    congrArg CardFile.len (sought_file a n o b s)
  have hq : Quiet (stamped now (wrote a buffer n o b s)) := hg.quiet.same rfl
  obtain ⟨u,hu,hgo⟩ := updateDir_goes now hq hg.mounted.dir (some .sync)
  rw [writeCallback_last (by omega) (by
    rw [hlen, show (wrote a buffer n o b s).geo = s.geo from rfl, s32_id (by omega) (by omega)]
    omega), show (wrote a buffer n o b s).apiCb = some .sync from rfl, hu]
  exact hgo

theorem oneBlock_rewritten (now buffer : ℕ) (hm : Mounted s) {n o b : ℕ}
    (hb : inArea s.geo.blocks b) :
    Rewritten s (dirRound (stamped now (wrote a buffer n o b s))) [b] buffer := by
  have h5 : sysArea = 5 := rfl
  have hS := s.geo.sector_ge
  have hd := hm.dir
  obtain ⟨m,hm1,hm2⟩ := write_pages s.geo
  have hlow : ∀ k, k < sysArea → k*s.geo.sector+s.geo.sector ≤ sysArea*s.geo.sector := by
    intro k hk
    have := mul_le_mul_right s.geo.sector (succ_le_of_lt hk)
    rwa [succ_mul] at this
  have hdir := hlow s.currDir (by omega)
  have hhigh := mul_le_mul_right s.geo.sector hb.1
  obtain ⟨hissued,hflash⟩ := stamped_round now (wrote a buffer n o b s)
  rw [wrote_dir, wrote_geo, wrote_issued] at hissued
  rw [wrote_dir, wrote_geo, wrote_flash] at hflash
  -- the round of the directory does not reach the blocks of files
  have hfar : ∀ k x, sysArea ≤ k → (dirRound (stamped now (wrote a buffer n o b s))).flash
      (k*s.geo.sector+x) = blit (bytesAt s.mem buffer) 0 (b*s.geo.sector) s.geo.sector
        (fill (b*s.geo.sector) s.geo.sector 255 s.flash) (k*s.geo.sector+x) := by
    intro k x hk
    have hkS := mul_le_mul_right s.geo.sector hk
    rw [hflash, rewritten, blit_out (by omega), fill_out (by omega), hm1, hm2]
  constructor
  · have hfirst : ∀ cmd ∈ blockCmds s.geo b, sysArea*s.geo.sector ≤ cmd.addr := by
      intro cmd hcmd
      obtain rfl | hcmd := mem_cons.mp hcmd
      · exact hhigh
      · exact hhigh.trans (pageCmds_addr hcmd).1
    have hround : ∀ cmd ∈ (⟨.erase,s.currDir*s.geo.sector⟩ : Command)::pageCmds 64
        (s.currDir*s.geo.sector), cmd.addr < sysArea*s.geo.sector := by
      intro cmd hcmd
      obtain rfl | hcmd := mem_cons.mp hcmd
      · dsimp only
        omega
      · have := (pageCmds_addr hcmd).2
        omega
    rw [dataLog, hissued, append_assoc, drop_left, filter_append,
      filter_below hround, append_nil, flatMap_singleton]
    exact filter_above hfirst
  · intro j k hj x hx
    obtain ⟨rfl,rfl⟩ : j = 0 ∧ k = b := by
      cases j with
      | zero => exact ⟨rfl,by simpa using hj.symm⟩
      | succ j => simp at hj
    rw [hfar k x hb.1, blit_in (by omega), bytesAt, Nat.zero_mul, Nat.add_zero,
      Nat.add_sub_cancel_left, Nat.zero_add]
  · intro k x hk hkb hx
    have hne : k ≠ b := by simpa using hkb
    have := CardRecovery.sector_apart hne hx
    rw [hfar k x hk, blit_out (by omega), fill_out (by omega)]

theorem blocks_length (g : Geometry) (l : List ℕ) :
    (l.flatMap (blockCmds g)).length = l.length*(g.sector/128+1) := by
  induction l with
  | nil => simp
  | cons b l ih =>
    rw [flatMap_cons, length_append, blockCmds, length_cons, pageCmds_length,
      length_cons, succ_mul]
    omega

/-- `CARD_Write` rewrites the blocks of the request exactly when there is one. -/
theorem write_whole_iff (now : ℕ) (hg : Good s) (hr : s.result ≠ errorBusy)
    (hc : Owned s.geo (dir s) (fat s) c) (hi : isFile (dir s) i) (ho : OpenFile s a i (c i))
    (len offset : UInt32) {k : ℕ} (hk : 0 < k) (hlen : len.toNat = k*s.geo.sector)
    (hoff : offset.toNat%s.geo.sector = 0)
    (hin : offset.toNat+len.toNat ≤ (c i).length*s.geo.sector) (buffer : ℕ) :
    ∃ u t, writeAsync a buffer len offset (some .sync) (fine now) s = some (errorReady,u) ∧
      Rests (advance now) u t ∧ t.result = errorReady ∧
      (Rewritten s t (((c i).drop (offset.toNat/s.geo.sector)).take k) buffer ↔ k = 1) := by
  have hS := s.geo.sector_ge
  have hl := Owned.linked hc hi
  have hsize := hl.size
  have hSk : s.geo.sector ≤ len.toNat := by
    rw [hlen]
    exact Nat.le_mul_of_pos_left _ hk
  have hidx : offset.toNat/s.geo.sector < (c i).length :=
    (div_lt_iff_lt_mul (by omega)).mpr (by omega)
  obtain ⟨b,hb⟩ : ∃ b, (c i)[offset.toNat/s.geo.sector]? = some b :=
    ⟨_,getElem?_eq_getElem hidx⟩
  have hab := hl.area b (mem_of_getElem? hb)
  have hcall := writeAsync_found now hg hr hc hi ho len offset
    ⟨by omega,by rw [hlen]; exact mul_mod_left _ _⟩ hoff hin hb buffer
  have hgo := goes_trans (block_goes now buffer (a := a) (o := offset.toNat)
    hg hab.2) (writeCallback_ends now hg hSk (by omega))
  have hq : Quiet (dirRound (stamped now (wrote a buffer len.toNat offset.toNat b s))) :=
    dirRound_quiet (hg.quiet.same rfl)
  have hone := oneBlock_rewritten now buffer (a := a) (n := len.toNat) (o := offset.toNat)
    hg.mounted hab
  refine ⟨_,dirRound (stamped now (wrote a buffer len.toNat offset.toNat b s)),hcall,
    ⟨hgo,quiet_rests hq⟩,stamped_result _,?_⟩
  constructor
  · intro h
    have hlog := congrArg length (h.log.symm.trans hone.log)
    have hsum : offset.toNat/s.geo.sector*s.geo.sector+k*s.geo.sector ≤
        (c i).length*s.geo.sector := by
      have := div_mul_le_self offset.toNat s.geo.sector
      omega
    rw [← Nat.add_mul] at hsum
    have hle := Nat.le_of_mul_le_mul_right hsum (by omega)
    rw [blocks_length, blocks_length, length_take, length_drop,
      Nat.min_eq_left (by omega)] at hlog
    exact eq_of_mul_eq_mul_right (succ_pos _) hlog
  · rintro rfl
    rw [take_one, head?_drop, hb]
    exact hone

theorem write_whole_second : ∃ c, Owned twoBlockCard.geo (dir twoBlockCard) (fat twoBlockCard) c ∧
    ∃ u t, writeAsync 0 4096 8192 8192 (some .sync) (fine 7) twoBlockCard = some (errorReady,u) ∧
      Rests (advance 7) u t ∧
      Rewritten twoBlockCard t (((c 0).drop ((8192 : UInt32).toNat/twoBlockCard.geo.sector)).take 1)
        4096 := by
  obtain ⟨c,hc⟩ := twoBlockCard_good.consistent.owned
  obtain ⟨ho,h2,-⟩ := twoBlockCard_open hc
  obtain ⟨u,t,hcall,hrest,-,hiff⟩ := write_whole_iff 7 twoBlockCard_good (by decide) hc
    twoBlockCard_file ho 8192 8192 (k := 1) (by decide) (by decide) (by decide)
    (by rw [h2]; decide) 4096
  exact ⟨c,hc,u,t,hcall,hrest,hiff.mpr rfl⟩

/-- Both blocks are asked for, one is written, and success is reported. -/
theorem write_two_blocks_lost :
    ∃ c, Owned twoBlockCard.geo (dir twoBlockCard) (fat twoBlockCard) c ∧
    ∃ u t, writeAsync 0 4096 16384 0 (some .sync) (fine 7) twoBlockCard = some (errorReady,u) ∧
      Rests (advance 7) u t ∧ t.result = errorReady ∧
      dataLog twoBlockCard t = blockCmds twoBlockCard.geo 5 ∧
      ¬Rewritten twoBlockCard t (((c 0).drop 0).take 2) 4096 := by
  obtain ⟨c,hc⟩ := twoBlockCard_good.consistent.owned
  obtain ⟨ho,h2,h0⟩ := twoBlockCard_open hc
  have hin : (0 : UInt32).toNat+(16384 : UInt32).toNat ≤ (c 0).length*twoBlockCard.geo.sector := by
    rw [h2]
    decide
  have hcall := writeAsync_found 7 twoBlockCard_good (by decide) hc twoBlockCard_file ho
    16384 0 (by decide) (by decide) hin h0 4096
  have hgo := goes_trans (block_goes 7 4096 (a := 0) (n := 16384) (o := 0) (b := 5)
    twoBlockCard_good (by decide))
    (writeCallback_ends 7 twoBlockCard_good (by decide) (by decide))
  have hq : Quiet (dirRound (stamped 7 (wrote 0 4096 16384 0 5 twoBlockCard))) :=
    dirRound_quiet (twoBlockCard_quiet.same rfl)
  have hone := oneBlock_rewritten 7 4096 (a := 0) (n := 16384) (o := 0) (b := 5)
    twoBlockCard_good.mounted ⟨by decide,by decide⟩
  have hlog := hone.log
  refine ⟨c,hc,_,dirRound (stamped 7 (wrote 0 4096 16384 0 5 twoBlockCard)),hcall,
    ⟨hgo,quiet_rests hq⟩,stamped_result _,hlog,fun h => ?_⟩
  have hlen := congrArg length (h.log.symm.trans hone.log)
  rw [blocks_length, length_take, length_drop, h2] at hlen
  exact absurd hlen (by decide)

end Libogc.CardWriteFile
