import Mathlib.Data.List.Perm.Subperm
import Libogc.Library.GuardedReach
import Libogc.Card.Entries
import Libogc.Card.Format

/-!
# The file system stays consistent

Creating and deleting files, by calls whose transfers all succeed, on a card
that has been formatted.
-/

set_option autoImplicit false

namespace Libogc.CardConsistency
open List Function Nat
open ByteStore CardLayout CardControl CardCallbacks CardCalls CardSystem CardTransfer CardRounds
open CardFatLoops CardTables CardEntries CardFormat RestingRun GuardedReach LinkedChain

variable {s t : Card} {now : ℕ}

structure Mounted (s : Card) : Prop where
  dir : s.currDir = 1 ∨ s.currDir = 2
  fat : s.currFat = 3 ∨ s.currFat = 4

def ConsistentCard (s : Card) : Prop := Consistent s.geo (dir s) (fat s)

structure Good (s : Card) : Prop where
  quiet : Quiet s
  mounted : Mounted s
  consistent : ConsistentCard s

def tables (s : Card) := (s.geo,s.work,s.currDir,s.currFat)

theorem Mounted.same (h : Mounted s) (e : tables t = tables s) : Mounted t := by
  simp only [tables, Prod.mk.injEq] at e
  obtain ⟨-,-,e3,e4⟩ := e
  exact ⟨e3 ▸ h.dir,e4 ▸ h.fat⟩

theorem ConsistentCard.same (h : ConsistentCard s) (e : tables t = tables s) :
    ConsistentCard t := by
  simp only [tables, Prod.mk.injEq] at e
  obtain ⟨e1,e2,e3,e4⟩ := e
  unfold ConsistentCard dir fat at *
  rw [e1, e2, e3, e4]
  exact h

theorem Good.same (h : Good s) (hc : channel t = channel s) (ht : tables t = tables s) : Good t :=
  ⟨h.quiet.same hc,h.mounted.same ht,h.consistent.same ht⟩

theorem putCntrlBlock_same (ret : ℤ) (s : Card) :
    channel (putCntrlBlock ret s) = channel s ∧ tables (putCntrlBlock ret s) = tables s := by
  unfold putCntrlBlock
  split
  · exact ⟨rfl,rfl⟩
  · split <;> exact ⟨rfl,rfl⟩

theorem Good.put (h : Good s) (ret : ℤ) : Good (putCntrlBlock ret s) :=
  h.same (putCntrlBlock_same ret s).1 (putCntrlBlock_same ret s).2

/-! The tables of the state after a round. -/

theorem otherDir_ne (s : Card) : otherDir s ≠ s.currDir ∧ (otherDir s = 1 ∨ otherDir s = 2) := by
  unfold otherDir
  split <;> omega

theorem otherFat_ne (s : Card) : otherFat s ≠ s.currFat ∧ (otherFat s = 3 ∨ otherFat s = 4) := by
  unfold otherFat
  split <;> omega

theorem dirRound_mounted (h : Mounted s) : Mounted (dirRound s) := ⟨(otherDir_ne s).2,h.fat⟩

theorem fatRound_mounted (h : Mounted s) : Mounted (fatRound s) := ⟨h.dir,(otherFat_ne s).2⟩

theorem dir_dirRound (s : Card) : dir (dirRound s) = newDir (dir s) :=
  update_self _ _ _

theorem fat_fatRound (s : Card) : fat (fatRound s) = newFat (fat s) :=
  update_self _ _ _

theorem fat_dirRound (h : Mounted s) : fat (dirRound s) = fat s := by
  have h1 := h.fat
  have h2 := h.dir
  have h3 := (otherDir_ne s).2
  simp only [fat, dirRound, rounded]
  rw [update_of_ne (by omega), update_of_ne (by omega)]

theorem dir_fatRound (h : Mounted s) : dir (fatRound s) = dir s := by
  have h1 := h.fat
  have h2 := h.dir
  have h3 := (otherFat_ne s).2
  simp only [dir, fatRound, rounded]
  rw [update_of_ne (by omega), update_of_ne (by omega)]

theorem dir_setDir (d : Bytes) (s : Card) : dir (setDir d s) = d :=
  update_self _ _ _

theorem fat_setFat (f : Bytes) (s : Card) : fat (setFat f s) = f :=
  update_self _ _ _

theorem fat_setDir (h : Mounted s) (d : Bytes) : fat (setDir d s) = fat s := by
  have h1 := h.fat
  have h2 := h.dir
  simp only [fat, setDir, setWork]
  rw [update_of_ne (by omega)]

theorem dir_setFat (h : Mounted s) (f : Bytes) : dir (setFat f s) = dir s := by
  have h1 := h.fat
  have h2 := h.dir
  simp only [dir, setFat, setWork]
  rw [update_of_ne (by omega)]

/-! Allocation and release with the round that follows. -/

/-- The table with the blocks `l` linked and `c` as the last block tried. -/
def allocated (l : List ℕ) (c : ℕ) (f : Bytes) : Bytes :=
  setHalf 8 c (setHalf 6 ((freeBlocks (link none l f)+65536-l.length%65536)%65536) (link none l f))

variable {l : List ℕ} {i n : ℕ}

theorem allocBlock_goes (now : ℕ) (hq : Quiet s) (hm : Mounted s)
    (hf : freeBlocks (fat s) = zeroWords s.geo.blocks (fat s)) (hn : n ≤ freeBlocks (fat s))
    (cb : Cb) : ∃ l c u, l.length = n ∧ l.Nodup ∧ (∀ k ∈ l, inArea s.geo.blocks k) ∧
      (∀ k ∈ l, fatWord (fat s) k = 0) ∧ allocBlock n cb (fine now) s = (errorReady,u) ∧
      Goes (advance now) u (resume now (some cb)
        (fatRound { setFat (allocated l c (fat s)) s with currFileblock := l.headD 65535 })) := by
  have h5 : sysArea = 5 := rfl
  have hb := s.geo.blocks_le
  have hs := s.geo.blocks_gt
  have hperm := ahead_perm hb (by omega) (lastAlloc (fat s))
  have hnd := hperm.nodup_iff.mpr nodup_range'
  obtain ⟨l,c,hl,hsub,hfree,heq⟩ := allocLoop_links (by omega) hb
    (s.geo.blocks-sysArea) n (lastAlloc (fat s)) none 65535 0 hnd (by simp) (fun _ => rfl)
    (by rw [hperm.countP_eq]; exact hn.trans hf.le)
  have hq' : Quiet { setFat (allocated l c (fat s)) s with currFileblock := l.headD 65535 } :=
    hq.same rfl
  obtain ⟨u,hu,hgo⟩ := updateFat_goes now hq' hm.fat (some cb)
  refine ⟨l,c,u,hl,hnd.sublist hsub,?_,hfree,?_,hgo⟩
  · intro k hk
    exact mem_area.mp (hperm.mem_iff.mp (hsub.subset hk))
  · rw [allocBlock, if_neg (by simp [hq.attached]), if_neg (by omega), heq]
    simp only [allocated, hl] at hu
    exact hu

variable {k : ℕ} {name : CStr} {cb : Option Cb}

theorem freeBlock_goes (now : ℕ) (hq : Quiet s) (hm : Mounted s)
    (hc : Chain (fatNext (fat s)) (some k) (k::l)) (hn : (k::l).Nodup)
    (ha : ∀ j ∈ k::l, inArea s.geo.blocks j) (cb : Option Cb) :
    ∃ u, freeBlock k cb (fine now) s = (errorReady,u) ∧
      Goes (advance now) u (resume now cb (fatRound (setFat (clearAll (k::l) (fat s)) s))) := by
  have h5 : sysArea = 5 := rfl
  obtain ⟨hkl,hn'⟩ := nodup_cons.mp hn
  have ha' : ∀ j ∈ l, inArea s.geo.blocks j := fun j hj => ha j (mem_cons_of_mem k hj)
  -- the first word is cleared before the loop, which leaves the rest of the chain
  have hc' : Chain (fatNext (clearWord k (fat s))) (nextOf (fatWord (fat s) k)) l := by
    refine hc.tail.congr ?_
    intro j hj
    have hjk : j ≠ k := fun he => hkl (he ▸ hj)
    rw [fatNext, fatNext, clearWord_word _ (ha' j hj).1, if_neg hjk]
  have hlen : l.length < s.geo.blocks := by
    have hsub : l ⊆ range' sysArea (s.geo.blocks-sysArea) :=
      fun j hj => mem_area.mpr (ha' j hj)
    have hle := (subperm_of_subset hn' hsub).length_le
    rw [length_range'] at hle
    have := s.geo.blocks_gt
    omega
  have hq' : Quiet (setFat (clearAll (k::l) (fat s)) s) := hq.same rfl
  obtain ⟨u,hu,hgo⟩ := updateFat_goes now hq' hm.fat cb
  refine ⟨u,?_,hgo⟩
  rw [freeBlock, if_neg (by simp [hq.attached]), freeLoop_clears hc' hn' ha' hlen]
  exact hu

/-! What the tables hold after a file has been created or deleted. -/

variable {g : Geometry} {d f : Bytes}

theorem allocated_word (l : List ℕ) (c : ℕ) (f : Bytes) (hk : sysArea ≤ k) :
    fatWord (allocated l c f) k = fatWord (link none l f) k := by
  rw [allocated, fatWord_setHalf _ _ hk (by decide), fatWord_setHalf _ _ hk (by decide)]

theorem allocated_free (c : ℕ) {f : Bytes} (hl : ∀ k ∈ l, sysArea ≤ k)
    (hn : l.length ≤ freeBlocks f) : freeBlocks (allocated l c f) = freeBlocks f-l.length := by
  have hf : freeBlocks f < 65536 := half_lt f 6
  have hk : freeBlocks (link none l f) = freeBlocks f := half_link (by decide) (by simp) hl
  rw [freeBlocks, allocated, half_setHalf_ne _ (by decide),
    half_setHalf_same _ (mod_lt _ (by decide))]
  omega

theorem consistent_created (h : Consistent g d f) {c now : ℕ}
    (gamecode company : Bytes) (hi : i < maxFiles) (hu : used d i = false)
    (hname : name.len ≤ fileNameLen) (hln : l.length = n) (hn0 : 0 < n) (hn : n ≤ freeBlocks f)
    (hnd : l.Nodup) (ha : ∀ k ∈ l, inArea g.blocks k) (hz : ∀ k ∈ l, fatWord f k = 0) :
    Consistent g (newDir (createdEntry gamecode company (l.headD 65535) now (entry i)
      (namedEntry name n i d))) (newFat (allocated l c f)) := by
  obtain ⟨chains,hc⟩ := h.owned
  have hb := g.blocks_le
  have hwl : ∀ k, inArea g.blocks k →
      fatWord (newFat (allocated l c f)) k = fatWord (link none l f) k := by
    intro k hk
    rw [newFat_word _ hk.1, allocated_word l c f hk.1]
  obtain ⟨a,l',rfl⟩ : ∃ a l', l = a::l' := by
    cases l with
    | nil => simp at hln; omega
    | cons a l' => exact ⟨a,l',rfl⟩
  have haa := ha a mem_cons_self
  have ha1 := haa.2
  have hnew := @newDir_sameEntry (createdEntry gamecode company a now (entry i)
    (namedEntry name n i d))
  refine ⟨⟨_,hc.create hi hu ?_ ?_ ?_ ?_ hnd ha hz ?_ ?_⟩,?_⟩
  · exact (hnew hi).1.trans (createdEntry_used gamecode company a now i)
  · exact (hnew hi).2.1.trans (createdEntry_block gamecode company a now i (by omega))
  · have hlt : freeBlocks f < 65536 := half_lt f 6
    rw [hln]
    exact (hnew hi).2.2.trans ((createdEntry_length gamecode company a now i).trans
      (namedEntry_length name i d hname (by omega)))
  · intro j hj hji
    obtain ⟨e1,e2,e3⟩ := hnew hj
    obtain ⟨c1,c2,c3⟩ := createdEntry_other gamecode company a now
      hji
    obtain ⟨n1,n2,n3⟩ := namedEntry_other name n d hname hji
    exact ⟨e1.trans (c1.trans n1),e2.trans (c2.trans n2),e3.trans (c3.trans n3)⟩
  · refine (link_chain (f := f) hnd (fun k hk => ?_)).congr ?_
    · have := (ha k (mem_cons_of_mem a hk)).2
      omega
    · intro k hk
      rw [fatNext, fatNext, hwl k (ha k hk)]
  · intro k hk hkl
    rw [hwl k hk]
    exact link_frame (by simp) hkl
  · have hcount := zeroWords_link (p := none) hnd ha hb (by simp) hz
    rw [newFat_free, allocated_free c (fun k hk => (ha k hk).1) (by omega), zeroWords_congr hwl,
      h.free]
    omega

theorem consistent_deleted (h : Consistent g d f) {c : ℕ → List ℕ} (hc : Owned g d f c)
    (hi : isFile d i) :
    Consistent g (newDir (fill (entry i) 64 255 d)) (newFat (clearAll (c i) f)) := by
  have hw : ∀ k, inArea g.blocks k →
      fatWord (newFat (clearAll (c i) f)) k = if k ∈ c i then 0 else fatWord f k := by
    intro k hk
    rw [newFat_word _ hk.1, clearAll_word hk.1]
  have hnew := @newDir_sameEntry (fill (entry i) 64 255 d)
  refine ⟨⟨c,hc.delete hi ?_ ?_ hw⟩,?_⟩
  · exact (hnew hi.1).1.trans (deletedEntry_used i)
  · intro j hj hji
    obtain ⟨e1,e2,e3⟩ := hnew hj
    obtain ⟨d1,d2,d3⟩ := deletedEntry_other hji
    exact ⟨e1.trans d1,e2.trans d2,e3.trans d3⟩
  · have harea := hc.area i hi
    have hcount := zeroWords_clearAll (hc.nodup i hi) harea
      (fun k hk => chain_word (hc.chain i hi) harea hk)
    have hle := zeroWords_le g.blocks (clearAll (c i) f)
    have hb := g.blocks_le
    rw [newFat_free, clearAll_free (fun k hk => (harea k hk).1), h.free, ← hcount,
      zeroWords_congr (fun k hk => newFat_word _ hk.1)]
    exact mod_eq_of_lt (by omega)

/-! The calls. -/

theorem Good.rests (h : Good s) : Rests (advance now) s s := ⟨goes_refl s,quiet_rests h.quiet⟩

theorem freeEntry_ok {clash : ℕ → Bool} (h : freeEntry d clash = .ok i) :
    i < maxFiles ∧ used d i = false := by
  unfold freeEntry at h
  split at h
  · exact absurd h (by simp)
  · split at h
    · exact absurd h (by simp)
    · rename_i j hj
      obtain rfl : j = i := by simpa using h
      have h1 := find?_some hj
      have h2 := mem_of_find?_eq_some hj
      exact ⟨mem_range.mp h2,by simpa using h1⟩

def reserved (chn : ℤ) (name : CStr) (n i a : ℕ) (s : Card) : Card :=
  setFile a { s.file a with chn := chn, filenum := i }
    (setDir (namedEntry name n i (dir s)) { s with apiCb := some .sync, currFile := a })

def completed (now : ℕ) (s : Card) : Card :=
  setFile s.currFile { s.file s.currFile with offset := 0, iblock := s.currFileblock }
    (setDir (createdEntry s.gamecode s.company s.currFileblock now
      (entry (s.file s.currFile).filenum.toNat) (dir s)) { s with apiCb := none })

theorem completed_mounted (h : Mounted s) : Mounted (completed now s) := ⟨h.dir,h.fat⟩

theorem dir_completed (s : Card) : dir (completed now s) = createdEntry s.gamecode s.company
    s.currFileblock now (entry (s.file s.currFile).filenum.toNat) (dir s) :=
  update_self _ _ _

theorem fat_completed (h : Mounted s) : fat (completed now s) = fat s := fat_setDir h _

theorem createFat_goes (now : ℕ) (hq : Quiet s) (hm : Mounted s) :
    Goes (advance now) (createFatCallback (fine now) s)
      (resume now s.apiCb (dirRound (completed now s))) := by
  obtain ⟨u,hu,hgo⟩ := updateDir_goes now
    (show Quiet (completed now s) from hq.same rfl) (completed_mounted hm).dir s.apiCb
  have hcb : createFatCallback (fine now) s = u := by
    have he : createFatCallback (fine now) s = orElse (updateDir s.apiCb (fine now)
        (completed now s)) (fun ret t => later s.apiCb ret (putCntrlBlock ret t)) := rfl
    rw [he, hu]
    rfl
  exact hcb ▸ hgo

theorem created_rests (hq : Quiet s) (hm : Mounted s) {chn : ℤ} {a block : ℕ}
    {f : Bytes} {u : Card} (hgo : Goes (advance now) u (resume now (some .createFat)
      (fatRound { setFat f (reserved chn name n i a s) with currFileblock := block }))) :
    ∃ t, Rests (advance now) u t ∧ Quiet t ∧ Mounted t ∧ t.result = 0 ∧
      (t.geo = s.geo ∧ fat t = newFat f ∧ t.gamecode = s.gamecode ∧ t.company = s.company) ∧
      dir t = newDir (createdEntry s.gamecode s.company block now (entry i)
        (namedEntry name n i (dir s))) := by
  have hrm : Mounted (reserved chn name n i a s) := ⟨hm.dir,hm.fat⟩
  have hdir : dir (reserved chn name n i a s) = namedEntry name n i (dir s) :=
    update_self _ _ _
  have hfile : (reserved chn name n i a s).file a = { s.file a with chn := chn, filenum := i } :=
    update_self _ _ _
  generalize hv :
    ({ setFat f (reserved chn name n i a s) with currFileblock := block } : Card) = v at hgo
  have hvq : Quiet v := hv ▸ hq.same rfl
  have hvm : Mounted v := hv ▸ ⟨hm.dir,hm.fat⟩
  have hvd : dir v = namedEntry name n i (dir s) := hv ▸ (dir_setFat hrm _).trans hdir
  have hvf : fat v = f := hv ▸ update_self _ _ _
  obtain ⟨hapi,hblock,hgc,hco,hgeo⟩ : v.apiCb = some .sync ∧ v.currFileblock = block ∧
      v.gamecode = s.gamecode ∧ v.company = s.company ∧ v.geo = s.geo := hv ▸ ⟨rfl,rfl,rfl,rfl,rfl⟩
  have hvi : (v.file v.currFile).filenum = i := hv ▸ congrArg CardFile.filenum hfile
  have hgo2 := createFat_goes now (fatRound_quiet hvq) (fatRound_mounted hvm)
  rw [show (fatRound v).apiCb = some .sync from hapi] at hgo2
  have hcd : dir (completed now (fatRound v)) =
      createdEntry s.gamecode s.company block now (entry i) (namedEntry name n i (dir s)) := by
    rw [dir_completed, dir_fatRound hvm, hvd, show (fatRound v).gamecode = s.gamecode from hgc,
      show (fatRound v).company = s.company from hco,
      show (fatRound v).currFileblock = block from hblock,
      show ((fatRound v).file (fatRound v).currFile).filenum = i from hvi]
    rfl
  have hq' : Quiet (dirRound (completed now (fatRound v))) :=
    dirRound_quiet ((fatRound_quiet hvq).same rfl)
  have hcm : Mounted (completed now (fatRound v)) := completed_mounted (fatRound_mounted hvm)
  refine ⟨dirRound (completed now (fatRound v)),⟨goes_trans hgo hgo2,quiet_rests hq'⟩,hq',
    dirRound_mounted hcm,rfl,⟨hgeo,?_,hgc,hco⟩,?_⟩
  · rw [fat_dirRound hcm, fat_completed (fatRound_mounted hvm), fat_fatRound, hvf]
  · rw [dir_dirRound, hcd]

theorem reserved_goes (now : ℕ) (h : Good s) (chn : ℤ) (a : ℕ) (hi : i < maxFiles)
    (hu : used (dir s) i = false) (hname : name.len ≤ fileNameLen) (hn0 : 0 < n)
    (hn : n ≤ freeBlocks (fat s)) :
    ∃ u t, allocBlock n .createFat (fine now) (reserved chn name n i a s) = (errorReady,u) ∧
      Rests (advance now) u t ∧ Good t := by
  have hfat : fat (reserved chn name n i a s) = fat s := fat_setDir h.mounted _
  obtain ⟨l,c,u,hl,hnd,ha,hz,hu1,hgo⟩ := allocBlock_goes now (n := n)
    (show Quiet (reserved chn name n i a s) from h.quiet.same rfl) ⟨h.mounted.dir,h.mounted.fat⟩
    (by rw [hfat]; exact h.consistent.free) (by rw [hfat]; exact hn) .createFat
  rw [hfat] at hz hgo
  -- the first round ends with the callback that completes the entry
  obtain ⟨t,hr,hq,hm,-,⟨hgeo,hft,-,-⟩,hdt⟩ := created_rests h.quiet h.mounted hgo
  refine ⟨u,t,hu1,hr,hq,hm,?_⟩
  rw [ConsistentCard, hgeo, hdt, hft]
  exact consistent_created h.consistent _ _ hi hu hname hl hn0 hn hnd ha hz

theorem result_snd (r : ℤ × Card) : (if r.1 < 0 then (r.1,r.2) else (0,r.2)).2 = r.2 := by
  split <;> rfl

theorem Good.free_size (h : Good s) : freeBlocks (fat s)*s.geo.sector ≤ 16777216 := by
  rw [h.consistent.free]
  exact (mul_le_mul_right _ ((zeroWords_le _ _).trans (sub_le _ _))).trans s.geo.blocks_sector_le

theorem createWith_rests (h : Good s) (chn : ℤ) (name : CStr) (size : ℕ)
    (clash : Bytes → ℕ → Bool) (a : ℕ) :
    ∃ t, Rests (advance now) (createWith chn name size clash a (some .sync) (fine now) s).2 t ∧
      Good t := by
  unfold createWith
  split
  · exact ⟨s,h.rests,h⟩
  rename_i hname
  obtain ⟨ret,hret,hg⟩ | ⟨-,-,-,hg⟩ := getCntrlBlock_cases chn s
  · rw [hg]
    dsimp only
    rw [if_pos hret]
    exact ⟨s,h.rests,h⟩
  have ht : Good (taken s) := h.same rfl rfl
  rw [hg]
  dsimp only
  rw [if_neg (by decide)]
  split
  · exact ⟨_,ht.rests,ht⟩
  rename_i hsize
  split
  · exact ⟨_,(ht.put _).rests,ht.put _⟩
  rename_i i hi
  obtain ⟨hi,hu⟩ := freeEntry_ok hi
  split
  · exact ⟨_,(ht.put _).rests,ht.put _⟩
  rename_i hroom
  have hsec := s.geo.sector_ge
  have hS : (taken s).geo.sector = s.geo.sector := rfl
  obtain ⟨n,rfl⟩ : ∃ n, size = n*s.geo.sector :=
    ⟨size/s.geo.sector,(Nat.div_mul_cancel (dvd_of_mod_eq_zero (by
      rw [hS] at hsize
      omega))).symm⟩
  have hdiv : n*s.geo.sector/s.geo.sector = n := Nat.mul_div_cancel _ (by omega)
  have hn : n ≤ freeBlocks (fat (taken s)) := by
    have hle := ht.free_size
    rw [mod_eq_of_lt (by omega), hS] at hroom
    exact Nat.le_of_mul_le_mul_right (Nat.le_of_not_lt hroom) (by omega)
  have hn0 : 0 < n := by
    rcases Nat.eq_zero_or_pos n with rfl | h0
    · simp at hsize
    · exact h0
  obtain ⟨u,t,hu1,hr,hgood⟩ := reserved_goes now ht chn a hi hu (Nat.le_of_not_lt hname)
    hn0 hn
  refine ⟨t,?_,hgood⟩
  have hcall : (orPut (allocBlock (n*s.geo.sector/s.geo.sector) .createFat (fine now)
      (reserved chn name (n*s.geo.sector/s.geo.sector) i a (taken s)))).2 = u := by
    rw [hdiv, hu1]
    rfl
  exact ((result_snd _).trans hcall).symm ▸ hr

theorem getFileNum_some {name gamecode company : Bytes}
    (h : getFileNum d name gamecode company = some i) : isFile d i := by
  have h1 := find?_some h
  have h2 := mem_of_find?_eq_some h
  simp only [Bool.and_eq_true] at h1
  exact ⟨mem_range.mp h2,h1.1.1⟩

theorem delete_goes (now : ℕ) (hq : Quiet s) (hm : Mounted s)
    (hc : Chain (fatNext (fat s)) (some s.currFileblock) (s.currFileblock::l))
    (hn : (s.currFileblock::l).Nodup) (ha : ∀ j ∈ s.currFileblock::l, inArea s.geo.blocks j) :
    Goes (advance now) (deleteCallback (fine now) 0 s) (resume now s.apiCb (fatRound
      (setFat (clearAll (s.currFileblock::l) (fat s)) { s with apiCb := none }))) := by
  obtain ⟨u,hu,hgo⟩ := freeBlock_goes now (s := { s with apiCb := none }) (hq.same rfl)
    ⟨hm.dir,hm.fat⟩ hc hn ha s.apiCb
  have hcb : deleteCallback (fine now) 0 s = u := by
    have he : deleteCallback (fine now) 0 s = orElse (freeBlock s.currFileblock s.apiCb (fine now)
        { s with apiCb := none }) (fun ret t => later s.apiCb ret (putCntrlBlock ret t)) := rfl
    rw [he, hu]
    rfl
  exact hcb ▸ hgo

def blanked (i : ℕ) (s : Card) : Card :=
  setDir (fill (entry i) 64 255 (dir s))
    { s with currFileblock := entryBlock (dir s) i, apiCb := some .sync }

theorem blanked_goes (now : ℕ) (h : Good s) (hi : isFile (dir s) i) :
    ∃ u t, updateDir (some .delete) (fine now) (blanked i s) = (errorReady,u) ∧
      Rests (advance now) u t ∧ Good t := by
  obtain ⟨c,hc⟩ := h.consistent.owned
  have hm : Mounted (blanked i s) := ⟨h.mounted.dir,h.mounted.fat⟩
  have hbd : dir (blanked i s) = fill (entry i) 64 255 (dir s) := update_self _ _ _
  have hbf : fat (blanked i s) = fat s := fat_setDir h.mounted _
  obtain ⟨u,hu,hgo⟩ := updateDir_goes now
    (show Quiet (blanked i s) from h.quiet.same rfl) hm.dir (some .delete)
  generalize hv : dirRound (blanked i s) = v at hgo
  have hvq : Quiet v := hv ▸ dirRound_quiet (h.quiet.same rfl)
  have hvm : Mounted v := hv ▸ dirRound_mounted hm
  have hvd : dir v = newDir (fill (entry i) 64 255 (dir s)) := by rw [← hv, dir_dirRound, hbd]
  have hvf : fat v = fat s := by rw [← hv, fat_dirRound hm, hbf]
  obtain ⟨hg,hapi,hblock⟩ : v.geo = s.geo ∧ v.apiCb = some .sync ∧
      v.currFileblock = entryBlock (dir s) i := hv ▸ ⟨rfl,rfl,rfl⟩
  have hchain := hc.chain i hi
  obtain ⟨l,hl⟩ : ∃ l, c i = v.currFileblock::l := by
    cases hci : c i with
    | nil =>
      rw [hci] at hchain
      cases hchain
    | cons k l =>
      have := (hci ▸ hchain).first_eq
      exact ⟨l,by rw [hblock, Option.some.inj this]⟩
  have hgo2 := delete_goes now hvq hvm (by rw [hvf, ← hl, hblock]; exact hchain)
    (hl ▸ hc.nodup i hi) (by rw [hg, ← hl]; exact hc.area i hi)
  rw [hapi, ← hl, hvf] at hgo2
  have hq : Quiet (fatRound (setFat (clearAll (c i) (fat s)) { v with apiCb := none })) :=
    fatRound_quiet (hvq.same rfl)
  have hm2 : Mounted (setFat (clearAll (c i) (fat s)) { v with apiCb := none }) :=
    ⟨hvm.dir,hvm.fat⟩
  refine ⟨u,fatRound (setFat (clearAll (c i) (fat s)) { v with apiCb := none }),hu,
    ⟨goes_trans hgo hgo2,quiet_rests hq⟩,hq,fatRound_mounted hm2,?_⟩
  have hgeo : (fatRound (setFat (clearAll (c i) (fat s)) { v with apiCb := none })).geo =
    s.geo := hg
  have hd2 : dir (setFat (clearAll (c i) (fat s)) { v with apiCb := none }) = dir v :=
    dir_setFat ⟨hvm.dir,hvm.fat⟩ _
  rw [ConsistentCard, hgeo, fat_fatRound, dir_fatRound hm2, hd2, hvd, fat_setFat]
  exact consistent_deleted h.consistent hc hi

theorem deleteWith_rests (h : Good s) (chn : ℤ) (name gamecode company : Bytes) :
    ∃ t, Rests (advance now)
      (deleteWith chn name gamecode company (some .sync) (fine now) s).2 t ∧ Good t := by
  unfold deleteWith
  obtain ⟨ret,hret,hg⟩ | ⟨-,-,-,hg⟩ := getCntrlBlock_cases chn s
  · rw [hg]
    dsimp only
    rw [if_pos hret]
    exact ⟨s,h.rests,h⟩
  have ht : Good (taken s) := h.same rfl rfl
  rw [hg]
  dsimp only
  rw [if_neg (by decide)]
  split
  · exact ⟨_,(ht.put _).rests,ht.put _⟩
  rename_i i hi
  obtain ⟨u,t,hu,hr,hgood⟩ := blanked_goes now ht (getFileNum_some hi)
  refine ⟨t,?_,hgood⟩
  change Rests (advance now) (orPut (updateDir (some .delete) (fine now) (blanked i (taken s)))).2 t
  rw [hu]
  exact hr

/-! Runs of calls. -/

inductive FileCall
  | create (chn : ℤ) (name : CStr) (size : UInt32) (a : ℕ)
  | createEntry (chn : ℤ) (direntry : CardDir) (a : ℕ)
  | delete (chn : ℤ) (name : CStr)
  | deleteEntry (chn : ℤ) (direntry : CardDir)

/-- The asynchronous call inside each of the four synchronous functions. -/
def fileCall (now : ℕ) (s : Card) : FileCall → ℤ × Card
  | .create chn name size a => createAsync chn name size a (some .sync) (fine now) s
  | .createEntry chn direntry a => createEntryAsync chn direntry a (some .sync) (fine now) s
  | .delete chn name => deleteAsync chn name (some .sync) (fine now) s
  | .deleteEntry chn direntry => deleteEntryAsync chn direntry (some .sync) (fine now) s

theorem fileCall_rests (now : ℕ) (h : Good s) (c : FileCall) :
    ∃ t, Rests (advance now) (fileCall now s c).2 t ∧ Good t := by
  cases c with
  | create chn name size a => exact createWith_rests h chn name _ _ a
  | createEntry chn direntry a => exact createWith_rests h chn _ _ _ a
  | delete chn name | deleteEntry chn direntry => exact deleteWith_rests h chn _ _ _

/-- A call, and the card followed for `steps` steps, if it rests then. -/
structure Made where
  call : FileCall
  now : ℕ
  steps : ℕ

def madeStep (m : Made) (s : Card) : Option Card :=
  let t := follow (advance m.now) m.steps (fileCall m.now s m.call).2
  if (advance m.now t).isNone then some t else none

theorem madeStep_rests {m : Made} (h : madeStep m s = some t) :
    Rests (advance m.now) (fileCall m.now s m.call).2 t := rests_follow h

theorem madeStep_good (m : Made) (h : Good s) (hs : madeStep m s = some t) : Good t := by
  obtain ⟨u,hr,hg⟩ := fileCall_rests m.now h m.call
  exact rests_unique hr (madeStep_rests hs) ▸ hg

theorem formatEnd_good (h : Quiet s) (hd : s.work 2 = blankDir) (hf : s.work 4 = blankFat s.geo 1) :
    Good (formatEnd s) := by
  refine ⟨h.same rfl,⟨.inl rfl,.inl rfl⟩,?_⟩
  have h1 : dir (formatEnd s) = blankDir := by
    simp [dir, formatEnd, hd]
  have h2 : fat (formatEnd s) = blankFat s.geo 1 := by
    simp [fat, formatEnd, hf]
  rw [ConsistentCard, h1, h2]
  exact blank_consistent s.geo 1

theorem formatted_good {header : Bytes} (h : Quiet s) :
    Good (formatted (formatCall header cb s)) := by
  have hq : Quiet (formatCall header cb s) := h.same rfl
  obtain ⟨hg,hw,-⟩ := formatStage_frame (formatCall header cb s) 9
  apply formatEnd_good (formatStage_quiet hq 9)
  · rw [hw]
    simp [formatCall]
  · rw [hw, hg]
    simp [formatCall]

theorem resume_app (now : ℕ) (h : Good s) (ha : isApp cb = true) :
    Good (resume now (some (cb.getD .default)) s) := by
  cases cb with
  | none => exact h
  | some c =>
    cases c with
    | sync => exact h
    | user n => exact h.same rfl rfl
    | _ => exact absurd ha (by simp [isApp])

theorem format_good (now : ℕ) (chn : ℤ) (header : Bytes) (cb : Option Cb) (h : Quiet s)
    (hr : s.result ≠ errorBusy) (hc : chnOk chn = true) (ha : isApp cb = true) :
    ∃ u, Rests (advance now) (formatAsync chn header cb (fine now) s).2 u ∧ Good u := by
  have hg : Good (formatted (formatCall header cb s)) := formatted_good h
  have hu := resume_app now hg ha
  have hgo := format_goes now (show Quiet (formatCall header cb s) from h.same rfl) rfl
  refine ⟨_,⟨?_,quiet_rests hu.quiet⟩,hu⟩
  rw [formatAsync_quiet h hr hc]
  exact hgo

/-- On a card that has been formatted the tables are consistent after every
sequence of calls that create and delete files, and every such call ends. -/
theorem file_system_consistent {u : Card} {chn : ℤ} {header : Bytes} {cb : Option Cb}
    (h : Quiet s) (hr : s.result ≠ errorBusy) (hc : chnOk chn = true) (ha : isApp cb = true)
    (hf : Rests (advance now) (formatAsync chn header cb (fine now) s).2 u)
    (ht : Reach madeStep (fun _ _ => True) u t) :
    ConsistentCard t ∧ ∀ call later, ∃ v, Rests (advance later) (fileCall later t call).2 v := by
  obtain ⟨u',hu',hg⟩ := format_good now chn header cb h hr hc ha
  rw [rests_unique hu' hf] at hg
  have hgood : Good t :=
    reach_invariant hg (fun m _ _ hi _ hs => madeStep_good m hi hs) ht
  refine ⟨hgood.consistent,fun call later => ?_⟩
  obtain ⟨v,hv,-⟩ := fileCall_rests later hgood call
  exact ⟨v,hv⟩

def shortName : CStr := ⟨fun i => if i = 0 then 97 else 0,1,by decide,rfl⟩

/-- A file of two blocks on a card that has just been formatted. -/
theorem file_system_consistent_created : ∃ u m t,
    Rests (advance 7) (formatAsync 0 (fun _ => 0) (some .sync) (fine 7) plainCard).2 u ∧
      m.call = .create 0 shortName 16384 5 ∧ madeStep m u = some t ∧ ConsistentCard t := by
  obtain ⟨u,hu,hg⟩ := format_good 7 0 (fun _ => 0) (some .sync)
    plainCard_quiet (by decide) (by decide) rfl
  obtain ⟨t,⟨⟨n,hn⟩,hr⟩,-⟩ := fileCall_rests 8 hg (.create 0 shortName 16384 5)
  have hm : madeStep ⟨.create 0 shortName 16384 5,8,n⟩ u = some t := by
    simp [madeStep, hn, hr]
  exact ⟨u,_,t,hu,rfl,hm,(file_system_consistent plainCard_quiet (by decide) (by decide) rfl hu
    (.step .start trivial hm)).1⟩

end Libogc.CardConsistency
