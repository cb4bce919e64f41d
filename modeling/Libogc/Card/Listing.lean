import Libogc.Card.Access
import Libogc.Card.IdentityRun

/-!
# What the directory tells an application

The loop over `CARD_FindFirst` and `CARD_FindNext` against the list of
`CARD_GetDirectory`, the files that are opened by their entries, and the status
that is read back.
-/

set_option autoImplicit false

namespace Libogc.CardListing
open Function List Nat
open ByteStore CardLayout CardControl CardCallbacks CardCalls CardStatus CardSystem CardTransfer
open CardRounds CardTables CardEntries CardConsistency CardIdentity CardIdentityRun CardAccess
open RestingRun

variable {s : Card} {chn : ℤ} {showall : Bool}

/-- The files an application gets that calls `CARD_FindNext` while there is one. -/
def findAll (chn : ℤ) (showall : Bool) : ℕ → ℤ × Option Listed × ℕ × Card → List Listed
  | 0, _ => []
  | _+1, (_,none,_,_) => []
  | n+1, (_,some x,i,s) => x::findAll chn showall n (findNext chn (UInt32.ofNat i) showall s)

def shown (showall : Bool) (s : Card) (i : ℕ) : Bool := used (dir s) i && (showall || ours s i)

theorem filter_find {p : ℕ → Bool} {k n i : ℕ} (h : (range' k n).find? p = some i) :
    (range' k n).filter p = i::(range' (i+1) (k+n-(i+1))).filter p := by
  induction n generalizing k with
  | zero => exact absurd h nofun
  | succ n ih =>
    rw [range'_succ] at h ⊢
    by_cases hp : p k = true
    · rw [find?_cons_of_pos hp] at h
      cases h
      rw [filter_cons_of_pos hp, show i+(n+1)-(i+1) = n by omega]
    · rw [find?_cons_of_neg hp] at h
      rw [filter_cons_of_neg hp, ih h, show k+(n+1) = k+1+n by omega]

section Ready

variable (hc : chnOk chn = true) (hat : s.attached = true) (hr : s.result ≠ errorBusy)
include hc hat hr

theorem findNextFrom_ready {k : ℕ} (hk : k < maxFiles) : findNextFrom chn k showall s =
    ((range' k (maxFiles-k)).find? (shown showall s)).elim
      (errorNoFile,none,maxFiles,putCntrlBlock errorNoFile (taken s))
      (fun i => (errorReady,some (listed s i),i,putCntrlBlock errorReady (taken s))) := by
  rw [findNextFrom, if_neg (by simp [hc]), if_neg (Nat.not_le.mpr hk),
    getCntrlBlock_taken hc hat hr]
  dsimp only
  rw [if_neg (by decide), show (fun i => used (dir (taken s)) i && (showall || ours (taken s) i)) =
    shown showall s from rfl]
  cases (range' k (maxFiles-k)).find? (shown showall s) <;> rfl

theorem getDirectory_ready (showall : Bool) : ∃ ret, getDirectory chn showall s = (ret,
    ((range maxFiles).filter fun i => used (dir s) i &&
      (showall || (s.gamecode 0 != 255 && s.company 0 != 255 && ours s i))).map
        (fun i => (listed s i,dir s (entry i+52))),putCntrlBlock ret (taken s)) ∧
    ret ≠ errorBusy := by
  rw [getDirectory, if_neg (by simp [hc]), getCntrlBlock_taken hc hat hr]
  refine ⟨_,rfl,?_⟩
  split <;> decide

omit hc hr in
theorem put_taken (ret : ℤ) : putCntrlBlock ret (taken s) = { taken s with result := ret } :=
  if_pos hat

/-- The induction is on the calls that are left; each begins behind the last
file that was found. -/
theorem findAll_from (n k : ℕ) (hn : maxFiles-k < n) :
    findAll chn showall n (findNextFrom chn k showall s) =
      ((range' k (maxFiles-k)).filter (shown showall s)).map (listed s) := by
  induction n generalizing k s with
  | zero => omega
  | succ n ih =>
    by_cases hk : k < maxFiles
    · rw [findNextFrom_ready hc hat hr hk]
      cases hfind : (range' k (maxFiles-k)).find? (shown showall s) with
      | none =>
        have hnil : (range' k (maxFiles-k)).filter (shown showall s) = [] :=
          filter_eq_nil_iff.mpr (find?_eq_none.mp hfind)
        rw [hnil]
        rfl
      | some i =>
        have hmem := mem_range'_1.mp (mem_of_find?_eq_some hfind)
        have hm : maxFiles = 127 := rfl
        have hnext : (UInt32.ofNat i+1).toNat = i+1 := by
          simp only [UInt32.toNat_add, UInt32.toNat_ofNat', UInt32.reduceToNat]
          omega
        have hput := put_taken hat errorReady
        rw [filter_find hfind, show k+(maxFiles-k)-(i+1) = maxFiles-(i+1) by omega, map_cons,
          Option.elim_some, findAll, findNext, hnext, hput,
          ih (s := { taken s with result := errorReady }) hat
            (show errorReady ≠ errorBusy by decide) (i+1) (by omega)]
        rfl
    · have hend : findNextFrom chn k showall s = (errorNoFile,none,k,s) := by
        rw [findNextFrom, if_neg (by simp [hc]), if_pos (Nat.le_of_not_lt hk)]
      rw [hend, show maxFiles-k = 0 by omega]
      rfl

end Ready

/-- The first byte of the game code is checked twice; that of a file is not 255. -/
theorem shown_directory (hcode : showall = true ∨ s.company 0 ≠ 255) (i : ℕ) :
    (used (dir s) i && (showall || (s.gamecode 0 != 255 && s.company 0 != 255 && ours s i))) =
      shown showall s i := by
  unfold shown
  cases hall : showall with
  | true => simp
  | false =>
    have hco : s.company 0 ≠ 255 := hcode.resolve_left (by simp [hall])
    cases hu : used (dir s) i with
    | false => rfl
    | true =>
      cases ho : ours s i with
      | false => simp
      | true =>
        have hsame := sameBytes_iff.mp (Bool.and_eq_true_iff.mp ho).1 0 (by decide)
        have hne : s.gamecode 0 ≠ 255 := by
          rw [← hsame]
          simpa [used, bytesAt] using hu
        simp [hne, hco]

theorem directory_cases (chn : ℤ) (showall : Bool) (s : Card) :
    (∃ ret, findFirst chn showall s = (ret,none,0,s) ∧ getDirectory chn showall s = (ret,[],s)) ∨
      chnOk chn = true ∧ s.attached = true ∧ s.result ≠ errorBusy := by
  by_cases hc : chnOk chn = true
  · obtain ⟨ret,hret,hg⟩ | ⟨-,hat,hr,-⟩ := getCntrlBlock_cases chn s
    · refine .inl ⟨ret,?_,?_⟩
      · rw [findFirst, findNextFrom, if_neg (by simp [hc]), if_neg (by decide), hg]
        exact if_pos hret
      · rw [getDirectory, if_neg (by simp [hc]), hg]
        exact if_pos hret
    · exact .inr ⟨hc,hat,hr⟩
  · refine .inl ⟨errorNoCard,?_,?_⟩
    · rw [findFirst, findNextFrom, if_pos (by simp [hc])]
    · rw [getDirectory, if_pos (by simp [hc])]

/-- The two ways to list the files of a card differ only for a company that
begins with the byte 255, which `CARD_GetDirectory` takes for none. -/
theorem find_lists_directory (chn : ℤ) (showall : Bool) (s : Card)
    (hcode : showall = true ∨ s.company 0 ≠ 255) :
    findAll chn showall (maxFiles+1) (findFirst chn showall s) =
      (getDirectory chn showall s).2.1.map Prod.fst := by
  obtain ⟨ret,hfirst,hdir⟩ | ⟨hc,hat,hr⟩ := directory_cases chn showall s
  · rw [hfirst, hdir]
    rfl
  · obtain ⟨ret,hdir,-⟩ := getDirectory_ready hc hat hr showall
    rw [findFirst, findAll_from hc hat hr _ 0 (by omega), hdir, map_map, range_eq_range',
      filter_congr (fun i _ => shown_directory hcode i)]
    rfl

/-! Opening a file by the entry that was listed. -/

structure Names (e : CardDir) (x : Listed) : Prop where
  filename : ∀ o < fileNameLen, e.filename.byte o = x.filename o
  gamecode : ∀ o < 4, e.gamecode o = x.gamecode o
  company : ∀ o < 2, e.company o = x.company o

theorem codes_same {d : Bytes} {i j : ℕ}
    (hg : sameBytes (bytesAt d (entry j)) (bytesAt d (entry i)) 4 = true)
    (hc : sameBytes (bytesAt d (entry j+4)) (bytesAt d (entry i+4)) 2 = true) :
    ∀ o < 6, codesOf d j o = codesOf d i o := by
  intro o ho
  by_cases h4 : o < 4
  · exact sameBytes_iff.mp hg o h4
  · have h := sameBytes_iff.mp hc (o-4) (by omega)
    unfold bytesAt at h
    rw [show entry j+4+(o-4) = entry j+o by omega, show entry i+4+(o-4) = entry i+o by omega] at h
    exact h

theorem getFileNum_listed {i : ℕ} {e : CardDir} (hs : Sound (dir s)) (hi : isFile (dir s) i)
    (he : Names e (listed s i)) (hco : e.company 0 ≠ 255) :
    getFileNum (dir s) e.filename.byte e.gamecode e.company = some i := by
  have hgame : e.gamecode 0 ≠ 255 := by
    have h0 : dir s (entry i) ≠ 255 := by simpa [used] using hi.2
    rw [he.gamecode 0 (by decide)]
    exact h0
  have hneat : Neat e.filename.byte := by
    intro j k hjk hk hz
    rw [he.filename k hk]
    exact hs.neat i hi j k hjk hk ((he.filename j (by omega)).symm.trans hz)
  have hgc : ∀ a, sameBytes a e.gamecode 4 = sameBytes a (bytesAt (dir s) (entry i)) 4 :=
    fun a => decide_eq_decide.mpr (forall₂_congr fun o ho => by rw [he.gamecode o ho]; rfl)
  have hcc : ∀ a, sameBytes a e.company 2 = sameBytes a (bytesAt (dir s) (entry i+4)) 2 :=
    fun a => decide_eq_decide.mpr (forall₂_congr fun o ho => by rw [he.company o ho]; rfl)
  have hself : ∀ (a : Bytes) (n : ℕ), sameBytes a a n = true :=
    fun a n => sameBytes_iff.mpr (fun _ _ => rfl)
  have htext : sameText e.filename.byte (bytesAt (dir s) (entry i+8)) 0 fileNameLen = true :=
    sameText_refl (fun o ho => he.filename o (by omega))
  refine find?_range_eq_some.mpr ⟨?_,mem_range.mpr hi.1,fun j hj => ?_⟩
  · rw [hgc, hcc, hself, hself, hi.2, htext]
    simp
  · -- an earlier file with these codes and this name would be the same file
    rw [Bool.not_eq_true', ← Bool.not_eq_true]
    intro hp
    rw [hgc, hcc] at hp
    simp only [Bool.and_eq_true, Bool.not_eq_true', Bool.or_eq_false_iff, Bool.and_eq_false_iff,
      bne_eq_false_iff_eq, Bool.not_eq_false', hgame, hco, false_or] at hp
    obtain ⟨⟨hu,hother⟩,hg,hc⟩ := hp
    have hj' : isFile (dir s) j := ⟨Nat.lt_trans hj hi.1,hu⟩
    have hbytes := sameText_neat hneat (hs.neat j hj') (Nat.zero_add _) hother
    have hname : ∀ o < fileNameLen, nameOf (dir s) j o = nameOf (dir s) i o :=
      fun o ho => (hbytes o (zero_le o) ho).symm.trans (he.filename o ho)
    have hsame := hs.unique j i hj' hi (sameId_of_bytes ⟨codes_same hg hc,hname⟩)
    omega

theorem listed_opens {c : ℕ → List ℕ} {x : Listed} {p : UInt8} {e : CardDir}
    (h : Quiet s) (hs : Sound (dir s)) (ho : Owned s.geo (dir s) (fat s) c)
    (hx : (x,p) ∈ (getDirectory chn showall s).2.1) (he : Names e x) (hco : e.company 0 ≠ 255)
    (a : ℕ) : ∃ t, openEntry chn e a (getDirectory chn showall s).2.2 = (errorReady,t) ∧
      tables t = tables s ∧ OpenFile t a x.fileno (c x.fileno) := by
  obtain ⟨ret,-,hdir⟩ | ⟨hc,-,hr⟩ := directory_cases chn showall s
  · rw [hdir] at hx
    exact absurd hx not_mem_nil
  obtain ⟨ret,hdir,hret⟩ := getDirectory_ready (s := s) hc h.attached hr showall
  rw [hdir] at hx ⊢
  obtain ⟨i,hi,hxi⟩ := mem_map.mp hx
  obtain ⟨hmem,hp⟩ := mem_filter.mp hi
  cases hxi
  have hfile : isFile (dir s) i := ⟨mem_range.mp hmem,(Bool.and_eq_true_iff.mp hp).1⟩
  dsimp only
  rw [put_taken h.attached]
  exact openWith_open (s := { taken s with result := ret }) ho hc h.attached hret
    (getFileNum_listed hs hfile he hco)

/-! Reading the status back. -/

def labelled (gamecode company filename : Bytes) (len time : ℕ) (st : CardStat) : CardStat :=
  { st with
    gamecode := gamecode, company := company, filename := filename, len := len,
    time := time }

section Labelled

variable (gc co fn : Bytes) (len time : ℕ)

theorem iconOffsets_labelled (fmt : ℕ → ℕ) (tlut n i addr : ℕ) (st : CardStat) :
    iconOffsets fmt tlut n i addr (labelled gc co fn len time st) =
      labelled gc co fn len time (iconOffsets fmt tlut n i addr st) := by
  induction n generalizing i addr st with
  | zero => rfl
  | succ n ih =>
    unfold iconOffsets
    dsimp only
    split <;> rw [← ih] <;> rfl

theorem bannerOffsets_labelled (fmt addr : ℕ) (st : CardStat) :
    bannerOffsets fmt addr (labelled gc co fn len time st) =
      ((bannerOffsets fmt addr st).1,labelled gc co fn len time (bannerOffsets fmt addr st).2) := by
  unfold bannerOffsets
  split_ifs <;> rfl

theorem updateIconOffsets_labelled (d : Bytes) (o : ℕ) (st : CardStat) :
    updateIconOffsets d o (labelled gc co fn len time st) =
      labelled gc co fn len time (updateIconOffsets d o st) := by
  have hbare : (if word d (o+44) = noAddr then { labelled gc co fn len time st with
      bannerFmt := 0, iconFmt := 0, iconSpeed := 0 } else labelled gc co fn len time st) =
      labelled gc co fn len time (if word d (o+44) = noAddr then { st with
        bannerFmt := 0, iconFmt := 0, iconSpeed := 0 } else st) := by
    split_ifs <;> rfl
  unfold updateIconOffsets
  dsimp only
  rw [hbare, bannerOffsets_labelled, ← iconOffsets_labelled]
  rfl

end Labelled

/-- What `CARD_SetStatus` takes, for a file that has icons. -/
structure Accepted (stats : CardStat) : Prop where
  iconAddr : stats.iconAddr < readSize
  iconFmt : stats.iconFmt < 65536
  iconSpeed : stats.iconSpeed < 65536
  commentAddr : stats.commentAddr < 4294967296
  comment : stats.commentAddr = noAddr ∨ stats.commentAddr%8192 ≤ 8128

/-- The fields of an entry that the offsets are computed from. -/
structure Carries (stats : CardStat) (o : ℕ) (d : Bytes) : Prop where
  bannerFmt : d (o+7) = stats.bannerFmt
  iconAddr : word d (o+44) = stats.iconAddr
  iconFmt : half d (o+48) = stats.iconFmt
  iconSpeed : half d (o+50) = stats.iconSpeed
  commentAddr : word d (o+60) = stats.commentAddr

section Status

variable {stats : CardStat} {o i now : ℕ} {d d' : Bytes}

theorem Accepted.icons (h : Accepted stats) : stats.iconAddr ≠ noAddr := by
  have hs := h.iconAddr
  have hr : readSize = 512 := rfl
  have hn : noAddr = 4294967295 := rfl
  omega

theorem statusFields_carries (h : Accepted stats) : Carries stats o (statusFields stats o d) := by
  have ha := h.iconAddr
  have hr : readSize = 512 := rfl
  unfold statusFields
  constructor
  · simp (disch := omega) only [setWord_ne, setHalf_ne, setByte_same]
  · simp (disch := omega) only [word, half_setWord_ne, half_setHalf_ne]
    exact word_setWord_same _ (by omega)
  · simp (disch := omega) only [half_setWord_ne, half_setHalf_ne]
    exact half_setHalf_same _ h.iconFmt
  · simp (disch := omega) only [half_setWord_ne]
    exact half_setHalf_same _ h.iconSpeed
  · exact word_setWord_same _ h.commentAddr

theorem statusEntry_carries (h : Accepted stats) (hnow : now < 4294967296) :
    Carries stats o (statusEntry stats now o d) ∧ word (statusEntry stats now o d) (o+40) =
      now := by
  have hf : Carries stats o (statusFields stats o d) := statusFields_carries h
  have hentry : statusEntry stats now o d = setWord (o+40) now (statusFields stats o d) := by
    unfold statusEntry
    dsimp only
    rw [hf.iconAddr, if_neg h.icons]
  rw [hentry]
  refine ⟨⟨?_,?_,?_,?_,?_⟩,word_setWord_same _ hnow⟩
  · exact (setWord_ne _ (by omega)).trans hf.bannerFmt
  · exact (word_setWord_ne _ (by omega)).trans hf.iconAddr
  · exact (half_setWord_ne _ (by omega)).trans hf.iconFmt
  · exact (half_setWord_ne _ (by omega)).trans hf.iconSpeed
  · exact (word_setWord_ne _ (by omega)).trans hf.commentAddr

theorem Carries.congr (h : Carries stats o d) (hd : ∀ k < 64, d' (o+k) = d (o+k)) :
    Carries stats o d' := by
  refine ⟨(hd 7 (by decide)).trans h.bannerFmt,?_,?_,?_,?_⟩
  · exact (word_congr fun k hk => by
      rw [Nat.add_assoc, hd (44+k) (by omega)]).trans h.iconAddr
  · exact (half_congr (hd 48 (by decide)) (hd 49 (by decide))).trans h.iconFmt
  · exact (half_congr (hd 50 (by decide)) (hd 51 (by decide))).trans h.iconSpeed
  · exact (word_congr fun k hk => by
      rw [Nat.add_assoc, hd (60+k) (by omega)]).trans h.commentAddr

theorem Carries.offsets (h : Carries stats o d) (h' : Carries stats o d') (st : CardStat) :
    updateIconOffsets d' o st = updateIconOffsets d o st := by
  unfold updateIconOffsets
  rw [h'.bannerFmt, h'.iconAddr, h'.iconFmt, h'.iconSpeed, ← h.bannerFmt, ← h.iconAddr,
    ← h.iconFmt, ← h.iconSpeed]

theorem getStatus_carries (hc : chnOk chn = true) (hi : i < maxFiles) (hat : s.attached = true)
    (hr : s.result ≠ errorBusy) (hd : s.currDir ≠ 0) (hf : Carries stats (entry i) (dir s)) :
    getStatus chn i stats s = (errorReady,labelled (codesOf (dir s) i) (bytesAt (dir s) (entry i+4))
      (nameOf (dir s) i) (entryLength (dir s) i*s.geo.sector%4294967296)
      (word (dir s) (entry i+40)) (updateIconOffsets (dir s) (entry i) stats),
      putCntrlBlock errorReady (taken s)) := by
  have hin : ¬((i : ℤ) < 0 ∨ maxFiles ≤ (i : ℤ)) := by omega
  rw [getStatus, if_neg (by simp [hc]), if_neg hin, getCntrlBlock_taken hc hat hr]
  have hdir : dir (taken s) = dir s := rfl
  dsimp only
  rw [if_neg (by decide), if_neg (show ¬(taken s).currDir = 0 from hd), Int.toNat_natCast, hdir,
    hf.bannerFmt, hf.iconAddr, hf.iconFmt, hf.iconSpeed, hf.commentAddr,
    ← updateIconOffsets_labelled]
  rfl

theorem setStatusAsync_accepted (now : ℕ) (hc : chnOk chn = true) (hi : i < maxFiles)
    (hat : s.attached = true) (hr : s.result ≠ errorBusy) (hd : s.currDir ≠ 0)
    (hst : Accepted stats) : setStatusAsync chn i stats (some .sync) (fine now) s =
      (updateIconOffsets (statusFields stats (entry i) (dir s)) (entry i) stats,
        orPut (updateDir (some .sync) (fine now)
          (setDir (statusEntry stats now (entry i) (dir s)) (taken s)))) := by
  have hin : ¬((i : ℤ) < 0 ∨ maxFiles ≤ (i : ℤ)) := by omega
  have hicon : ¬(stats.iconAddr ≠ noAddr ∧ readSize ≤ stats.iconAddr) :=
    fun h => Nat.not_le.mpr hst.iconAddr h.2
  have hcomment : ¬(stats.commentAddr ≠ noAddr ∧ 8128 < stats.commentAddr%8192) :=
    fun h => hst.comment.elim h.1 (Nat.not_le.mpr h.2)
  rw [setStatusAsync, if_neg (by simp [hc]), if_neg hin, if_neg hicon, if_neg hcomment,
    getCntrlBlock_taken hc hat hr]
  dsimp only
  rw [if_neg (by decide), if_neg (show ¬(taken s).currDir = 0 from hd), Int.toNat_natCast]
  rfl

/-- A directory that has been written with the new entry. The round changes
nothing in front of its last entry. -/
theorem newDir_status {t : Card} (hi : i < maxFiles) (hst : Accepted stats)
    (hnow : now < 4294967296) (ht : dir t = newDir (statusEntry stats now (entry i) (dir s))) :
    (∀ j < maxFiles, ∀ o, o < 7 ∨ 8 ≤ o ∧ o < 40 ∨ 52 ≤ o ∧ o < 60 →
      dir t (entry j+o) = dir s (entry j+o)) ∧
    Carries stats (entry i) (dir t) ∧ word (dir t) (entry i+40) = now := by
  have hm : maxFiles = 127 := rfl
  have hbytes : ∀ k < 8128, dir t k = statusEntry stats now (entry i) (dir s) k := by
    intro k hk
    rw [ht, newDir_entry _ hk]
  obtain ⟨hcarries,htime⟩ := statusEntry_carries (o := entry i) (d := dir s) hst hnow
  refine ⟨?_,hcarries.congr (fun k hk => hbytes _ (by unfold entry; omega)),
    (word_congr fun k hk => hbytes _ (by unfold entry; omega)).trans htime⟩
  intro j hj o ho
  rw [hbytes _ (by unfold entry; omega)]
  exact statusEntry_out _ _ (by unfold entry; omega)

/-- The status that was set is read back with the same offsets, and the files
keep their names and codes. -/
theorem status_kept (h : Sane s) (hr : s.result ≠ errorBusy) (hc : chnOk chn = true)
    (hi : i < maxFiles) (hst : Accepted stats) (hnow : now < 4294967296) :
    ∃ t, Rests (advance now) (setStatusAsync chn i stats (some .sync) (fine now) s).2.2 t ∧
      (∀ j < maxFiles, SameBytesOf (dir t) j (codesOf (dir s) j) (nameOf (dir s) j)) ∧
      (getStatus chn i stats t).1 = errorReady ∧
      (getStatus chn i stats t).2.1 = labelled (codesOf (dir t) i) (bytesAt (dir t) (entry i+4))
        (nameOf (dir t) i) (entryLength (dir s) i*s.geo.sector%4294967296) now
        (setStatusAsync chn i stats (some .sync) (fine now) s).1 := by
  have h32 : fileNameLen = 32 := rfl
  have hcall := setStatusAsync_accepted now hc hi h.quiet.attached hr
    (show s.currDir ≠ 0 by have := h.mounted.dir; omega) hst
  have hready : (dirRound (setDir (statusEntry stats now (entry i) (dir s)) (taken s))).result ≠
    errorBusy := show errorReady ≠ errorBusy by decide
  have hdir := dir_dirRound (setDir (statusEntry stats now (entry i) (dir s)) (taken s))
  rw [dir_setDir] at hdir
  generalize hv : setDir (statusEntry stats now (entry i) (dir s)) (taken s) = v at *
  obtain ⟨hkeep,hstored,htime⟩ := newDir_status hi hst hnow hdir
  have hq : Quiet v := hv ▸ h.quiet.same rfl
  have hmount : Mounted v := hv ▸ ⟨h.mounted.dir,h.mounted.fat⟩
  obtain ⟨u,hu,hgo⟩ := updateDir_goes now hq hmount.dir (some .sync)
  have hget := getStatus_carries hc hi (dirRound_quiet hq).attached hready
    (by have := (dirRound_mounted hmount).dir; omega) hstored
  refine ⟨dirRound v,?_,?_,congrArg Prod.fst hget,?_⟩
  · rw [hcall, hu]
    exact ⟨hgo,quiet_rests (dirRound_quiet hq)⟩
  · refine fun j hj => ⟨fun o ho => hkeep j hj o (by omega),fun o ho => ?_⟩
    have h8 := hkeep j hj (8+o) (by omega)
    rwa [← Nat.add_assoc] at h8
  · have hlen : entryLength (dir (dirRound v)) i = entryLength (dir s) i :=
      half_congr (hkeep i hi 56 (by decide)) (hkeep i hi 57 (by decide))
    have hoffsets := (statusFields_carries (o := entry i) (d := dir s) hst).offsets hstored stats
    rw [hget, hcall]
    dsimp only
    rw [hlen, htime, hoffsets, ← hv]
    rfl

end Status

end Libogc.CardListing
