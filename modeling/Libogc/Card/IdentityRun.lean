import Libogc.Card.Identity

/-!
# Files are created once

Runs of the calls that write identities, on a card that has been formatted.
-/

set_option autoImplicit false

namespace Libogc.CardIdentityRun
open Function List Nat
open ByteStore CardLayout CardControl CardCallbacks CardCalls CardStatus CardSystem CardTransfer
open CardRounds CardFatLoops CardTables CardEntries CardFormat CardConsistency CardIdentity
open RestingRun GuardedReach

variable {d ent : Bytes} {i block now n : ℕ} {name : CStr} {s t : Card}

structure Sane (s : Card) : Prop where
  quiet : Quiet s
  mounted : Mounted s
  sound : Sound (dir s)

def Settles (now : ℕ) (s : Card) : Prop := ∃ t, Rests (advance now) s t ∧ Sane t

theorem Sane.settles (h : Sane s) : Settles now s := ⟨s,⟨goes_refl s,quiet_rests h.quiet⟩,h⟩

theorem Settles.goes (h : Settles now t) (hg : Goes (advance now) s t) : Settles now s := by
  obtain ⟨u,hu,hs⟩ := h
  exact ⟨u,rests_goes hg hu,hs⟩

theorem Sane.same (h : Sane s) (hc : channel t = channel s) (ht : tables t = tables s) :
    Sane t := by
  refine ⟨h.quiet.same hc,h.mounted.same ht,?_⟩
  simp only [tables, Prod.mk.injEq] at ht
  unfold dir
  rw [ht.2.1, ht.2.2.1]
  exact h.sound

theorem Sane.put (h : Sane s) (ret : ℤ) : Sane (putCntrlBlock ret s) :=
  h.same (putCntrlBlock_same ret s).1 (putCntrlBlock_same ret s).2

theorem Sane.called (h : Sane s) (ret : ℤ) : Settles now (later (some .sync) ret s) := by
  rw [show later (some .sync) ret s = { s with pending := [(.sync,ret)] } by
    simp [later, h.quiet.ended]]
  exact h.settles.goes (dispatch_goes .sync h.quiet.ended)

theorem dirRound_settles (hq : Quiet s) (hm : Mounted s) (hs : Sound (dir s)) :
    Settles now (orPut (updateDir (some .sync) (fine now) s)).2 := by
  obtain ⟨u,hu,hgo⟩ := updateDir_goes now hq hm.dir (some .sync)
  have hr : Sane (dirRound s) :=
    ⟨dirRound_quiet hq,dirRound_mounted hm,by rw [dir_dirRound]; exact hs.stamped⟩
  rw [hu]
  exact hr.settles.goes hgo

theorem allocBlock_ends (now n : ℕ) (hq : Quiet s) (hm : Mounted s) (cb : Cb) :
    (∃ ret u, ret < 0 ∧ allocBlock n cb (fine now) s = (ret,u) ∧ Quiet u ∧ Mounted u ∧
      dir u = dir s) ∨
      ∃ f block u, allocBlock n cb (fine now) s = (errorReady,u) ∧ Goes (advance now) u
        (resume now (some cb) (fatRound { setFat f s with currFileblock := block })) := by
  unfold allocBlock
  rw [if_neg (by simp [hq.attached])]
  split
  · exact .inl ⟨errorInsSpace,s,by decide,rfl,hq,hm,rfl⟩
  generalize allocLoop _ _ _ _ _ _ _ = r
  obtain ⟨f,o⟩ := r
  cases o with
  | none =>
    exact .inl ⟨errorBroken,setFat f s,by decide,rfl,hq.same rfl,⟨hm.dir,hm.fat⟩,dir_setFat hm f⟩
  | some p =>
    obtain ⟨block,curr⟩ := p
    have hq' : Quiet
      { setFat (setHalf 8 curr (setHalf 6 ((freeBlocks f+65536-n%65536)%65536) f)) s with
        currFileblock := block } := hq.same rfl
    obtain ⟨u,hu,hgo⟩ := updateFat_goes now hq' hm.fat (some cb)
    exact .inr ⟨_,block,u,hu,hgo⟩

theorem freeBlock_ends (now k : ℕ) (hq : Quiet s) (hm : Mounted s) (cb : Option Cb) :
    (∃ f, freeBlock k cb (fine now) s = (errorBroken,setFat f s)) ∨
      ∃ f u, freeBlock k cb (fine now) s = (errorReady,u) ∧
        Goes (advance now) u (resume now cb (fatRound (setFat f s))) := by
  unfold freeBlock
  rw [if_neg (by simp [hq.attached])]
  generalize freeLoop _ _ _ _ = r
  obtain ⟨f,ok⟩ := r
  cases ok with
  | false => exact .inl ⟨f,rfl⟩
  | true =>
    have hq' : Quiet (setFat f s) := hq.same rfl
    obtain ⟨u,hu,hgo⟩ := updateFat_goes now hq' hm.fat cb
    exact .inr ⟨f,u,hu,hgo⟩

variable {a : ℕ} (header : Bytes) (cb : Option Cb)

theorem reserved_settles (now : ℕ) (h : Sane s) (chn : ℤ) {clash : ℕ → Bool} (a : ℕ)
    (hi : freeEntry (dir s) clash = .ok i) (hname : name.len ≤ fileNameLen)
    (hc : Catches clash (newCodes s.gamecode s.company) name (dir s)) :
    Settles now (orPut (allocBlock n .createFat (fine now) (reserved chn name n i a s))).2 := by
  obtain ⟨hi',hu⟩ := freeEntry_ok hi
  have hq : Quiet (reserved chn name n i a s) := h.quiet.same rfl
  have hm : Mounted (reserved chn name n i a s) := ⟨h.mounted.dir,h.mounted.fat⟩
  have hdir : dir (reserved chn name n i a s) = namedEntry name n i (dir s) :=
    update_self _ _ _
  obtain ⟨ret,u,hret,hall,huq,hum,hud⟩ | ⟨f,block,u,hall,hgo⟩ :=
    allocBlock_ends now n hq hm .createFat
  · rw [hall, orPut, if_neg (by omega)]
    refine (Sane.put ⟨huq,hum,?_⟩ ret).settles
    rw [hud, hdir]
    exact h.sound.unused hi' (fun o ho _ => namedEntry_out name n i _ hname (by omega) (by omega))
      ((namedEntry_used name n i _ hname).trans hu)
  · rw [hall]
    obtain ⟨t,hr,htq,htm,-,-,htd⟩ := created_rests h.quiet h.mounted hgo
    refine ⟨t,hr,htq,htm,?_⟩
    rw [htd]
    exact (h.sound.created hi hname hc).stamped

theorem createWith_settles (h : Sane s) (chn : ℤ) (name : CStr) (size : ℕ)
    (clash : Bytes → ℕ → Bool) (a : ℕ)
    (hc : Catches (clash (dir s)) (newCodes s.gamecode s.company) name (dir s)) :
    Settles now (createWith chn name size clash a (some .sync) (fine now) s).2 := by
  unfold createWith
  split
  · exact h.settles
  rename_i hname
  obtain ⟨ret,hret,hg⟩ | ⟨-,-,-,hg⟩ := getCntrlBlock_cases chn s
  · rw [hg]
    dsimp only
    rw [if_pos hret]
    exact h.settles
  have ht : Sane (taken s) := h.same rfl rfl
  rw [hg]
  dsimp only
  rw [if_neg (by decide)]
  split
  · exact ht.settles
  split
  · exact (ht.put _).settles
  rename_i i hi
  split
  · exact (ht.put _).settles
  have hend := reserved_settles now (n := size/s.geo.sector) ht chn a hi (Nat.le_of_not_lt hname) hc
  exact (result_snd _).symm ▸ hend

theorem deleteWith_settles (h : Sane s) (chn : ℤ) (name gamecode company : Bytes) :
    Settles now (deleteWith chn name gamecode company (some .sync) (fine now) s).2 := by
  unfold deleteWith
  obtain ⟨ret,hret,hg⟩ | ⟨-,-,-,hg⟩ := getCntrlBlock_cases chn s
  · rw [hg]
    dsimp only
    rw [if_pos hret]
    exact h.settles
  have ht : Sane (taken s) := h.same rfl rfl
  rw [hg]
  dsimp only
  rw [if_neg (by decide)]
  split
  · exact (ht.put _).settles
  rename_i i hi
  have hi := getFileNum_some hi
  change Settles now (orPut (updateDir (some .delete) (fine now) (blanked i (taken s)))).2
  have hbq : Quiet (blanked i (taken s)) := ht.quiet.same rfl
  have hbm : Mounted (blanked i (taken s)) := ⟨ht.mounted.dir,ht.mounted.fat⟩
  have hbd : dir (blanked i (taken s)) = fill (entry i) 64 255 (dir (taken s)) := update_self _ _ _
  obtain ⟨u,hu,hgo⟩ := updateDir_goes now hbq hbm.dir (some .delete)
  rw [hu]
  refine Settles.goes ?_ hgo
  generalize hv : dirRound (blanked i (taken s)) = v
  have hvq : Quiet v := hv ▸ dirRound_quiet hbq
  have hvm : Mounted v := hv ▸ dirRound_mounted hbm
  have hvs : Sound (dir v) := by
    rw [← hv, dir_dirRound, hbd]
    exact (ht.sound.unused hi.1 (fun o ho _ => fill_out (by omega)) (deletedEntry_used i)).stamped
  have hapi : v.apiCb = some .sync := hv ▸ rfl
  change Settles now (orElse (freeBlock v.currFileblock v.apiCb (fine now) { v with apiCb := none })
    (fun ret t => later v.apiCb ret (putCntrlBlock ret t)))
  rw [hapi]
  have hnq : Quiet { v with apiCb := none } := hvq.same rfl
  have hnm : Mounted { v with apiCb := none } := ⟨hvm.dir,hvm.fat⟩
  have hnd : ∀ f, dir (setFat f { v with apiCb := none }) = dir v := dir_setFat hnm
  obtain ⟨f,hf⟩ | ⟨f,u,hf,hgo⟩ := freeBlock_ends now v.currFileblock hnq hnm (some .sync)
  · rw [hf]
    have hs : Sane (setFat f { v with apiCb := none }) :=
      ⟨hvq.same rfl,⟨hvm.dir,hvm.fat⟩,(hnd f).symm ▸ hvs⟩
    exact (hs.put errorBroken).called errorBroken
  · rw [hf]
    have hfm : Mounted (setFat f { v with apiCb := none }) := ⟨hvm.dir,hvm.fat⟩
    have hs : Sane (fatRound (setFat f { v with apiCb := none })) := by
      refine ⟨fatRound_quiet (hnq.same rfl),fatRound_mounted hfm,?_⟩
      rw [dir_fatRound hfm, hnd]
      exact hvs
    exact hs.settles.goes hgo

theorem setStatusEx_settles (h : Sane s) (chn fileno : ℤ) (ent : Bytes) :
    Settles now (setStatusExAsync chn fileno ent (some .sync) (fine now) s).2.2 := by
  unfold setStatusExAsync
  split
  · exact h.settles
  split
  · exact h.settles
  split
  · exact h.settles
  obtain ⟨ret,hret,hg⟩ | ⟨-,-,-,hg⟩ := getCntrlBlock_cases chn s
  · rw [hg]
    dsimp only
    rw [if_pos hret]
    exact h.settles
  have ht : Sane (taken s) := h.same rfl rfl
  have hi : fileno.toNat < maxFiles := by
    have hm : maxFiles = 127 := rfl
    omega
  have hset : ∀ d, Sound d →
      Settles now (orPut (updateDir (some .sync) (fine now) (setDir d (taken s)))).2 := by
    intro d hd
    refine dirRound_settles (ht.quiet.same rfl) ⟨ht.mounted.dir,ht.mounted.fat⟩ ?_
    rw [dir_setDir]
    exact hd
  rw [hg]
  dsimp only
  rw [if_neg (by decide)]
  split
  · exact (ht.put _).settles
  split
  · exact hset _ (ht.sound.fields hi (fun _ => statusExFields_out)
      (fun _ => statusExFields_identity))
  split
  · exact (ht.put _).settles
  rename_i hany
  refine hset _ (Sound.fields (ht.sound.renamed hi ?_) hi (fun _ => statusExFields_out)
    (fun _ => statusExFields_identity))
  intro j hj hne
  by_contra hs
  refine hany (any_eq_true.mpr ⟨j,mem_range.mpr hj.1,?_⟩)
  rw [hj.2, Bool.not_eq_false _ |>.mp hs]
  simpa using hne

theorem statusEntry_out (stats : CardStat) (now : ℕ) {k o : ℕ}
    (h : k < o+7 ∨ o+8 ≤ k ∧ k < o+40 ∨ o+52 ≤ k ∧ k < o+60 ∨ o+64 ≤ k) :
    statusEntry stats now o d k = d k := by
  unfold statusEntry statusFields
  split <;> simp (disch := omega) only [setWord_ne, setHalf_ne, setByte_ne]

theorem setStatus_settles (h : Sane s) (chn fileno : ℤ) (stats : CardStat) :
    Settles now (setStatusAsync chn fileno stats (some .sync) (fine now) s).2.2 := by
  unfold setStatusAsync
  split
  · exact h.settles
  split
  · exact h.settles
  split
  · exact h.settles
  split
  · exact h.settles
  obtain ⟨ret,hret,hg⟩ | ⟨-,-,-,hg⟩ := getCntrlBlock_cases chn s
  · rw [hg]
    dsimp only
    rw [if_pos hret]
    exact h.settles
  have ht : Sane (taken s) := h.same rfl rfl
  have hi : fileno.toNat < maxFiles := by
    have hm : maxFiles = 127 := rfl
    omega
  have h32 : fileNameLen = 32 := rfl
  rw [hg]
  dsimp only
  rw [if_neg (by decide)]
  split
  · exact (ht.put _).settles
  refine dirRound_settles (ht.quiet.same rfl) ⟨ht.mounted.dir,ht.mounted.fat⟩ ?_
  rw [dir_setDir]
  refine ht.sound.fields hi (fun o ho => statusEntry_out _ _ (by omega)) (fun o ho => ?_)
  unfold identityByte at ho
  exact statusEntry_out _ _ (by omega)

/-! Runs of calls. -/

inductive IdCall
  | file (call : FileCall)
  | setStatusEx (chn fileno : ℤ) (ent : Bytes)
  | setStatus (chn fileno : ℤ) (stats : CardStat)

def idCall (now : ℕ) (s : Card) : IdCall → ℤ × Card
  | .file call => fileCall now s call
  | .setStatusEx chn fileno ent => (setStatusExAsync chn fileno ent (some .sync) (fine now) s).2
  | .setStatus chn fileno stats => (setStatusAsync chn fileno stats (some .sync) (fine now) s).2

/-- The names that are compared are padded, and `CARD_CreateEntry` finds the
codes of a new file in the first entry if it compares with it. -/
def Fits (s : Card) : IdCall → Prop
  | .file (.create _ name _ _) => Padded name
  | .file (.createEntry _ direntry _) => Padded direntry.filename ∧ FirstFits s (dir s)
  | _ => True

theorem idCall_settles (now : ℕ) (h : Sane s) {c : IdCall} (hf : Fits s c) :
    Settles now (idCall now s c).2 := by
  cases c with
  | setStatusEx chn fileno ent => exact setStatusEx_settles h chn fileno ent
  | setStatus chn fileno stats => exact setStatus_settles h chn fileno stats
  | file c =>
    cases c with
    | create chn name size a =>
      exact createWith_settles h chn name _ (sameFile name s.gamecode s.company) a
        (create_catches s hf)
    | createEntry chn direntry a =>
      exact createWith_settles h chn _ _
        (fun d => sameFile direntry.filename (bytesAt d (entry 0)) (bytesAt d (entry 0+4)) d) a
          (createEntry_catches s hf.1 hf.2)
    | delete chn name | deleteEntry chn direntry => exact deleteWith_settles h chn _ _ _

structure Issued where
  call : IdCall
  now : ℕ
  steps : ℕ

def issuedStep (m : Issued) (s : Card) : Option Card :=
  let t := follow (advance m.now) m.steps (idCall m.now s m.call).2
  if (advance m.now t).isNone then some t else none

theorem issuedStep_rests {m : Issued} (h : issuedStep m s = some t) :
    Rests (advance m.now) (idCall m.now s m.call).2 t := rests_follow h

theorem issuedStep_sane {m : Issued} (h : Sane s) (hf : Fits s m.call)
    (hs : issuedStep m s = some t) :
    Sane t := by
  obtain ⟨u,hr,hu⟩ := idCall_settles m.now h hf
  exact rests_unique hr (issuedStep_rests hs) ▸ hu

theorem blank_sound : Sound blankDir :=
  ⟨fun _ hi => absurd (hi.2.symm.trans (blankDir_used hi.1)) nofun,
    fun _ _ hi => absurd (hi.2.symm.trans (blankDir_used hi.1)) nofun⟩

theorem formatted_dir : dir (formatted (formatCall header cb s)) = blankDir := by
  obtain ⟨-,hw,-⟩ := formatStage_frame (formatCall header cb s) 9
  have h2 : (formatStage (formatCall header cb s) 9).work 2 = blankDir := by
    rw [hw]
    simp [formatCall]
  simp [dir, formatted, formatEnd, h2]

theorem formatted_fat : fat (formatted (formatCall header cb s)) = blankFat s.geo 1 := by
  obtain ⟨-,hw,-⟩ := formatStage_frame (formatCall header cb s) 9
  have h4 : (formatStage (formatCall header cb s) 9).work 4 = blankFat s.geo 1 := by
    rw [hw]
    simp [formatCall]
  simp [fat, formatted, formatEnd, h4]

theorem formatted_sane (h : Quiet s) : Sane (formatted (formatCall header cb s)) := by
  have hg : Good (formatted (formatCall header cb s)) := formatted_good h
  exact ⟨hg.quiet,hg.mounted,by rw [formatted_dir]; exact blank_sound⟩

theorem Sane.resumed (h : Sane s) (now : ℕ) {cb : Option Cb} (ha : isApp cb = true) :
    Sane (resume now (some (cb.getD .default)) s) := by
  cases cb with
  | none => exact h
  | some c =>
    cases c with
    | sync => exact h
    | user n => exact h.same rfl rfl
    | _ => exact absurd ha (by simp [isApp])

theorem format_sane (now : ℕ) (chn : ℤ) (header : Bytes) (cb : Option Cb) (h : Quiet s)
    (hr : s.result ≠ errorBusy) (hc : chnOk chn = true) (ha : isApp cb = true) :
    ∃ u, Rests (advance now) (formatAsync chn header cb (fine now) s).2 u ∧ Sane u := by
  have hu := (formatted_sane header cb h).resumed now ha
  have hgo := format_goes now (show Quiet (formatCall header cb s) from h.same rfl) rfl
  refine ⟨_,⟨?_,quiet_rests hu.quiet⟩,hu⟩
  rw [formatAsync_quiet h hr hc]
  exact hgo

/-! A name that is there. -/

theorem open_found {chn : ℤ} (h : (open_ chn name a s).1 = errorReady) :
    getCntrlBlock chn s = (errorReady,taken s) ∧
      ∃ i, getFileNum (dir s) name.byte s.gamecode s.company = some i := by
  unfold open_ openWith at h
  split at h
  · exact absurd h (show errorNoCard ≠ errorReady by decide)
  obtain ⟨ret,hret,hg⟩ | ⟨hchn,hat,hr,hg⟩ := getCntrlBlock_cases chn
    (setFile a { s.file a with filenum := -1 } s)
  · rw [hg] at h
    dsimp only at h
    rw [if_pos hret] at h
    exact absurd h (Int.ne_of_lt hret)
  rw [hg] at h
  dsimp only at h
  rw [if_neg (by decide)] at h
  split at h
  · exact absurd h (show errorNoFile ≠ errorReady by decide)
  rename_i i hi
  exact ⟨getCntrlBlock_taken hchn hat hr,i,hi⟩

theorem create_found (h : Sound (dir s)) (hp : Padded name)
    (hi : getFileNum (dir s) name.byte s.gamecode s.company = some i) :
    isFile (dir s) i ∧ sameFile name s.gamecode s.company (dir s) i = true := by
  have hfile := getFileNum_some hi
  have hfind := find?_some hi
  rw [Bool.and_eq_true, Bool.and_eq_true] at hfind
  obtain ⟨⟨-,htext⟩,hcodes⟩ := hfind
  have hbytes := sameText_neat hp.neat (h.neat i hfile) (Nat.zero_add _) htext
  have hname : sameBytes (bytesAt (dir s) (entry i+8)) name.byte fileNameLen = true :=
    sameBytes_iff.mpr (fun o ho => (hbytes o (zero_le o) ho).symm)
  refine ⟨hfile,?_⟩
  unfold sameFile
  cases hg : s.gamecode 0 == 255 <;> cases hc : s.company 0 == 255 <;>
  simp_all

theorem create_exist (h : Sound (dir s)) {chn : ℤ} {b : ℕ} {size : UInt32} (cb : Option Cb)
    (e : Env) (ho : (open_ chn name b s).1 = errorReady) (hp : Padded name)
    (hn : name.len ≤ fileNameLen) (hz : size.toNat ≠ 0) (hs : size.toNat%s.geo.sector = 0) :
    createAsync chn name size a cb e s = (errorExist,putCntrlBlock errorExist (taken s)) := by
  obtain ⟨hg,i,hi⟩ := open_found ho
  obtain ⟨hf,hc⟩ := create_found h hp hi
  have hfree : freeEntry (dir (taken s)) (sameFile name s.gamecode s.company (dir (taken s))) =
    .error errorExist := by
    unfold freeEntry
    rw [if_pos (any_eq_true.mpr ⟨i,mem_range.mpr hf.1,?_⟩)]
    rw [show used (dir (taken s)) i = true from hf.2]
    exact hc
  have hsize : ¬(size.toNat = 0 ∨ size.toNat%(taken s).geo.sector ≠ 0) :=
    not_or.mpr ⟨hz,not_not.mpr hs⟩
  unfold createAsync createWith
  rw [if_neg (by omega), hg]
  dsimp only
  rw [if_neg (by decide), if_neg hsize, hfree]

theorem issued_of_rests {c : IdCall} (h : Rests (advance now) (idCall now s c).2 t) :
    ∃ m : Issued, m.call = c ∧ issuedStep m s = some t := by
  obtain ⟨⟨k,hk⟩,hr⟩ := h
  exact ⟨⟨c,now,k⟩,rfl,by simp [issuedStep, hk, hr]⟩

theorem freeEntry_first {clash : ℕ → Bool} (hc : ∀ j, isFile d j → clash j = false)
    (hi : i < maxFiles)
    (hu : used d i = false) (hb : ∀ j < i, used d j = true) : freeEntry d clash = .ok i := by
  have hany : ¬(range maxFiles).any (fun j => used d j && clash j) = true := by
    intro h
    obtain ⟨j,hj,h⟩ := any_eq_true.mp h
    rw [Bool.and_eq_true] at h
    exact Bool.false_ne_true ((hc j ⟨mem_range.mp hj,h.1⟩).symm.trans h.2)
  have hfind : (range maxFiles).find? (fun j => !used d j) = some i :=
    find?_range_eq_some.mpr ⟨by simp [hu],mem_range.mpr hi,fun j hj => by simp [hb j hj]⟩
  rw [freeEntry, if_neg hany, hfind]

theorem create_adds (now : ℕ) (name : CStr) (h : Good s) (hr : s.result ≠ errorBusy)
    (hn : name.len ≤ fileNameLen) {size : UInt32} (hs : size.toNat = s.geo.sector)
      (hfree : 1 ≤ freeBlocks (fat s)) (a : ℕ)
    (hi : freeEntry (dir s) (sameFile name s.gamecode s.company (dir s)) = .ok i) :
    ∃ block t, Rests (advance now) (idCall now s (.file (.create 0 name size a))).2 t ∧ Good t ∧
      t.result = 0 ∧ t.geo = s.geo ∧ freeBlocks (fat t) = freeBlocks (fat s)-1 ∧
      (t.gamecode = s.gamecode ∧ t.company = s.company) ∧
      dir t = newDir (createdDir s.gamecode s.company block now 1 name i (dir s)) := by
  have hS := s.geo.sector_ge
  have ht : Good (taken s) := h.same rfl rfl
  have hfat : fat (reserved 0 name 1 i a (taken s)) = fat s := fat_setDir ht.mounted _
  obtain ⟨l,c,u,hl,-,harea,-,hall,hgo⟩ := allocBlock_goes now (n := 1)
    (show Quiet (reserved 0 name 1 i a (taken s)) from h.quiet.same rfl)
    ⟨h.mounted.dir,h.mounted.fat⟩ (by rw [hfat]; exact h.consistent.free)
      (by rw [hfat]; exact hfree) .createFat
  rw [hfat] at hgo
  obtain ⟨t,hrest,-,-,h0,⟨hg,hf,hcodes⟩,hd⟩ := created_rests ht.quiet ht.mounted hgo
  have hcall : (idCall now s (.file (.create 0 name size a))).2 = u := by
    have hg : getCntrlBlock 0 s = (errorReady,taken s) :=
      getCntrlBlock_taken (by decide) h.quiet.attached hr
    have hsize : ¬(size.toNat = 0 ∨ size.toNat%(taken s).geo.sector ≠ 0) := by
      rw [hs, show (taken s).geo.sector = s.geo.sector from rfl, mod_self]
      omega
    have hmax := h.free_size
    have hroom : ¬freeBlocks (fat (taken s))*(taken s).geo.sector%4294967296 < size.toNat := by
      have h1 := mul_le_mul_right s.geo.sector hfree
      rw [hs, show fat (taken s) = fat s from rfl, show (taken s).geo = s.geo from rfl,
        mod_eq_of_lt (by omega)]
      omega
    change (createAsync 0 name size a (some .sync) (fine now) s).2 = u
    unfold createAsync createWith
    rw [if_neg (by omega), hg]
    dsimp only
    rw [if_neg (by decide), if_neg hsize, show dir (taken s) = dir s from rfl, hi]
    dsimp only
    rw [if_neg hroom]
    have hdiv : size.toNat/s.geo.sector = 1 := by rw [hs, Nat.div_self (by omega)]
    have hall' : (orPut (allocBlock (size.toNat/s.geo.sector) .createFat (fine now)
        (reserved 0 name (size.toNat/s.geo.sector) i a (taken s)))).2 = u := by
      rw [hdiv, hall]
      rfl
    exact (result_snd _).trans hall'
  obtain ⟨t',hr',hgood⟩ : ∃ t, Rests (advance now)
      (createAsync 0 name size a (some .sync) (fine now) s).2 t ∧ Good t :=
    createWith_rests h 0 name size.toNat (sameFile name s.gamecode s.company) a
  have hgt : Good t := by
    have he : (createAsync 0 name size a (some .sync) (fine now) s).2 = u := hcall
    rw [he] at hr'
    exact rests_unique hr' hrest ▸ hgood
  refine ⟨_,t,hcall ▸ hrest,hgt,h0,hg,?_,hcodes,hd⟩
  rw [hf, newFat_free, allocated_free c (fun k hk => (harea k hk).1) (by rw [hl]; exact hfree), hl]

theorem created_entry (gc co : Bytes) (block now : ℕ) (name : CStr) (hn : name.len ≤ fileNameLen)
    (hi : i < maxFiles) :
    isFile (newDir (createdDir gc co block now n name i d)) i ∧
      SameBytesOf (newDir (createdDir gc co block now n name i d)) i (newCodes gc co)
        (stored name) ∧
      ∀ j < maxFiles, j ≠ i → ∀ o < 64,
        newDir (createdDir gc co block now n name i d) (entry j+o) = d (entry j+o) := by
  have hm : maxFiles = 127 := rfl
  have hf : fileNameLen = 32 := rfl
  have hnew : ∀ j < maxFiles, ∀ o < 64, newDir (createdDir gc co block now n name i d) (entry j+o) =
      createdDir gc co block now n name i d (entry j+o) :=
    fun j hj o ho => newDir_entry _ (by unfold entry; omega)
  refine ⟨⟨hi,?_⟩,⟨fun o ho => ?_,fun o ho => ?_⟩,fun j hj hne o ho => ?_⟩
  · have h0 := hnew i hi 0 (by decide)
    refine Eq.trans (congrArg (· != 255) h0) ?_
    exact createdEntry_used gc co block now i
  · exact (hnew i hi o (by omega)).trans (createdDir_codes gc co block now n name o ho)
  · have h8 := hnew i hi (8+o) (by omega)
    rw [← Nat.add_assoc] at h8
    exact h8.trans (createdDir_name gc co block now n name hn o ho)
  · exact (hnew j hj o ho).trans (createdDir_out _ _ _ _ _ _ hn (by unfold entry; omega))

/-- Two files of one block on a card that has just been formatted, the second of
which `CARD_Create` does not take for the first. -/
theorem two_created (name₁ name₂ : CStr) (hn₁ : name₁.len ≤ fileNameLen)
    (hn₂ : name₂.len ≤ fileNameLen) {o : ℕ} (ho : o < fileNameLen)
    (hne : stored name₁ o ≠ name₂.byte o) : ∃ u m₁ t₁ m₂ t₂ codes,
    Rests (advance 7) (formatAsync 0 (fun _ => 0) (some .sync) (fine 7) plainCard).2 u ∧
      (m₁.call = .file (.create 0 name₁ 8192 5) ∧ issuedStep m₁ u = some t₁) ∧
      (m₂.call = .file (.create 0 name₂ 8192 6) ∧ issuedStep m₂ t₁ = some t₂) ∧
      (isFile (dir t₂) 0 ∧ SameBytesOf (dir t₂) 0 codes (stored name₁)) ∧
      isFile (dir t₂) 1 ∧ SameBytesOf (dir t₂) 1 codes (stored name₂) := by
  have hsize : (8192 : UInt32).toNat = plainCard.geo.sector := by decide
  have hgo := format_goes 7 (show Quiet (formatCall (fun _ => 0) (some .sync) plainCard) from
    plainCard_quiet.same rfl) rfl
  have hgood : Good (formatted (formatCall (fun _ => 0) (some .sync) plainCard)) :=
    formatted_good plainCard_quiet
  have hdir := formatted_dir (s := plainCard) (fun _ => 0) (some .sync)
  have hfat := formatted_fat (s := plainCard) (fun _ => 0) (some .sync)
  have hgeo : (formatted (formatCall (fun _ => 0) (some .sync) plainCard)).geo = plainCard.geo :=
    (formatStage_frame (formatCall (fun _ => 0) (some .sync) plainCard) 9).1
  have hrest : Rests (advance 7) (formatAsync 0 (fun _ => 0) (some .sync) (fine 7) plainCard).2
      (formatted (formatCall (fun _ => 0) (some .sync) plainCard)) :=
    ⟨hgo,quiet_rests hgood.quiet⟩
  have hres : (formatted (formatCall (fun _ => 0) (some .sync) plainCard)).result = 0 := rfl
  generalize formatted (formatCall (fun _ => 0) (some .sync) plainCard) = u at *
  have hfree : freeBlocks (fat u) = 59 := by
    rw [hfat]
    rfl
  obtain ⟨b₁,t₁,hr₁,hg₁,h0₁,hgeo₁,hf₁,hc₁,hd₁⟩ := create_adds 8 name₁ (i := 0) hgood
    (by rw [hres]; decide) hn₁ (hsize.trans (hgeo ▸ rfl)) (by rw [hfree]; decide) 5 (by
      rw [hdir]
      exact freeEntry_first (fun _ hj => absurd (hj.2.symm.trans (blankDir_used hj.1)) nofun)
        (by decide) (blankDir_used (by decide)) nofun)
  rw [hdir] at hd₁
  obtain ⟨hfile₁,hbytes₁,hrest₁⟩ := created_entry u.gamecode u.company b₁ 8 name₁
    (i := 0) hn₁ (by decide)
  rw [← hd₁] at hfile₁ hbytes₁ hrest₁
  have hunused : ∀ j < maxFiles, j ≠ 0 → used (dir t₁) j = false := by
    intro j hj hne
    rw [← blankDir_used hj]
    exact congrArg (· != 255) (hrest₁ j hj hne 0 (by decide))
  have hclash : sameFile name₂ t₁.gamecode t₁.company (dir t₁) 0 = false := by
    have hname : sameBytes (bytesAt (dir t₁) (entry 0+8)) name₂.byte fileNameLen = false :=
      Bool.eq_false_iff.mpr fun hs =>
        hne ((hbytes₁.2 o ho).symm.trans (sameBytes_iff.mp hs o ho))
    rw [sameFile, hname, Bool.false_and]
  obtain ⟨b₂,t₂,hr₂,-,-,-,-,-,hd₂⟩ := create_adds 9 name₂ hg₁
    (by rw [h0₁]; decide) hn₂ (hsize.trans (hgeo₁ ▸ hgeo ▸ rfl)) (by rw [hf₁, hfree]; decide) 6 (by
      refine freeEntry_first (fun j hj => ?_) (by decide) (hunused 1 (by decide) (by decide)) ?_
      · have hj0 : j = 0 := by
          by_contra hne
          exact Bool.false_ne_true ((hunused j hj.1 hne).symm.trans hj.2)
        rw [hj0]
        exact hclash
      · intro j hj
        rw [lt_one_iff.mp hj]
        exact hfile₁.2)
  obtain ⟨hfile₂,hbytes₂,hrest₂⟩ := created_entry t₁.gamecode t₁.company b₂ 9 name₂
    (i := 1) hn₂ (by decide)
  rw [← hd₂] at hfile₂ hbytes₂ hrest₂
  rw [hc₁.1, hc₁.2] at hbytes₂
  have hf : fileNameLen = 32 := rfl
  have hkeep := hrest₂ 0 (by decide) (by decide)
  obtain ⟨m₁,hm₁,hs₁⟩ := issued_of_rests hr₁
  obtain ⟨m₂,hm₂,hs₂⟩ := issued_of_rests hr₂
  refine ⟨u,m₁,t₁,m₂,t₂,_,hrest,⟨hm₁,hs₁⟩,⟨hm₂,hs₂⟩,⟨?_,?_,?_⟩,hfile₂,hbytes₂⟩
  · exact (isFile_congr (hkeep 0 (by decide))).mpr hfile₁
  · exact fun o ho => (hkeep o (by omega)).trans (hbytes₁.1 o ho)
  · intro o ho
    have h8 := hkeep (8+o) (by omega)
    rw [← Nat.add_assoc] at h8
    exact h8.trans (hbytes₁.2 o ho)

/-- On a card that has been formatted no two files have the same identity
after every sequence of calls that fit, and a name that can be opened is not
created again. -/
theorem identities_unique {u : Card} {chn : ℤ} {header : Bytes} {cb : Option Cb}
    (h : Quiet s) (hr : s.result ≠ errorBusy) (hc : chnOk chn = true) (ha : isApp cb = true)
    (hf : Rests (advance now) (formatAsync chn header cb (fine now) s).2 u)
    (ht : Reach issuedStep (fun m v => Fits v m.call) u t) :
    Unique (dir t) ∧ ∀ chn name (size : UInt32) a b cb e, (open_ chn name b t).1 = errorReady →
      Padded name → name.len ≤ fileNameLen → size.toNat ≠ 0 → size.toNat%t.geo.sector = 0 →
        (createAsync chn name size a cb e t).1 = errorExist ∧
        tables (createAsync chn name size a cb e t).2 = tables t := by
  obtain ⟨u',hu',hs⟩ := format_sane now chn header cb h hr hc ha
  rw [rests_unique hu' hf] at hs
  have hsane : Sane t :=
    reach_invariant hs (fun m _ _ hi hok hm => issuedStep_sane hi hok hm) ht
  refine ⟨hsane.sound.unique,fun chn name size a b cb e ho hp hn hz hm => ?_⟩
  rw [create_exist hsane.sound cb e ho hp hn hz hm]
  exact ⟨rfl,(putCntrlBlock_same errorExist (taken t)).2⟩

theorem shortName_padded : Padded shortName := by
  intro o h0 _
  have h1 : 1 ≤ o := h0
  exact if_neg (by omega)

def otherName : CStr := ⟨fun i => if i = 0 then 98 else 0,1,by decide,rfl⟩

theorem otherName_padded : Padded otherName := by
  intro o h0 _
  have h1 : 1 ≤ o := h0
  exact if_neg (by omega)

/-- The files `a` and `b`. -/
theorem identities_unique_created : ∃ u m₁ t₁ m₂ t₂,
    Rests (advance 7) (formatAsync 0 (fun _ => 0) (some .sync) (fine 7) plainCard).2 u ∧
      (m₁.call = .file (.create 0 shortName 8192 5) ∧ issuedStep m₁ u = some t₁) ∧
      (m₂.call = .file (.create 0 otherName 8192 6) ∧ issuedStep m₂ t₁ = some t₂) ∧
      (isFile (dir t₂) 0 ∧ isFile (dir t₂) 1) ∧ Unique (dir t₂) := by
  obtain ⟨u,m₁,t₁,m₂,t₂,-,hu,h₁,h₂,⟨hf₁,-⟩,hf₂,-⟩ := two_created shortName otherName
    (o := 0) (by decide) (by decide) (by decide) (by decide)
  have hreach : Reach issuedStep (fun m v => Fits v m.call) u t₂ :=
    .step (.step .start (h₁.1.symm ▸ shortName_padded) h₁.2) (h₂.1.symm ▸ otherName_padded) h₂.2
  exact ⟨u,m₁,t₁,m₂,t₂,hu,h₁,h₂,⟨hf₁,hf₂⟩,
    (identities_unique plainCard_quiet (by decide) (by decide) rfl hu hreach).1⟩

/-! The same name twice, from a buffer that holds more than the name. -/

def dirtyName : CStr := ⟨fun i => if i = 0 then 97 else if i = 1 then 0 else 98,1,by decide,rfl⟩

theorem stored_dirty (o : ℕ) : stored shortName o = stored dirtyName o := by
  have hs : shortName.len = 1 := rfl
  have hd : dirtyName.len = 1 := rfl
  unfold stored
  rw [hs, hd]
  split
  · rename_i h
    rw [lt_one_iff.mp h]
    rfl
  · rfl

/-- The third byte of the buffer is not that of the entry. -/
theorem same_name_twice : ∃ u m₁ t₁ m₂ t₂,
    Rests (advance 7) (formatAsync 0 (fun _ => 0) (some .sync) (fine 7) plainCard).2 u ∧
      m₁.call = .file (.create 0 shortName 8192 5) ∧ issuedStep m₁ u = some t₁ ∧
      m₂.call = .file (.create 0 dirtyName 8192 6) ∧ issuedStep m₂ t₁ = some t₂ ∧
      ¬Unique (dir t₂) := by
  obtain ⟨u,m₁,t₁,m₂,t₂,codes,hu,h₁,h₂,⟨hf₁,hb₁⟩,hf₂,hb₂⟩ := two_created shortName dirtyName
    (o := 2) (by decide) (by decide) (by decide) (by decide)
  refine ⟨u,m₁,t₁,m₂,t₂,hu,h₁.1,h₁.2,h₂.1,h₂.2,fun hunique => ?_⟩
  have hsame : SameBytesOf (dir t₂) 0 (codesOf (dir t₂) 1) (nameOf (dir t₂) 1) :=
    ⟨fun o ho => (hb₁.1 o ho).trans (hb₂.1 o ho).symm,
      fun o ho => (hb₁.2 o ho).trans ((stored_dirty o).trans (hb₂.2 o ho).symm)⟩
  exact absurd (hunique 0 1 hf₁ hf₂ (sameId_of_bytes hsame)) (by decide)

end Libogc.CardIdentityRun
