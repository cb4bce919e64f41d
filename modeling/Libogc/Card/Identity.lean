import Libogc.Card.Consistency

/-!
# Identities of files

A file is known by its game code, company and name. What the calls that write
these fields compare before they write them, and whether two files of a card
can come to have the same ones.
-/

set_option autoImplicit false

namespace Libogc.CardIdentity
open ByteStore CardLayout CardControl CardCallbacks CardCalls CardStatus CardTables CardEntries
open CardConsistency

/-! Names. -/

/-- Behind the end of the text there is nothing but zeros. -/
def Neat (n : Bytes) : Prop := ∀ j k, j < k → k < fileNameLen → n j = 0 → n k = 0

def nameOf (d : Bytes) (i : ℕ) : Bytes := bytesAt d (entry i+8)

def codesOf (d : Bytes) (i : ℕ) : Bytes := bytesAt d (entry i)

variable {a b d d' : Bytes} {i j : ℕ}

theorem sameBytes_iff {n : ℕ} : sameBytes a b n = true ↔ ∀ k < n, a k = b k := decide_eq_true_iff

variable {e k m o : ℕ}

theorem sameText_refl {n : ℕ} (h : ∀ o < k+n, a o = b o) : sameText a b k n = true := by
  induction n generalizing k with
  | zero => rfl
  | succ n ih =>
    rw [sameText, if_neg (by simp [h k (by omega)])]
    split
    · rfl
    · exact ih (fun o ho => h o (by omega))

theorem sameText_neat {n : ℕ} (ha : Neat a) (hb : Neat b) (hn : k+n = fileNameLen)
    (h : sameText a b k n = true) : ∀ o, k ≤ o → o < fileNameLen → a o = b o := by
  induction n generalizing k with
  | zero => omega
  | succ n ih =>
    rw [sameText] at h
    split at h
    · exact absurd h nofun
    rename_i he
    have hk : a k = b k := by simpa using he
    intro o h0 h1
    obtain rfl | hlt := Nat.eq_or_lt_of_le h0
    · exact hk
    split at h
    · rename_i hz
      have hz : a k = 0 := by simpa using hz
      rw [ha k o hlt h1 hz, hb k o hlt h1 (hk ▸ hz)]
    · exact ih (by omega) h o hlt h1

/-! The directory. -/

def SameId (d : Bytes) (i j : ℕ) : Prop :=
  sameBytes (codesOf d i) (codesOf d j) 6 = true ∧
    sameText (nameOf d i) (nameOf d j) 0 fileNameLen = true

def Unique (d : Bytes) : Prop := ∀ i j, isFile d i → isFile d j → SameId d i j → i = j

structure Sound (d : Bytes) : Prop where
  neat : ∀ i, isFile d i → Neat (nameOf d i)
  unique : Unique d

def SameBytesOf (d : Bytes) (i : ℕ) (codes name : Bytes) : Prop :=
  (∀ o < 6, codesOf d i o = codes o) ∧ ∀ o < fileNameLen, nameOf d i o = name o

theorem sameId_of_bytes (h : SameBytesOf d i (codesOf d j) (nameOf d j)) : SameId d i j :=
  ⟨sameBytes_iff.mpr h.1,sameText_refl (fun o ho => h.2 o (by omega))⟩

theorem Sound.set (h : Sound d) (hi : i < maxFiles)
    (hout : ∀ o, o < entry i ∨ entry i+64 ≤ o → o < 8128 → d' o = d o)
    (hneat : isFile d' i → Neat (nameOf d' i))
    (hnew : isFile d' i → ∀ j, isFile d j → j ≠ i → ¬SameBytesOf d j (codesOf d' i) (nameOf d' i)) :
    Sound d' := by
  have hm : maxFiles = 127 := rfl
  have hf : fileNameLen = 32 := rfl
  have hbyte : ∀ j < maxFiles, j ≠ i → ∀ o < 64, d' (entry j+o) = d (entry j+o) := by
    intro j hj hne o ho
    exact hout _ (by unfold entry; omega) (by unfold entry; omega)
  have hfile : ∀ j, j ≠ i → isFile d' j → isFile d j := by
    intro j hne hj
    refine ⟨hj.1,?_⟩
    have h0 := hbyte j hj.1 hne 0 (by decide)
    have hu := hj.2
    rw [← hu]
    exact congrArg (· != 255) h0.symm
  have hname : ∀ j < maxFiles, j ≠ i → ∀ o < fileNameLen, nameOf d' j o = nameOf d j o := by
    intro j hj hne o ho
    have := hbyte j hj hne (8+o) (by omega)
    rwa [← Nat.add_assoc] at this
  have hcodes : ∀ j < maxFiles, j ≠ i → ∀ o < 6, codesOf d' j o = codesOf d j o :=
    fun j hj hne o ho => hbyte j hj hne o (by omega)
  have hn : ∀ j, isFile d' j → Neat (nameOf d' j) := by
    intro j hj
    by_cases hji : j = i
    · subst hji
      exact hneat hj
    · intro k l hkl hl hz
      rw [hname j hj.1 hji k (by omega)] at hz
      rw [hname j hj.1 hji l hl]
      exact h.neat j (hfile j hji hj) k l hkl hl hz
  -- no other file has the bytes of the entry that has been written
  have hone : ∀ j, isFile d' i → isFile d' j → j ≠ i →
      ¬SameBytesOf d' j (codesOf d' i) (nameOf d' i) := by
    intro j hii hj hne hs
    refine hnew hii j (hfile j hne hj) hne ⟨fun o ho => ?_,fun o ho => ?_⟩
    · rw [← hcodes j hj.1 hne o ho]
      exact hs.1 o ho
    · rw [← hname j hj.1 hne o ho]
      exact hs.2 o ho
  refine ⟨hn,fun j k hj hk hs => ?_⟩
  have hbytes : ∀ o < fileNameLen, nameOf d' j o = nameOf d' k o :=
    fun o ho => sameText_neat (hn j hj) (hn k hk) (Nat.zero_add _) hs.2 o (Nat.zero_le o) ho
  have hcode := sameBytes_iff.mp hs.1
  by_contra hne
  by_cases hji : j = i
  · subst hji
    exact hone k hj hk (fun he => hne he.symm)
      ⟨fun o ho => (hcode o ho).symm,fun o ho => (hbytes o ho).symm⟩
  · by_cases hki : k = i
    · subst hki
      exact hone j hk hj hne ⟨hcode,hbytes⟩
    · refine hne (h.unique j k (hfile j hji hj) (hfile k hki hk)
        (sameId_of_bytes ⟨fun o ho => ?_,fun o ho => ?_⟩))
      · rw [← hcodes j hj.1 hji o ho, ← hcodes k hk.1 hki o ho]
        exact hcode o ho
      · rw [← hname j hj.1 hji o ho, ← hname k hk.1 hki o ho]
        exact hbytes o ho

theorem newDir_entry (d : Bytes) (h : o < 8128) : newDir d o = d o :=
  newDir_below d (by omega)

theorem isFile_congr (h : d' (entry i) = d (entry i)) : isFile d' i ↔ isFile d i := by
  unfold isFile used
  rw [h]

theorem Sound.stamped (h : Sound d) : Sound (newDir d) :=
  h.set (i := 0) (by decide) (fun o _ ho => newDir_entry d ho)
    (fun hi => by
      have hn := h.neat 0 ((isFile_congr (newDir_entry d (by decide))).mp hi)
      intro j k hjk hk hz
      have hf : fileNameLen = 32 := rfl
      have hb : ∀ o < fileNameLen, nameOf (newDir d) 0 o = nameOf d 0 o :=
        fun o ho => newDir_entry d (by unfold entry; omega)
      rw [hb k hk]
      exact hn j k hjk hk (hb j (by omega) ▸ hz))
    (fun hi j hj hne hs => by
      have h0 := (isFile_congr (newDir_entry d (by decide))).mp hi
      refine hne (h.unique j 0 hj h0 (sameId_of_bytes ⟨fun o ho => ?_,fun o ho => ?_⟩))
      · exact (hs.1 o ho).trans (newDir_entry d (by unfold entry; omega))
      · have hf : fileNameLen = 32 := rfl
        exact (hs.2 o ho).trans (newDir_entry d (by unfold entry; omega)))

/-! A new file. -/

def newCodes (gamecode company : Bytes) : Bytes := fun o =>
  if gamecode 0 = 255 then 0 else if o < 4 then gamecode o else company (o-4)

def stored (name : CStr) : Bytes := fun o => if o < name.len then name.byte o else 0

theorem stored_neat (name : CStr) : Neat (stored name) := by
  intro j k hjk _ hz
  unfold stored at *
  split at hz
  · rename_i hj
    exact absurd hz (name.inner j hj)
  · rw [if_neg (by omega)]

variable (gamecode company : Bytes) (block now n : ℕ) (name : CStr)

def createdDir (i : ℕ) (d : Bytes) : Bytes :=
  createdEntry gamecode company block now (entry i) (namedEntry name n i d)

theorem createdDir_name (hn : name.len ≤ fileNameLen) :
    ∀ o < fileNameLen, nameOf (createdDir gamecode company block now n name i d) i o =
      stored name o := by
  intro o ho
  have h32 : fileNameLen = 32 := rfl
  have hname : namedEntry name n i d (entry i+8+o) = stored name o := by
    unfold namedEntry stored
    by_cases hl : o < name.len+1
    · rw [blit_in (by omega), show 0+(entry i+8+o-(entry i+8)) = o by omega]
      by_cases hlt : o < name.len
      · rw [if_pos hlt]
      · rw [if_neg hlt, show o = name.len by omega, name.ends]
    · rw [blit_out (by omega), fill_in (by omega), if_neg (by omega)]
  exact (createdEntry_out gamecode company block now (by omega)).trans hname

theorem createdDir_codes :
    ∀ o < 6, codesOf (createdDir gamecode company block now n name i d) i o =
      newCodes gamecode company o := by
  intro o ho
  have hcode : ∀ e : ℕ, ∀ c : Bytes,
      createdEntry gamecode company block now e c (e+o) = newCodes gamecode company o := by
    intro e c
    unfold createdEntry newCodes
    by_cases hg : gamecode 0 = 255
    · rw [if_neg (by simp [hg]), if_pos hg]
      simp (disch := omega) only [setWord_ne, setHalf_ne, setByte_ne]
      by_cases ho4 : o < 4
      · rw [fill_out (by omega), fill_in (by omega)]
      · rw [fill_in (by omega)]
    · rw [if_pos (by simpa using hg), if_neg hg]
      simp (disch := omega) only [setWord_ne, setHalf_ne, setByte_ne]
      by_cases ho4 : o < 4
      · rw [blit_out (by omega), blit_in (by omega), if_pos ho4]
        congr 1
        omega
      · rw [blit_in (by omega), if_neg ho4]
        congr 1
        omega
  exact hcode (entry i) _

theorem createdDir_out (hn : name.len ≤ fileNameLen) (h : o < entry i ∨ entry i+64 ≤ o) :
    createdDir gamecode company block now n name i d o = d o := by
  rw [createdDir, createdEntry_out _ _ _ _ (by omega), namedEntry_out name n i d hn (by omega)
    (by omega)]

def Catches (clash : ℕ → Bool) (codes : Bytes) (name : CStr) (d : Bytes) : Prop :=
  ∀ j, isFile d j → SameBytesOf d j codes (stored name) → clash j = true

variable {clash : ℕ → Bool} {bend : Bool}

theorem freeEntry_clear (h : freeEntry d clash = .ok i) (hj : isFile d j) : clash j = false := by
  unfold freeEntry at h
  split at h
  · exact absurd h nofun
  · rename_i hno
    by_contra hc
    refine hno (List.any_eq_true.mpr ⟨j,List.mem_range.mpr hj.1,?_⟩)
    rw [hj.2, Bool.not_eq_false _ |>.mp hc]
    rfl

variable {gamecode company block now n name}

theorem Sound.created (h : Sound d) (hi : freeEntry d clash = .ok i)
    (hn : name.len ≤ fileNameLen) (hc : Catches clash (newCodes gamecode company) name d) :
    Sound (createdDir gamecode company block now n name i d) := by
  refine h.set (freeEntry_ok hi).1 (fun o ho _ => createdDir_out _ _ _ _ _ _ hn ho) ?_ ?_
  · intro _ j k hjk hk hz
    rw [createdDir_name _ _ _ _ _ _ hn _ (by omega)] at hz
    rw [createdDir_name _ _ _ _ _ _ hn _ hk]
    exact stored_neat name j k hjk hk hz
  · intro _ j hj hne hs
    refine Bool.false_ne_true
      ((freeEntry_clear hi hj).symm.trans (hc j hj ⟨fun o ho => ?_,fun o ho => ?_⟩))
    · rw [hs.1 o ho, createdDir_codes _ _ _ _ _ _ o ho]
    · rw [hs.2 o ho, createdDir_name _ _ _ _ _ _ hn o ho]

theorem Sound.unused (h : Sound d) (hi : i < maxFiles)
    (hout : ∀ o, o < entry i ∨ entry i+64 ≤ o → o < 8128 → d' o = d o) (hu : used d' i = false) :
    Sound d' :=
  h.set hi hout (fun hf => absurd (hf.2.symm.trans hu) nofun)
    (fun hf => absurd (hf.2.symm.trans hu) nofun)

/-- The buffer of a name is zero from its end on, as far as it is compared. -/
def Padded (name : CStr) : Prop := ∀ o, name.len ≤ o → o < fileNameLen → name.byte o = 0

theorem Padded.stored (h : Padded name) : ∀ o < fileNameLen, stored name o = name.byte o := by
  intro o ho
  unfold CardIdentity.stored
  split
  · rfl
  · exact (h o (by omega) ho).symm

theorem Padded.neat (h : Padded name) : Neat name.byte := by
  intro j k hjk hk hz
  by_cases hj : j < name.len
  · exact absurd hz (name.inner j hj)
  · exact h k (by omega) hk

/-- The first entry has the codes of a new file, or is compared with none. -/
def FirstFits (s : Card) (d : Bytes) : Prop :=
  d (entry 0) = 255 ∨ d (entry 0+4) = 255 ∨ ∀ o < 6, codesOf d 0 o = newCodes s.gamecode s.company o

theorem sameFile_found {g c codes : Bytes} (h : Padded name)
    (hs : SameBytesOf d j codes (stored name)) (hc : g 0 = 255 ∨ c 0 = 255 ∨
      ∀ o < 6, codesOf d j o = if o < 4 then g o else c (o-4)) : sameFile name g c d j = true := by
  have hname : sameBytes (bytesAt d (entry j+8)) name.byte fileNameLen = true :=
    sameBytes_iff.mpr (fun o ho => (hs.2 o ho).trans (h.stored o ho))
  rw [sameFile, hname, Bool.true_and]
  by_cases hg : g 0 = 255
  · simp [hg]
  by_cases hco : c 0 = 255
  · simp [hco]
  have hcodes := (hc.resolve_left hg).resolve_left hco
  have h4 : sameBytes (bytesAt d (entry j)) g 4 = true :=
    sameBytes_iff.mpr (fun o ho => (hcodes o (by omega)).trans (if_pos ho))
  have h2 : sameBytes (bytesAt d (entry j+4)) c 2 = true := by
    refine sameBytes_iff.mpr (fun o ho => ?_)
    have h6 := hcodes (4+o) (by omega)
    rw [if_neg (by omega), Nat.add_sub_cancel_left] at h6
    rw [← h6]
    exact congrArg d (Nat.add_assoc _ _ _)
  simp [h4, h2, hg, hco]

theorem create_catches (s : Card) (h : Padded name) :
    Catches (sameFile name s.gamecode s.company d) (newCodes s.gamecode s.company) name d := by
  intro j _ hs
  by_cases hg : s.gamecode 0 = 255
  · exact sameFile_found h hs (.inl hg)
  · refine sameFile_found h hs (.inr (.inr fun o ho => ?_))
    rw [hs.1 o ho, newCodes, if_neg hg]

theorem createEntry_catches (s : Card) (h : Padded name) (hf : FirstFits s d) :
    Catches (sameFile name (bytesAt d (entry 0)) (bytesAt d (entry 0+4)) d)
      (newCodes s.gamecode s.company) name d := by
  intro j _ hs
  refine sameFile_found h hs (hf.imp id (Or.imp id fun h0 o ho => ?_))
  rw [hs.1 o ho, ← h0 o ho]
  split
  · rfl
  · exact congrArg d (by omega)

/-! `CARD_SetStatusEx`. -/

variable {ent : Bytes}

theorem cutName_out (h : o < 8+k ∨ 8+k+m ≤ o) : cutName m k bend ent o = ent o := by
  induction m generalizing k bend ent with
  | zero => rfl
  | succ m ih =>
    rw [cutName]
    split
    · rw [ih (by omega), setByte_ne _ (by omega)]
    · exact ih (by omega)

theorem cutName_zero (h0 : k ≤ o) (h1 : o < k+m) : cutName m k true ent (8+o) = 0 := by
  induction m generalizing k ent with
  | zero => omega
  | succ m ih =>
    rw [cutName, if_pos (Bool.true_or _)]
    obtain rfl | hlt := Nat.eq_or_lt_of_le h0
    · rw [cutName_out (by omega), setByte_same]
    · exact ih hlt (by omega)

theorem cutName_neat {j l : ℕ} (hj : k ≤ j) (hl : j < l) (hm : l < k+m)
    (hz : cutName m k bend ent (8+j) = 0) : cutName m k bend ent (8+l) = 0 := by
  induction m generalizing k bend ent with
  | zero => omega
  | succ m ih =>
    rw [cutName] at hz ⊢
    split
    · exact cutName_zero (by omega) (by omega)
    · rename_i hb
      rw [if_neg hb] at hz
      obtain rfl | hlt := Nat.eq_or_lt_of_le hj
      · -- the byte at this position was not zero
        rw [cutName_out (by omega)] at hz
        simp [hz] at hb
      · exact ih hlt (by omega) hz

def identityByte (o : ℕ) : Prop := o < 6 ∨ 8 ≤ o ∧ o < 40

theorem statusExFields_identity (h : identityByte o) : statusExFields ent e d (e+o) = d (e+o) := by
  unfold identityByte at h
  unfold statusExFields
  simp (disch := omega) only [setByte_ne, blit_out]

theorem statusExFields_out (h : o < e ∨ e+64 ≤ o) : statusExFields ent e d o = d o := by
  unfold statusExFields
  simp (disch := omega) only [setByte_ne, blit_out]

theorem setIdentity_out (h : o < e ∨ e+64 ≤ o) : setIdentity ent e d o = d o := by
  have h32 : fileNameLen = 32 := rfl
  unfold setIdentity
  simp (disch := omega) only [blit_out]

theorem setIdentity_byte (h : identityByte o) : setIdentity ent e d (e+o) = ent o := by
  have h32 : fileNameLen = 32 := rfl
  unfold identityByte at h
  unfold setIdentity
  by_cases h4 : o < 4
  · rw [blit_out (by omega), blit_in (by omega)]
    congr 1
    omega
  by_cases h6 : o < 6
  · rw [blit_in (by omega)]
    congr 1
    omega
  · rw [blit_out (by omega), blit_out (by omega), blit_in (by omega)]
    congr 1
    omega

theorem sameIdentity_iff : sameIdentity d i ent = true ↔ SameBytesOf d i ent (bytesAt ent 8) := by
  unfold sameIdentity SameBytesOf
  rw [Bool.and_eq_true, Bool.and_eq_true, sameBytes_iff, sameBytes_iff, sameBytes_iff]
  constructor
  · rintro ⟨⟨h1,h2⟩,h3⟩
    refine ⟨fun o ho => ?_,h1⟩
    by_cases h4 : o < 4
    · exact h2 o h4
    · have := h3 (o-4) (by omega)
      unfold bytesAt at this
      rw [show entry i+4+(o-4) = entry i+o by omega, show 4+(o-4) = o by omega] at this
      exact this
  · rintro ⟨h1,h2⟩
    refine ⟨⟨h2,fun o ho => h1 o (by omega)⟩,fun o ho => ?_⟩
    have := h1 (4+o) (by omega)
    unfold codesOf bytesAt at *
    rw [← this, Nat.add_assoc]

theorem Sound.fields (h : Sound d) (hi : i < maxFiles)
    (hout : ∀ o, o < entry i ∨ entry i+64 ≤ o → d' o = d o)
    (hid : ∀ o, identityByte o → d' (entry i+o) = d (entry i+o)) : Sound d' := by
  have h32 : fileNameLen = 32 := rfl
  have hname : ∀ o < fileNameLen, nameOf d' i o = nameOf d i o := by
    intro o ho
    have hb := hid (8+o) (.inr ⟨by omega,by omega⟩)
    rwa [← Nat.add_assoc] at hb
  have hcodes : ∀ o < 6, codesOf d' i o = codesOf d i o := fun o ho => hid o (.inl ho)
  have h0 : d' (entry i) = d (entry i) := hid 0 (.inl (by decide))
  have hfile : isFile d' i → isFile d i := (isFile_congr h0).mp
  refine h.set hi (fun o ho _ => hout o ho) ?_ ?_
  · intro hf j k hjk hk hz
    rw [hname k hk]
    exact h.neat i (hfile hf) j k hjk hk (hname j (by omega) ▸ hz)
  · intro hf j hj hne hs
    refine hne (h.unique j i hj (hfile hf) (sameId_of_bytes ⟨fun o ho => ?_,fun o ho => ?_⟩))
    · rw [hs.1 o ho, hcodes o ho]
    · rw [hs.2 o ho, hname o ho]

theorem Sound.renamed (h : Sound d) (hi : i < maxFiles)
    (hno : ∀ j, isFile d j → j ≠ i → sameIdentity d j (cutName fileNameLen 0 false ent) = false) :
    Sound (setIdentity (cutName fileNameLen 0 false ent) (entry i) d) := by
  have h32 : fileNameLen = 32 := rfl
  generalize hcut : cutName fileNameLen 0 false ent = cut at hno
  have hname : ∀ o < fileNameLen, nameOf (setIdentity cut (entry i) d) i o = bytesAt cut 8 o := by
    intro o ho
    have hb : setIdentity cut (entry i) d (entry i+(8+o)) = cut (8+o) :=
      setIdentity_byte (.inr ⟨by omega,by omega⟩)
    rwa [← Nat.add_assoc] at hb
  refine h.set hi (fun o ho _ => setIdentity_out ho) ?_ ?_
  · intro _ j k hjk hk hz
    rw [hname j (by omega)] at hz
    rw [hname k hk]
    rw [← hcut] at hz ⊢
    exact cutName_neat (Nat.zero_le j) hjk (by omega) hz
  · intro _ j hj hne hs
    refine Bool.false_ne_true
      ((hno j hj hne).symm.trans (sameIdentity_iff.mpr ⟨fun o ho => ?_,fun o ho => ?_⟩))
    · exact (hs.1 o ho).trans (setIdentity_byte (.inl ho))
    · rw [hs.2 o ho, hname o ho]

end Libogc.CardIdentity
