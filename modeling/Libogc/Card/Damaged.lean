import Libogc.Card.Recovery

/-!
# Damaged tables

What mounting accepts when copies of the tables are damaged, and what the
release of blocks does to a file allocation table whose chains are arbitrary.
-/

set_option autoImplicit false

namespace Libogc.CardDamaged
open ByteStore CardLayout CardControl CardCallbacks CardCalls CardTransfer CardFatLoops
  CardEntries List
open CardVerify CardRecovery LinkedChain

/-! Mounting. -/

def fatValid (blocks : ℕ) (f : Bytes) : Prop := fatSigned f ∧ zeroWords blocks f = freeBlocks f

def GoodCopy (good : Bytes → Prop) (a b t : Bytes) : Prop := good a ∧ t = a ∨ good b ∧ t = b

/-- Both copies of one of the tables are bad, and those of the other are not. -/
def TableLost (s : Card) : Prop :=
  ¬dirSigned (s.work 1) ∧ ¬dirSigned (s.work 2) ∧
      fatValid s.geo.blocks (s.work 3) ∧ fatValid s.geo.blocks (s.work 4) ∨
    dirSigned (s.work 1) ∧ dirSigned (s.work 2) ∧
      ¬fatValid s.geo.blocks (s.work 3) ∧ ¬fatValid s.geo.blocks (s.work 4)

section Copies

variable {good : Bytes → Bool} {updated : Bytes → ℕ} {a b : Bytes}

theorem badCopies_le : badCopies good a b ≤ 2 := by
  unfold badCopies
  cases good a <;> cases good b <;> decide

theorem badCopies_two : badCopies good a b = 2 ↔ ¬good a = true ∧ ¬good b = true := by
  unfold badCopies
  cases good a <;> cases good b <;> decide

theorem badCopies_zero : badCopies good a b = 0 ↔ good a = true ∧ good b = true := by
  unfold badCopies
  cases good a <;> cases good b <;> decide

theorem newest_good : GoodCopy (fun t => good t = true) a b (newest good updated a b) ↔
    badCopies good a b < 2 := by
  unfold GoodCopy badCopies newest
  by_cases hu : updated a < updated b <;>
  cases ha : good a <;> cases hb : good b <;> simp [ha, hb, hu]

end Copies

variable {v : ℕ} (d : Bytes)

theorem dirGood_iff : dirGood d = true ↔ dirSigned d := by
  rw [dirGood, decide_eq_true_eq]

theorem fatGood_iff (blocks : ℕ) (f : Bytes) : fatGood blocks f = true ↔ fatValid blocks f := by
  rw [fatGood, Bool.and_eq_true, decide_eq_true_eq, decide_eq_true_eq, fatValid]

theorem goodCopy_congr {p q : Bytes → Prop} (h : ∀ t, p t ↔ q t) {a b t : Bytes} :
    GoodCopy p a b t ↔ GoodCopy q a b t := by
  unfold GoodCopy
  rw [h, h]

theorem verify_sound {s : Card} (hd : s.currDir = 0) (hf : s.currFat = 0) :
    ((verify s).1 = errorReady →
        GoodCopy dirSigned (s.work 1) (s.work 2) (dir (verify s).2) ∧
        GoodCopy (fatValid s.geo.blocks) (s.work 3) (s.work 4) (fat (verify s).2)) ↔
      ¬TableLost s := by
  obtain ⟨h1,h2,h3⟩ := verify_tables hd hf
  have hlost : TableLost s ↔ badCopies dirGood (s.work 1) (s.work 2) = 2 ∧
        badCopies (fatGood s.geo.blocks) (s.work 3) (s.work 4) = 0 ∨
      badCopies dirGood (s.work 1) (s.work 2) = 0 ∧
        badCopies (fatGood s.geo.blocks) (s.work 3) (s.work 4) = 2 := by
    simp only [TableLost, badCopies_two, badCopies_zero, dirGood_iff, fatGood_iff, and_assoc]
  rw [h1, h2, h3, hlost, goodCopy_congr (fun t => (dirGood_iff t).symm), newest_good,
    goodCopy_congr (fun t => (fatGood_iff s.geo.blocks t).symm), newest_good]
  omega

def tablesRead (d f : Bytes) : Card :=
  { plainCard with currDir := 0, currFat := 0, work := fun k => if k < 3 then d else f }

theorem tablesRead_work (f : Bytes) : (tablesRead d f).work 1 = d ∧ (tablesRead d f).work 2 = d ∧
    (tablesRead d f).work 3 = f ∧ (tablesRead d f).work 4 = f := ⟨rfl,rfl,rfl,rfl⟩

theorem tablesRead_geo (f : Bytes) : (tablesRead d f).geo = plainCard.geo := rfl

theorem tablesRead_ready : (verify (tablesRead d (blankFat plainCard.geo 0))).1 = errorReady := by
  obtain ⟨h1,h2,h3,h4⟩ := tablesRead_work d (blankFat plainCard.geo 0)
  obtain ⟨-,-,h⟩ := verify_tables (s := tablesRead d (blankFat plainCard.geo 0)) rfl rfl
  rw [h, h3, h4, tablesRead_geo, badCopies_zero.mpr ⟨blankFat_good _ 0,blankFat_good _ 0⟩,
    Nat.add_zero]
  exact badCopies_le

def blankTables : Card := tablesRead blankDir (blankFat plainCard.geo 0)

theorem verify_sound_blank : (verify blankTables).1 = errorReady ∧
    GoodCopy dirSigned (blankTables.work 1) (blankTables.work 2) (dir (verify blankTables).2) := by
  obtain ⟨h1,-,h3,-⟩ := tablesRead_work blankDir (blankFat plainCard.geo 0)
  have hr := tablesRead_ready blankDir
  refine ⟨hr,((verify_sound (s := blankTables) rfl rfl).mpr ?_ hr).1⟩
  rw [TableLost, blankTables, h1, h3, tablesRead_geo, ← dirGood_iff, ← fatGood_iff, blankDir_good,
    blankFat_good]
  simp

def erasedDirs : Card := tablesRead (fun _ => 255) (blankFat plainCard.geo 0)

/-- Both directories have been erased, and the card is accepted. -/
theorem erased_directory_accepted : (verify erasedDirs).1 = errorReady ∧
    ∀ t, ¬GoodCopy dirSigned (erasedDirs.work 1) (erasedDirs.work 2) t := by
  obtain ⟨h1,h2,-⟩ := tablesRead_work (fun _ => 255) (blankFat plainCard.geo 0)
  refine ⟨tablesRead_ready _,fun t => ?_⟩
  rw [GoodCopy, erasedDirs, h1, h2, ← dirGood_iff, dirGood_ones]
  simp

/-! Release of blocks. -/

variable {blocks : ℕ} {f g : Bytes}

/-- The loop of `__card_freeblock` as it runs until it ends. -/
inductive Frees (blocks : ℕ) : ℕ → Bytes → Bytes → Bool → Prop
  | ends (f : Bytes) : Frees blocks 65535 f f true
  | broken {next : ℕ} (f : Bytes) (h : next ≠ 65535) (ho : next < sysArea ∨ blocks ≤ next) :
    Frees blocks next f f false
  | turn {next : ℕ} {f g : Bytes} {ok : Bool} (h : next ≠ 65535) (hi : inArea blocks next)
    (ht : Frees blocks (fatWord f next) (clearWord next f) g ok) : Frees blocks next f g ok

def linked (blocks v : ℕ) : Option ℕ := if sysArea ≤ v ∧ v < blocks then some v else none

/-- The way from a block through the table ends, and no block on it is free. -/
def Sane (blocks : ℕ) (f : Bytes) (v : ℕ) : Prop :=
  ∃ l, Chain (fun k => linked blocks (fatWord f k)) (linked blocks v) l ∧ ∀ k ∈ l, fatWord f k ≠ 0

theorem linked_in (h : inArea blocks v) : linked blocks v = some v := if_pos h

theorem linked_out (h : ¬inArea blocks v) : linked blocks v = none := if_neg h

theorem sane_out (h : ¬inArea blocks v) : Sane blocks f v :=
  ⟨[],linked_out h ▸ .nil,by simp⟩

theorem linked_mem {next : ℕ → ℕ} {l : List ℕ}
    (h : Chain (fun k => linked blocks (next k)) (linked blocks v) l) :
    ∀ k ∈ l, inArea blocks k := by
  induction l generalizing v with
  | nil => simp
  | cons j l ih =>
    have hv := h.first_eq
    unfold linked at hv
    split at hv
    · rename_i ha
      obtain rfl : v = j := Option.some.inj hv
      exact forall_mem_cons.mpr ⟨ha,ih h.tail⟩
    · exact absurd hv nofun

theorem sane_clear (hv : inArea blocks v) (h0 : fatWord f v ≠ 0) :
    Sane blocks f v ↔ Sane blocks (clearWord v f) (fatWord f v) := by
  have hw : ∀ k, inArea blocks k → k ≠ v → fatWord (clearWord v f) k = fatWord f k :=
    fun k hk hne => by rw [clearWord_word f hk.1, if_neg hne]
  constructor
  · rintro ⟨l,hl,hz⟩
    rw [linked_in hv] at hl
    have hn := hl.nodup
    cases hl with
    | @cons _ l hl =>
      have hz' : ∀ k ∈ l, fatWord f k ≠ 0 := fun k hk => hz k (mem_cons_of_mem v hk)
      have hne : ∀ k ∈ l, k ≠ v := fun k hk he => (nodup_cons.mp hn).1 (he ▸ hk)
      refine ⟨l,hl.congr ?_,?_⟩
      · intro k hk
        rw [hw k (linked_mem hl k hk) (hne k hk)]
      · intro k hk
        rw [hw k (linked_mem hl k hk) (hne k hk)]
        exact hz' k hk
  · rintro ⟨l,hl,hz⟩
    have hne : ∀ k ∈ l, k ≠ v := by
      rintro k hk rfl
      exact hz k hk (by rw [clearWord_word f hv.1, if_pos rfl])
    refine ⟨v::l,linked_in hv ▸ .cons (hl.congr ?_),?_⟩
    · intro k hk
      rw [hw k (linked_mem hl k hk) (hne k hk)]
    · refine forall_mem_cons.mpr ⟨h0,?_⟩
      intro k hk
      rw [← hw k (linked_mem hl k hk) (hne k hk)]
      exact hz k hk

theorem not_sane_free (hv : inArea blocks v) (h0 : fatWord f v = 0) : ¬Sane blocks f v := by
  rintro ⟨l,hl,hz⟩
  rw [linked_in hv] at hl
  cases hl with
  | cons hl => exact hz v mem_cons_self h0

def Honest (blocks : ℕ) (f : Bytes) : Prop := freeBlocks f = zeroWords blocks f

theorem honest_clear (hb : blocks ≤ 2048) (hv : inArea blocks v) (h : Honest blocks f) :
    Honest blocks (clearWord v f) ↔ fatWord f v ≠ 0 := by
  have hz := zeroWords_le blocks f
  have hf : freeBlocks (clearWord v f) = zeroWords blocks f+1 := by
    rw [clearWord_free f hv.1, show freeBlocks f = zeroWords blocks f from h,
      Nat.mod_eq_of_lt (by omega)]
  unfold Honest
  rw [hf]
  constructor
  · intro he h0
    have hsame : zeroWords blocks (clearWord v f) = zeroWords blocks f := by
      apply zeroWords_congr
      intro k hk
      rw [clearWord_word f hk.1]
      split
      · rename_i hkv
        rw [hkv, h0]
      · rfl
    omega
  · exact fun h0 => (zeroWords_clear hv h0).symm

/-- As many turns are enough as there are blocks that are not free. -/
theorem freeLoop_counts (hb : blocks ≤ 2048) {n : ℕ} (next : ℕ)
    (hn : blocks-sysArea < n+zeroWords blocks f) (h : Honest blocks f) :
    Frees blocks next f (freeLoop blocks n next f).1 (freeLoop blocks n next f).2 ∧
      (Honest blocks (freeLoop blocks n next f).1 ↔ Sane blocks f next) := by
  induction n generalizing next f with
  | zero => exact absurd (zeroWords_le blocks f) (by omega)
  | succ n ih =>
    rw [freeLoop]
    by_cases he : next = 65535
    · subst he
      exact ⟨.ends f,fun _ => sane_out (fun hi => by have := hi.2; omega),fun _ => h⟩
    rw [if_neg he]
    by_cases ho : next < sysArea ∨ blocks ≤ next
    · rw [if_pos ho]
      exact ⟨.broken f he ho,fun _ => sane_out
        (fun hi => by have := hi.1; have := hi.2; omega),fun _ => h⟩
    rw [if_neg ho]
    have hi : inArea blocks next := by unfold inArea; omega
    by_cases h0 : fatWord f next = 0
    · -- the word reads zero, so the loop stops behind this turn
      have hstop : freeLoop blocks n 0 (clearWord next f) = (clearWord next f,false) := by
        cases n with
        | zero => rfl
        | succ n => rw [freeLoop, if_neg (by decide), if_pos (.inl (by decide))]
      rw [h0, hstop]
      refine ⟨.turn he hi (h0.symm ▸ .broken _ (by decide) (.inl (by decide))),?_⟩
      exact iff_of_false (fun hc => (honest_clear hb hi h).mp hc h0) (not_sane_free hi h0)
    · have hz := zeroWords_clear hi h0
      obtain ⟨hf,hc⟩ := ih (fatWord f next) (by omega)
        ((honest_clear hb hi h).mpr h0)
      exact ⟨.turn he hi hf,hc.trans (sane_clear hi h0).symm⟩

/-! A command leaves the tables in memory alone. -/

section Frame

def tables (s : Card) : (ℕ → Bytes) × ℕ × ℕ := (s.work,s.currDir,s.currFat)

variable {s : Card} (e : Env)

theorem exiUnlock_tables (probe : Bool) (s : Card) : tables (exiUnlock probe s) = tables s := by
  unfold exiUnlock exiWake
  split
  · rfl
  · split
    · rfl
    · rfl
    · rfl
    · unfold unlockedHandler later
      split <;> rfl

theorem exiLock_tables (tell : Bool) (s : Card) : tables (exiLock tell s).2 = tables s := by
  unfold exiLock
  split
  · rfl
  · split <;> rfl

theorem exiSelect_tables {t : Card} (h : exiSelect e s = some t) : tables t = tables s := by
  unfold exiSelect at h
  split at h
  · exact absurd h nofun
  · split at h
    · exact absurd h nofun
    · cases h
      rfl

theorem start_tables (txCb exiCb : Option Cb) (s : Card) :
    tables (start txCb exiCb e s).2 = tables s := by
  unfold start
  dsimp only
  generalize hs : { s with txCb := _, exiCb := _, unlockCb := some Cb.unlocked } = s₁
  have h1 : tables s₁ = tables s := hs ▸ rfl
  have h2 := exiLock_tables true s₁
  generalize exiLock true s₁ = r at h2
  obtain ⟨ok,s₂⟩ := r
  cases ok with
  | false => exact h2.trans h1
  | true =>
    dsimp only
    cases hsel : exiSelect e { s₂ with unlockCb := none } with
    | none => exact (exiUnlock_tables e.woken _).trans (h2.trans h1)
    | some s₃ => exact (exiSelect_tables e hsel).trans (h2.trans h1)

theorem sectorErase_tables (sector : ℕ) (cb : Cb) (s : Card) :
    tables (sectorErase sector cb e s).2 = tables s := by
  have hraw : tables (sectorEraseRaw sector cb e s).2 = tables s := by
    unfold sectorEraseRaw
    split
    · rfl
    · have h := start_tables e none (some cb)
        { s with cmd := ⟨.erase,sector/512*512%16777216⟩, cmdRetries := 3 }
      generalize start none (some cb) e _ = r at h
      dsimp only
      split
      · exact h
      · split
        · exact h
        · exact (exiUnlock_tables e.woken _).trans h
  unfold sectorErase noted
  split <;> exact hraw

theorem updateFat_fat (cb : Option Cb) (ha : s.attached = true) :
    fat (updateFat cb e s).2 = newFat (fat s) := by
  have h := congrArg (fun x => x.1 x.2.2) (sectorErase_tables e (s.currFat*s.geo.sector) .fatErase
    { setFat (newFat (fat s)) s with eraseCb := cb })
  rw [updateFat, if_neg (by simp [ha])]
  exact h.trans (by simp [tables, setFat, setWork])

theorem updateDir_dir (cb : Option Cb) (ha : s.attached = true) :
    dir (updateDir cb e s).2 = newDir (dir s) := by
  have h := congrArg (fun x => x.1 x.2.1) (sectorErase_tables e (s.currDir*s.geo.sector) .dirErase
    { setDir (newDir (dir s)) s with eraseCb := cb })
  rw [updateDir, if_neg (by simp [ha])]
  exact h.trans (by simp [tables, setDir, setWork])

end Frame

/-- Release ends on every table, and the number of free blocks is right behind
it exactly if the way from the block has ended without a free block. -/
theorem freeBlock_honest {s : Card} {block : ℕ} (cb : Option Cb) (e : Env) (ha : s.attached = true)
    (hf : fatValid s.geo.blocks (fat s)) (hb : inArea s.geo.blocks block) :
    (∃ g ok, Frees s.geo.blocks block (fat s) g ok ∧ freeBlock block cb e s =
        if ok then updateFat cb e (setFat g s) else (errorBroken,setFat g s)) ∧
      (Honest s.geo.blocks (fat (freeBlock block cb e s).2) ↔ Sane s.geo.blocks (fat s) block) := by
  have hle := s.geo.blocks_le
  obtain ⟨hrun,hcount⟩ := freeLoop_counts (n := s.geo.blocks+1) hle block (by omega)
    hf.2.symm
  rw [freeLoop, if_neg (by have := hb.2; omega),
    if_neg (by have := hb.1; have := hb.2; omega)] at hrun hcount
  generalize hl :
    freeLoop s.geo.blocks s.geo.blocks (fatWord (fat s) block) (clearWord block (fat s)) = r
    at hrun hcount
  obtain ⟨g,ok⟩ := r
  have heq : freeBlock block cb e s =
      if ok then updateFat cb e (setFat g s) else (errorBroken,setFat g s) := by
    rw [freeBlock, if_neg (by simp [ha]), hl]
    cases ok <;> rfl
  refine ⟨⟨g,ok,hrun,heq⟩,?_⟩
  rw [← hcount, heq]
  have hset : fat (setFat g s) = g := by simp [fat, setFat, setWork]
  cases ok with
  | false => exact iff_of_eq (congrArg (Honest s.geo.blocks) hset)
  | true =>
    have hnew : fat (updateFat cb e (setFat g s)).2 = newFat g := by
      rw [updateFat_fat e cb (by simp [setFat, setWork, ha]), hset]
    rw [if_pos rfl, hnew, Honest, Honest, newFat_free,
      zeroWords_congr (fun k hk => newFat_word g hk.1)]

/-- A table in which block 5 is the only one that is not free, with its word. -/
def oneWord (v : ℕ) : Bytes := signFat (setHalf 6 58 (setFatWord 5 v (blankFat plainCard.geo 0)))

def oneWordCard (v : ℕ) : Card := { plainCard with work := fun _ => oneWord v }

theorem plain_blocks : plainCard.geo.blocks = 64 := rfl

section Signed

variable {f : Bytes} {n : ℕ}

theorem signed_word (f : Bytes) (n : ℕ) {k : ℕ} (hk : sysArea ≤ k) :
    fatWord (signFat (setHalf 6 n f)) k = fatWord f k := by
  have h5 : sysArea = 5 := rfl
  rw [fatWord_signFat (by omega), fatWord_setHalf _ _ hk (by decide)]

theorem signed_free (f : Bytes) (hn : n < 65536) : freeBlocks (signFat (setHalf 6 n f)) = n := by
  rw [freeBlocks, half_signFat (by decide), half_setHalf_same _ hn]

theorem signed_valid (hn : n < 65536) (hz : zeroWords 64 f = n) :
    fatValid 64 (signFat (setHalf 6 n f)) := by
  refine ⟨signFat_signed _,?_⟩
  rw [signed_free f hn, zeroWords_congr (fun k hk => signed_word f n hk.1), hz]

end Signed

theorem oneWord_word (hv : v < 65536) : fatWord (oneWord v) 5 = v := by
  rw [oneWord, signed_word _ _ (by decide), fatWord_set_same _ _ hv]

theorem oneWord_free (v : ℕ) : freeBlocks (oneWord v) = 58 := signed_free _ (by decide)

theorem oneWord_zeros (hv : v < 65536) (h0 : v ≠ 0) :
    zeroWords 64 (setFatWord 5 v (blankFat plainCard.geo 0)) = 58 := by
  have hfree := (blank_consistent plainCard.geo 0).free
  have htake : zeroWords 64 (setFatWord 5 v (blankFat plainCard.geo 0))+1 =
      zeroWords 64 (blankFat plainCard.geo 0) :=
    zeroWords_take ⟨by decide,by decide⟩ (blankFat_word _ _ (by decide)) hv h0
  have h5 : sysArea = 5 := rfl
  rw [blankFat_free, plain_blocks] at hfree
  omega

theorem oneWord_valid (hv : v < 65536) (h0 : v ≠ 0) : fatValid 64 (oneWord v) :=
  signed_valid (by decide) (oneWord_zeros hv h0)

/-- The chain of the blocks 5 and 6. -/
def twoWords : Bytes :=
  signFat (setHalf 6 57 (setFatWord 6 65535 (setFatWord 5 6 (blankFat plainCard.geo 0))))

def twoWordsCard : Card := { plainCard with work := fun _ => twoWords }

theorem twoWords_five : fatWord twoWords 5 = 6 := by
  rw [twoWords, signed_word _ _ (by decide), fatWord_set_ne _ _ (by decide),
    fatWord_set_same _ _ (by decide)]

theorem twoWords_six : fatWord twoWords 6 = 65535 := by
  rw [twoWords, signed_word _ _ (by decide), fatWord_set_same _ _ (by decide)]

theorem twoWords_valid : fatValid 64 twoWords := by
  have hz : fatWord (setFatWord 5 6 (blankFat plainCard.geo 0)) 6 = 0 := by
    rw [fatWord_set_ne _ _ (by decide), blankFat_word _ _ (by decide)]
  have htake : zeroWords 64 (setFatWord 6 65535 (setFatWord 5 6 (blankFat plainCard.geo 0)))+1 =
      zeroWords 64 (setFatWord 5 6 (blankFat plainCard.geo 0)) :=
    zeroWords_take ⟨by decide,by decide⟩ hz (by decide) (by decide)
  rw [oneWord_zeros (by decide) (by decide)] at htake
  exact signed_valid (by decide) (by omega)

theorem twoWords_sane : Sane 64 twoWords 5 := by
  refine ⟨[5,6],?_,?_⟩
  · rw [linked_in ⟨by decide,by decide⟩]
    refine .cons ?_
    rw [twoWords_five, linked_in ⟨by decide,by decide⟩]
    refine .cons ?_
    rw [twoWords_six, linked_out (fun h => absurd h.2 (by decide))]
    exact .nil
  · simp [twoWords_five, twoWords_six]

theorem freeBlock_honest_pair :
    Honest 64 (fat (freeBlock 5 none (fine 0) twoWordsCard).2) := by
  have hv : fatValid 64 (fat twoWordsCard) := twoWords_valid
  exact (freeBlock_honest none (fine 0) rfl hv ⟨by decide,by decide⟩).2.mpr twoWords_sane

/-- The chain of block 5 leads to block 6, which is free and is counted again. -/
theorem free_block_counted_twice : fatValid 64 (fat (oneWordCard 6)) ∧
    (freeBlock 5 none (fine 0) (oneWordCard 6)).1 = errorBroken ∧
    ¬Honest 64 (fat (freeBlock 5 none (fine 0) (oneWordCard 6)).2) := by
  have hw5 : fatWord (oneWord 6) 5 = 6 := oneWord_word (by decide)
  have heq : freeBlock 5 none (fine 0) (oneWordCard 6) =
      (errorBroken,setFat (clearWord 6 (clearWord 5 (oneWord 6))) (oneWordCard 6)) := by
    have hl : freeLoop 64 64 (fatWord (oneWord 6) 5) (clearWord 5 (oneWord 6)) =
        (clearWord 6 (clearWord 5 (oneWord 6)),false) := by
      rw [hw5, freeLoop, if_neg (by decide), if_neg (by decide), freeLoop, if_neg (by decide),
        if_pos (by decide)]
    have hf : fat (oneWordCard 6) = oneWord 6 := rfl
    rw [freeBlock, if_neg (by decide), hf, show (oneWordCard 6).geo.blocks = 64 from rfl, hl]
  refine ⟨oneWord_valid (by decide) (by decide),congrArg Prod.fst heq,?_⟩
  have hset : fat (setFat (clearWord 6 (clearWord 5 (oneWord 6))) (oneWordCard 6)) =
      clearWord 6 (clearWord 5 (oneWord 6)) := by simp [fat, setFat, setWork]
  have hle := zeroWords_le 64 (clearWord 6 (clearWord 5 (oneWord 6)))
  have h5 : sysArea = 5 := rfl
  rw [heq, Honest, hset, clearWord_free _ (by decide), clearWord_free _ (by decide), oneWord_free]
  omega

/-! Single words. -/

section Words

variable {b c : Bytes} {o k : ℕ}

theorem xor_ones {w : ℕ} (h : w < 65536) : w ^^^ 65535 = 65535-w := by
  have hx := congrArg BitVec.toNat (@BitVec.xor_allOnes 16 (BitVec.ofNat 16 w))
  simpa [Nat.mod_eq_of_lt h] using hx

theorem checkSums_inverse (b : Bytes) (o n : ℕ) :
    ((checkSums b o n).1+(checkSums b o n).2+n)%65536 = 0 := by
  induction n with
  | zero => rfl
  | succ n ih =>
    have hw := half_lt b (o+2*n)
    rw [checkSums, xor_ones hw]
    omega

theorem checkSums_word {n : ℕ} (hsame : ∀ j < n, j ≠ k → half b (o+2*j) = half c (o+2*j)) :
    ((checkSums b o n).1+if k < n then half c (o+2*k) else 0)%65536 =
      ((checkSums c o n).1+if k < n then half b (o+2*k) else 0)%65536 := by
  induction n with
  | zero => simp [checkSums]
  | succ n ih =>
    have ih := ih (fun j hj => hsame j (by omega))
    rw [checkSums, checkSums]
    by_cases hk : n = k
    · subst hk
      rw [if_neg (by omega), if_neg (by omega)] at ih
      rw [if_pos (by omega), if_pos (by omega)]
      omega
    · have hlt : k < n+1 ↔ k < n := by omega
      simp only [hsame n (by omega) hk, hlt]
      omega

end Words

/-- What an update has stamped passes the test of the checksums, and a block
in which one half word is changed has other checksums. -/
theorem checksums_detect : (∀ (s : Card) (cb : Option Cb) (e : Env), s.attached = true →
      dirGood (dir (updateDir cb e s).2) = true ∧ fatSigned (fat (updateFat cb e s).2)) ∧
    ∀ (b c : Bytes) (o k : ℕ), k < 4094 → half b (o+2*k) ≠ half c (o+2*k) →
      (∀ j < 4094, j ≠ k → half b (o+2*j) = half c (o+2*j)) → checksum b o 8188 ≠
        checksum c o 8188 := by
  refine ⟨fun s cb e ha => ?_,fun b c o k hk hne hsame heq => ?_⟩
  · rw [updateDir_dir e cb ha, updateFat_fat e cb ha]
    exact ⟨decide_eq_true (signDir_signed _),signFat_signed _⟩
  · have hword := checkSums_word hsame
    have hb := checkSums_inverse b o 4094
    have hc := checkSums_inverse c o 4094
    have hlb := checkSums_lt b o 4094
    have hlc := checkSums_lt c o 4094
    have hwb := half_lt b (o+2*k)
    have hwc := half_lt c (o+2*k)
    rw [if_pos hk, if_pos hk] at hword
    -- the first sums differ, so they are 0 and 65535, which fixes the second sums
    have hapart : (checkSums b o 4094).1 ≠ (checkSums c o 4094).1 := by omega
    obtain ⟨h1,h2⟩ := Prod.mk.inj heq
    change notAllOnes (checkSums b o 4094).1 = notAllOnes (checkSums c o 4094).1 at h1
    change notAllOnes (checkSums b o 4094).2 = notAllOnes (checkSums c o 4094).2 at h2
    unfold notAllOnes at h1 h2
    split at h1 <;> split at h1 <;> split at h2 <;> split at h2 <;> omega

theorem checksums_detect_bit :
    checksum (fun _ => 0) 0 8188 ≠ checksum (setHalf 0 1 fun _ => 0) 0 8188 :=
  checksums_detect.2 _ _ 0 0 (by decide) (by decide) (fun j _ hj => by
    rw [half_setHalf_ne _ (by omega)])

end Libogc.CardDamaged
