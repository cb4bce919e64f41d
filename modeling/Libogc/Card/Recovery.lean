import Libogc.Card.Consistency
import Libogc.Card.Verify

/-!
# Recovery after a cut

Rounds of the two tables on a formatted card, of which the last may have been
cut off, and what mounting the card again makes of its sectors.
-/

set_option autoImplicit false

namespace Libogc.CardRecovery
open ByteStore CardLayout CardControl CardCallbacks CardCalls CardSystem CardTransfer
  CardRounds Nat Prod
open CardFatLoops CardEntries CardFormat CardConsistency CardVerify RestingRun GuardedReach

def SameBlock (a b : Bytes) : Prop := ∀ o < 8192, a o = b o

variable {a b c old last : Bytes} {s : Card} {now : ℕ}

theorem SameBlock.trans (h : SameBlock a b) (h' : SameBlock b c) : SameBlock a c :=
  fun o ho => (h o ho).trans (h' o ho)

theorem SameBlock.half (h : SameBlock a b) {o : ℕ} (ho : o+2 ≤ 8192) : half a o = half b o :=
  half_congr (h _ (by omega)) (h _ (by omega))

theorem dirGood_congr (h : SameBlock a b) : dirGood a = dirGood b := by
  have hs : dirSigned a ↔ dirSigned b := by
    unfold dirSigned
    rw [dirChecksum_congr (fun i hi => h i (by omega)), h.half (by decide), h.half (by decide)]
  simp only [dirGood, hs]

theorem fatGood_congr (g : Geometry) (h : SameBlock a b) :
    fatGood g.blocks a = fatGood g.blocks b := by
  have hb := g.blocks_le
  have hs : fatSigned a ↔ fatSigned b := by
    unfold fatSigned
    rw [fatChecksum_congr (fun i _ hi => h i hi), h.half (by decide), h.half (by decide)]
  have hz : zeroWords g.blocks a = zeroWords g.blocks b :=
    zeroWords_congr (fun k hk => h.half (by have := hk.2; omega))
  have hf : freeBlocks a = freeBlocks b := h.half (by decide)
  simp only [fatGood, hs, hz, hf]

/-! An erased sector is never taken for a table. -/

theorem checkSums_constant {b : Bytes} {v : ℕ} (h : ∀ i, half b i = v) (o n : ℕ) :
    (checkSums b o n).1 = v*n%65536 := by
  induction n with
  | zero => exact (zero_mod 65536).symm
  | succ n ih =>
    rw [checkSums, h]
    rw [ih, mod_add_mod, mul_succ]

theorem half_ones (i : ℕ) : half (fun _ => 255) i = 65535 := by
  have h : (255 : UInt8).toNat = 255 := by decide
  unfold half
  rw [h]

theorem dirGood_ones : dirGood (fun _ => 255) = false := by
  rw [dirGood, decide_eq_false_iff_not]
  intro he
  have h1 := congrArg fst he
  rw [dirChecksum, checksum, checkSums_constant half_ones] at h1
  exact absurd h1 (by decide)

theorem fatGood_ones (g : Geometry) : fatGood g.blocks (fun _ => 255) = false := by
  rw [fatGood, Bool.and_eq_false_iff, decide_eq_false_iff_not]
  refine .inl fun he => ?_
  have h1 := congrArg fst he
  rw [fatChecksum, checksum, checkSums_constant half_ones] at h1
  exact absurd h1 (by decide)

/-! The two copies of a table of any kind. -/

structure Kind (good : Bytes → Bool) (updated : Bytes → ℕ) : Prop where
  good_congr : ∀ {a b}, SameBlock a b → good a = good b
  updated_congr : ∀ {a b}, SameBlock a b → updated a = updated b
  updated_lt : ∀ b, updated b < 65536
  ones : good (fun _ => 255) = false

theorem dirKind : Kind dirGood dirUpdated :=
  ⟨dirGood_congr,fun h => h.half (by decide),fun b => half_lt b _,dirGood_ones⟩

theorem fatKind (g : Geometry) : Kind (fatGood g.blocks) fatUpdated :=
  ⟨fatGood_congr g,fun h => h.half (by decide),fun b => half_lt b _,fatGood_ones g⟩

/-- The sector written last holds `last`, and the other one the table before
it, or the same one. -/
structure Kept (good : Bytes → Bool) (updated : Bytes → ℕ) (old stored last : Bytes) : Prop where
  stored : SameBlock stored last
  good_last : good last = true
  good_old : good old = true
  before : SameBlock old last ∧ updated last ≠ 0 ∨ updated last = (updated old+1)%65536

inductive Cut
  | unchanged
  | erased
  | written
  deriving DecidableEq

def leftBlock (old : Bytes) : Option (Bytes × Cut) → Bytes
  | some (_,.erased) => fun _ => 255
  | some (b,.written) => b
  | _ => old

def Recent (last x : Bytes) (cut : Option (Bytes × Cut)) : Prop :=
  SameBlock x last ∨ ∃ b c, cut = some (b,c) ∧ SameBlock x b

def Replaced (cut : Option (Bytes × Cut)) : Prop := ∃ b c, cut = some (b,c) ∧ c ≠ .unchanged

section Kinds

variable {good : Bytes → Bool} {updated : Bytes → ℕ} {stored x y : Bytes}

theorem Kept.congr (hk : Kind good updated) (h : Kept good updated old stored last)
    (ho : SameBlock x old) (hs : SameBlock y stored) : Kept good updated x y last where
  stored := hs.trans h.stored
  good_last := h.good_last
  good_old := (hk.good_congr ho).trans h.good_old
  before := by
    rw [hk.updated_congr ho]
    exact h.before.imp_left fun hb => ⟨ho.trans hb.1,hb.2⟩

theorem Kept.next (hk : Kind good updated) (h : Kept good updated old stored last)
    (hb : good b = true) (hu : updated b = (updated last+1)%65536) (hx : SameBlock x b) :
    Kept good updated stored x b where
  stored := hx
  good_last := hb
  good_old := (hk.good_congr h.stored).trans h.good_last
  before := .inr (by rw [hu, hk.updated_congr h.stored])

theorem newest_good {a b : Bytes} (ha : good a = true) (hb : good b = true) :
    newest good updated a b = if updated a < updated b then b else a := by
  simp [newest, ha, hb]

theorem newest_bad {a b : Bytes} (ha : good a = false) (hb : good b = true) :
    newest good updated a b = b ∧ newest good updated b a = b := by
  simp [newest, ha, hb]

theorem newest_either (a b : Bytes) : newest good updated a b = a ∨
    newest good updated a b = b := by
  unfold newest
  split
  · split
    · exact .inr rfl
    · exact .inl rfl
  · split
    · exact .inr rfl
    · exact .inl rfl

/-- Of two good copies with consecutive numbers the later one is taken, but
not when its number has come round to zero. -/
theorem newest_consecutive {a b : Bytes} (ha : good a = true) (hb : good b = true)
    (hn : updated b = (updated a+1)%65536) (hl : updated a < 65536) :
    newest good updated a b = (if updated b = 0 then a else b) ∧
      newest good updated b a = (if updated b = 0 then a else b) := by
  rw [newest_good ha hb, newest_good hb ha]
  constructor
  · split <;> split <;> first | rfl | omega
  · split <;> split <;> first | rfl | omega

theorem newest_recent (hk : Kind good updated) (h : Kept good updated old stored last)
    {cut : Option (Bytes × Cut)} {left : Bytes} (hl : SameBlock left (leftBlock old cut))
    (hc : ∀ b c, cut = some (b,c) → updated b = (updated last+1)%65536)
    (hx : x = newest good updated left stored ∨ x = newest good updated stored left) :
    Recent last x cut ↔ (updated last = 0 → Replaced cut) := by
  have hgs : good stored = true := (hk.good_congr h.stored).trans h.good_last
  have hus : updated stored = updated last := hk.updated_congr h.stored
  have hx' : x = left ∨ x = stored := by
    obtain rfl | rfl := hx
    · exact newest_either left stored
    · exact (newest_either stored left).symm
  by_cases hr : Replaced cut
  · refine ⟨fun _ _ => hr,fun _ => ?_⟩
    obtain ⟨b,c,rfl,hne⟩ := hr
    cases c with
    | unchanged => exact absurd rfl hne
    | erased =>
      have hbad : good left = false := (hk.good_congr hl).trans hk.ones
      obtain rfl : x = stored :=
        hx.elim (fun e => e.trans (newest_bad hbad hgs).1)
          (fun e => e.trans (newest_bad hbad hgs).2)
      exact .inl h.stored
    | written =>
      obtain rfl | rfl := hx'
      · exact .inr ⟨b,_,rfl,hl⟩
      · exact .inl h.stored
  -- the sector of the older copy is as it was
  have hold : SameBlock left old := by
    obtain _ | ⟨b,c⟩ := cut
    · exact hl
    · cases c with
      | unchanged => exact hl
      | erased | written => exact absurd ⟨b,_,rfl,by decide⟩ hr
  have hgl : good left = true := (hk.good_congr hold).trans h.good_old
  obtain ⟨hsame,h0⟩ | hnext := h.before
  · refine ⟨fun _ he => absurd he h0,fun _ => .inl ?_⟩
    obtain rfl | rfl := hx'
    · exact hold.trans hsame
    · exact h.stored
  have hul : updated left = updated old := hk.updated_congr hold
  have hlt := hk.updated_lt old
  obtain ⟨h1,h2⟩ := newest_consecutive hgl hgs
    (by rw [hus, hul, hnext])
    (hul ▸ hlt)
  rw [h1, h2, or_self, hus] at hx
  by_cases h0 : updated last = 0
  · rw [if_pos h0] at hx
    subst hx
    refine ⟨fun hrec => ?_,fun himp => absurd (himp h0) hr⟩
    -- the numbers tell the older copy from the last one and from the next
    obtain hs | ⟨b,c,hcut,hs⟩ := hrec
    · have := hk.updated_congr hs
      omega
    · have := hk.updated_congr hs
      have := hc b c hcut
      omega
  · rw [if_neg h0] at hx
    exact ⟨fun _ he => absurd he h0,fun _ => .inl (hx ▸ h.stored)⟩

theorem badCopies_one {a b : Bytes} (h : good a = true ∨ good b = true) :
    badCopies good a b ≤ 1 := by
  unfold badCopies
  obtain h | h := h
  · rw [h]
    cases good b <;> decide
  · rw [h]
    cases good a <;> decide

end Kinds

/-! Rounds on a card. -/

/-- A table is edited and a round begins: all of it but the number and the
checksums may have been changed. -/
inductive Round
  | dir (b : Bytes)
  | fat (b : Bytes)

def editDir (b d : Bytes) : Bytes := blit b 0 0 8186 d

def editFat (b f : Bytes) : Bytes := blit b 6 6 8186 f

def prepared (s : Card) : Round → Card
  | .dir b => setDir (editDir b (dir s)) s
  | .fat b => setFat (editFat b (fat s)) s

def begun (now : ℕ) (s : Card) : Round → ℤ × Card
  | .dir b => updateDir none (fine now) (prepared s (.dir b))
  | .fat b => updateFat none (fine now) (prepared s (.fat b))

/-- The free blocks of an edited allocation table are counted in it, as
`__card_allocblock` and `__card_freeblock` leave it. -/
def Counted (blocks : ℕ) : Round → Prop
  | .dir _ => True
  | .fat b => freeBlocks b = zeroWords blocks b

/-- A card, the rounds completed on it since it was formatted, and what the
last one of each table has written. -/
structure History where
  card : Card
  dirs : ℕ
  fats : ℕ
  lastDir : Bytes
  lastFat : Bytes

def fresh (s : Card) : History := ⟨s,0,0,dir s,fat s⟩

def contents (s : Card) : Round → Bytes
  | .dir b => newDir (editDir b (dir s))
  | .fat b => newFat (editFat b (fat s))

def completedRound (t : Card) (h : History) : Round → History
  | .dir b => { h with card := t, dirs := h.dirs+1, lastDir := contents h.card (.dir b) }
  | .fat b => { h with card := t, fats := h.fats+1, lastFat := contents h.card (.fat b) }

structure Played where
  round : Round
  now : ℕ
  steps : ℕ

def playStep (m : Played) (h : History) : Option History :=
  let t := follow (advance m.now) m.steps (begun m.now h.card m.round).2
  if (advance m.now t).isNone then some (completedRound t h m.round) else none

def target (s : Card) : Round → ℕ
  | .dir _ => s.currDir
  | .fat _ => s.currFat

def cutFlash (s : Card) (r : Round) : Cut → Bytes
  | .unchanged => s.flash
  | .erased => fill (target s r*s.geo.sector) s.geo.sector 255 s.flash
  | .written => rewritten s.geo.sector (target s r*s.geo.sector) 8192 (contents s r) s.flash

def flashLeft (s : Card) : Option (Round × Cut) → Bytes
  | none => s.flash
  | some (r,c) => cutFlash s r c

def cutDir (s : Card) : Option (Round × Cut) → Option (Bytes × Cut)
  | some (.dir b,c) => some (contents s (.dir b),c)
  | _ => none

def cutFat (s : Card) : Option (Round × Cut) → Option (Bytes × Cut)
  | some (.fat b,c) => some (contents s (.fat b),c)
  | _ => none

def remounted (h : History) (crash : Option (Round × Cut)) : ℤ × Card :=
  verify (reread (flashLeft h.card crash) h.card)

def Recovered (h : History) (crash : Option (Round × Cut)) : Prop :=
  (remounted h crash).1 = errorReady ∧
    Recent h.lastDir (dir (remounted h crash).2) (cutDir h.card crash) ∧
    Recent h.lastFat (fat (remounted h crash).2) (cutFat h.card crash)

/-- The number of neither table has just come round to zero, unless the
interrupted round has come as far as the sector of that table. -/
def Clear (h : History) (crash : Option (Round × Cut)) : Prop :=
  (h.dirs%65536 = 1 → Replaced (cutDir h.card crash)) ∧
    (h.fats%65536 = 65535 → Replaced (cutFat h.card crash))

/-! The sectors of the two tables. -/

def sectorAt (s : Card) (k : ℕ) : Bytes := bytesAt s.flash (k*s.geo.sector)

variable {S j k : ℕ}

theorem sector_apart {o : ℕ} (h : j ≠ k) (ho : o < S) : j*S+o < k*S ∨ k*S+S ≤ j*S+o := by
  rcases Nat.lt_or_gt_of_ne h with h | h
  · have := mul_le_mul_right S (succ_le_of_lt h)
    rw [succ_mul] at this
    omega
  · have := mul_le_mul_right S (succ_le_of_lt h)
    rw [succ_mul] at this
    omega

theorem rewritten_same (b flash : Bytes) :
    SameBlock (bytesAt (rewritten S (k*S) 8192 b flash) (k*S)) b := by
  intro o ho
  rw [bytesAt, rewritten, blit_in (by omega)]
  congr 1
  omega

theorem erased_same (hS : 8192 ≤ S) (flash : Bytes) :
    SameBlock (bytesAt (fill (k*S) S 255 flash) (k*S)) (fun _ => 255) := by
  intro o ho
  rw [bytesAt, fill_in (by omega)]

theorem erased_other (hS : 8192 ≤ S) (h : j ≠ k) (flash : Bytes) :
    SameBlock (bytesAt (fill (k*S) S 255 flash) (j*S)) (bytesAt flash (j*S)) := by
  intro o ho
  have := sector_apart h (show o < S by omega)
  rw [bytesAt, bytesAt, fill_out (by omega)]

theorem rewritten_other (hS : 8192 ≤ S) (h : j ≠ k) (b flash : Bytes) :
    SameBlock (bytesAt (rewritten S (k*S) 8192 b flash) (j*S)) (bytesAt flash (j*S)) := by
  intro o ho
  have := sector_apart h (show o < S by omega)
  rw [bytesAt, bytesAt, rewritten, blit_out (by omega), fill_out (by omega)]

theorem cutFlash_other {j : ℕ} {r : Round} (h : j ≠ target s r) (c : Cut) :
    SameBlock (bytesAt (cutFlash s r c) (j*s.geo.sector)) (sectorAt s j) := by
  cases c with
  | unchanged => exact fun _ _ => rfl
  | erased => exact erased_other s.geo.sector_ge h _
  | written => exact rewritten_other s.geo.sector_ge h _ _

theorem sectors_apart (h : Mounted s) : s.currFat ≠ s.currDir ∧ otherFat s ≠ s.currDir ∧
    s.currDir ≠ s.currFat ∧ otherDir s ≠ s.currFat := by
  have := h.dir
  have := h.fat
  have := otherDir_ne s
  have := otherFat_ne s
  omega

theorem cutFlash_target (r : Round) (c : Cut) :
    SameBlock (bytesAt (cutFlash s r c) (target s r*s.geo.sector))
      (leftBlock (sectorAt s (target s r)) (some (contents s r,c))) := by
  cases c with
  | unchanged => exact fun _ _ => rfl
  | erased => exact erased_same s.geo.sector_ge _
  | written => exact rewritten_same _ _

theorem reread_work (flash : Bytes) (hk : k < sysArea) :
    SameBlock ((reread flash s).work k) (bytesAt flash (k*s.geo.sector)) := by
  intro o ho
  simp only [reread]
  rw [if_pos hk, blit_in (by omega)]
  rfl

/-! Numbers and checks of the tables that are written. -/

theorem newDir_good (d : Bytes) : dirGood (newDir d) = true :=
  decide_eq_true (signDir_signed _)

theorem newDir_updated (d : Bytes) : dirUpdated (newDir d) = (dirUpdated d+1)%65536 := by
  rw [dirUpdated, newDir, half_signDir (by decide), half_setHalf_same _ (mod_lt _ (by decide))]

theorem editDir_updated (b d : Bytes) : dirUpdated (editDir b d) = dirUpdated d :=
  half_blit_out (by decide)

theorem newFat_updated (f : Bytes) : fatUpdated (newFat f) = (fatUpdated f+1)%65536 := by
  rw [fatUpdated, newFat, half_signFat (by decide), half_setHalf_same _ (mod_lt _ (by decide))]

theorem editFat_updated (b f : Bytes) : fatUpdated (editFat b f) = fatUpdated f :=
  half_blit_out (by decide)

theorem newFat_good {g : Geometry} {f : Bytes} (h : freeBlocks f = zeroWords g.blocks f) :
    fatGood g.blocks (newFat f) = true := by
  have hz : zeroWords g.blocks (newFat f) = zeroWords g.blocks f :=
    zeroWords_congr (fun k hk => newFat_word f hk.1)
  rw [fatGood, Bool.and_eq_true, decide_eq_true_eq, decide_eq_true_eq, hz, newFat_free, h]
  exact ⟨signFat_signed _,rfl⟩

theorem editFat_counted {g : Geometry} {b : Bytes} (f : Bytes) (h : Counted g.blocks (.fat b)) :
    freeBlocks (editFat b f) = zeroWords g.blocks (editFat b f) := by
  have h5 : sysArea = 5 := rfl
  have hb := g.blocks_le
  have hw : ∀ o, 6 ≤ o → o+2 ≤ 8192 → half (editFat b f) o = half b o := by
    intro o h0 h1
    rw [editFat, half_blit_in (by omega)]
    congr 1
    omega
  have hz : zeroWords g.blocks (editFat b f) = zeroWords g.blocks b := by
    apply zeroWords_congr
    intro k hk
    have := hk.1
    have := hk.2
    exact hw _ (by omega) (by omega)
  rw [hz]
  exact h

theorem blankFat_updated (g : Geometry) {n : ℕ} (h : n < 65536) :
    fatUpdated (blankFat g n) = n := by
  rw [fatUpdated, blankFat, half_signFat (by decide), half_setHalf_ne _ (by decide),
    half_setHalf_ne _ (by decide), half_setHalf_same _ h]

theorem blankFat_good (g : Geometry) (n : ℕ) : fatGood g.blocks (blankFat g n) = true := by
  rw [fatGood, Bool.and_eq_true, decide_eq_true_eq, decide_eq_true_eq]
  exact ⟨signFat_signed _,(blank_consistent g n).free.symm⟩

theorem blankDir_good : dirGood blankDir = true := decide_eq_true (signDir_signed _)

theorem blankDir_updated : dirUpdated blankDir = 65535 := by
  rw [dirUpdated, blankDir, half_signDir (by decide), half_ones]

/-! What a round leaves. -/

def played (s : Card) : Round → Card
  | .dir b => dirRound (prepared s (.dir b))
  | .fat b => fatRound (prepared s (.fat b))

theorem begun_goes (now : ℕ) (hq : Quiet s) (hm : Mounted s) (r : Round) :
    Goes (advance now) (begun now s r).2 (played s r) := by
  cases r with
  | dir b =>
    obtain ⟨t,ht,hgo⟩ := updateDir_goes now
      (show Quiet (prepared s (.dir b)) from hq.same rfl) hm.dir none
    rw [begun, ht]
    exact hgo
  | fat b =>
    obtain ⟨t,ht,hgo⟩ := updateFat_goes now
      (show Quiet (prepared s (.fat b)) from hq.same rfl) hm.fat none
    rw [begun, ht]
    exact hgo

theorem played_quiet (h : Quiet s) (r : Round) : Quiet (played s r) := by
  cases r with
  | dir b => exact dirRound_quiet (h.same rfl)
  | fat b => exact fatRound_quiet (h.same rfl)

theorem played_flash (s : Card) (r : Round) : (played s r).flash = cutFlash s r .written := by
  cases r with
  | dir b =>
    have h : dir (prepared s (.dir b)) = editDir b (dir s) := dir_setDir _ _
    rw [cutFlash, contents, ← h]
    rfl
  | fat b =>
    have h : fat (prepared s (.fat b)) = editFat b (fat s) := fat_setFat _ _
    rw [cutFlash, contents, ← h]
    rfl

theorem played_geo (s : Card) (r : Round) : (played s r).geo = s.geo := by
  cases r <;> rfl

theorem played_sector (s : Card) (r : Round) (k : ℕ) :
    sectorAt (played s r) k = bytesAt (cutFlash s r .written) (k*s.geo.sector) := by
  rw [sectorAt, played_flash, played_geo]

theorem played_mounted (h : Mounted s) (r : Round) : Mounted (played s r) := by
  cases r with
  | dir b => exact dirRound_mounted ⟨h.dir,h.fat⟩
  | fat b => exact fatRound_mounted ⟨h.dir,h.fat⟩

theorem otherDir_dirRound (h : Mounted s) : otherDir (dirRound s) = s.currDir := by
  have h1 : (dirRound s).currDir = otherDir s := rfl
  have := h.dir
  rw [otherDir, h1, otherDir]
  split <;> split <;> omega

theorem otherFat_fatRound (h : Mounted s) : otherFat (fatRound s) = s.currFat := by
  have h1 : (fatRound s).currFat = otherFat s := rfl
  have := h.fat
  rw [otherFat, h1, otherFat]
  split <;> split <;> omega

structure Sound (h : History) : Prop where
  quiet : Quiet h.card
  mounted : Mounted h.card
  dirs : Kept dirGood dirUpdated (sectorAt h.card h.card.currDir)
    (sectorAt h.card (otherDir h.card)) h.lastDir
  fats : Kept (fatGood h.card.geo.blocks) fatUpdated (sectorAt h.card h.card.currFat)
    (sectorAt h.card (otherFat h.card)) h.lastFat
  dirNumber : dirUpdated h.lastDir = (65535+h.dirs)%65536
  fatNumber : fatUpdated h.lastFat = (1+h.fats)%65536
  dirNext : dirUpdated (dir h.card) = dirUpdated h.lastDir
  fatNext : fatUpdated (fat h.card) = fatUpdated h.lastFat

variable {h h' : History}

theorem Sound.dir_contents (hs : Sound h) (b : Bytes) :
    dirUpdated (contents h.card (.dir b)) = (dirUpdated h.lastDir+1)%65536 := by
  rw [contents, newDir_updated, editDir_updated, hs.dirNext]

theorem Sound.fat_contents (hs : Sound h) (b : Bytes) :
    fatUpdated (contents h.card (.fat b)) = (fatUpdated h.lastFat+1)%65536 := by
  rw [contents, newFat_updated, editFat_updated, hs.fatNext]

theorem count_next {a n m : ℕ} (h : m = (a+n)%65536) : (m+1)%65536 = (a+(n+1))%65536 := by
  rw [h, mod_add_mod, Nat.add_assoc]

theorem Kept.spared {good : Bytes → Bool} {updated : Bytes → ℕ} {r : Round}
    (h : Kept good updated (sectorAt s k) (sectorAt s j) last) (hk : Kind good updated)
    (ho : k ≠ target s r) (hs : j ≠ target s r) :
    Kept good updated (sectorAt (played s r) k) (sectorAt (played s r) j) last := by
  rw [played_sector, played_sector]
  exact h.congr hk (cutFlash_other ho .written) (cutFlash_other hs .written)

theorem Kept.rewritten {good : Bytes → Bool} {updated : Bytes → ℕ} {r : Round}
    (h : Kept good updated (sectorAt s (target s r)) (sectorAt s j) last) (hk : Kind good updated)
    (hs : j ≠ target s r) (hb : good (contents s r) = true)
    (hu : updated (contents s r) = (updated last+1)%65536) :
    Kept good updated (sectorAt (played s r) j) (sectorAt (played s r) (target s r))
      (contents s r) := by
  rw [played_sector, played_sector]
  exact (h.next hk hb hu (cutFlash_target r .written)).congr hk (cutFlash_other hs .written)
    (fun _ _ => rfl)

theorem Sound.dirRound (hs : Sound h) (b : Bytes) :
    Sound (completedRound (played h.card (.dir b)) h (.dir b)) := by
  have hm : Mounted (prepared h.card (.dir b)) := ⟨hs.mounted.dir,hs.mounted.fat⟩
  obtain ⟨hfd,hofd,-⟩ := sectors_apart hs.mounted
  have hram : dir (played h.card (.dir b)) = contents h.card (.dir b) :=
    (dir_dirRound _).trans (congrArg newDir (dir_setDir _ _))
  have hfat : fat (played h.card (.dir b)) = fat h.card :=
    (fat_dirRound hm).trans (fat_setDir hs.mounted _)
  have hother : otherDir (played h.card (.dir b)) = h.card.currDir := otherDir_dirRound hm
  have hdirs := Kept.rewritten (r := .dir b) hs.dirs dirKind (otherDir_ne h.card).1 (newDir_good _)
    (hs.dir_contents b)
  exact {
    quiet := played_quiet hs.quiet (.dir b)
    mounted := played_mounted hs.mounted (.dir b)
    dirs := hother.symm ▸ hdirs
    fats := hs.fats.spared (fatKind _) hfd hofd
    dirNumber := (hs.dir_contents b).trans (count_next hs.dirNumber)
    fatNumber := hs.fatNumber
    dirNext := congrArg dirUpdated hram
    fatNext := (congrArg fatUpdated hfat).trans hs.fatNext }

theorem Sound.fatRound (hs : Sound h) {b : Bytes} (hb : Counted h.card.geo.blocks (.fat b)) :
    Sound (completedRound (played h.card (.fat b)) h (.fat b)) := by
  have hm : Mounted (prepared h.card (.fat b)) := ⟨hs.mounted.dir,hs.mounted.fat⟩
  obtain ⟨-,-,hdf,hodf⟩ := sectors_apart hs.mounted
  have hram : fat (played h.card (.fat b)) = contents h.card (.fat b) :=
    (fat_fatRound _).trans (congrArg newFat (fat_setFat _ _))
  have hdir : dir (played h.card (.fat b)) = dir h.card :=
    (dir_fatRound hm).trans (dir_setFat hs.mounted _)
  have hother : otherFat (played h.card (.fat b)) = h.card.currFat := otherFat_fatRound hm
  have hfats := Kept.rewritten (r := .fat b) hs.fats (fatKind _) (otherFat_ne h.card).1
    (newFat_good (editFat_counted _ hb)) (hs.fat_contents b)
  exact {
    quiet := played_quiet hs.quiet (.fat b)
    mounted := played_mounted hs.mounted (.fat b)
    dirs := hs.dirs.spared dirKind hdf hodf
    fats := hother.symm ▸ hfats
    dirNumber := hs.dirNumber
    fatNumber := (hs.fat_contents b).trans (count_next hs.fatNumber)
    dirNext := (congrArg dirUpdated hdir).trans hs.dirNext
    fatNext := congrArg fatUpdated hram }

theorem playStep_sound {m : Played} (hs : Sound h) (hc : Counted h.card.geo.blocks m.round)
    (hp : playStep m h = some h') : Sound h' := by
  have hgo := begun_goes m.now hs.quiet hs.mounted m.round
  unfold playStep at hp
  dsimp only at hp
  split at hp
  · rename_i hr
    have hrest : Rests (advance m.now) (begun m.now h.card m.round).2
        (follow (advance m.now) m.steps (begun m.now h.card m.round).2) :=
      ⟨⟨m.steps,rfl⟩,Option.isNone_iff_eq_none.mp hr⟩
    have he := rests_unique hrest ⟨hgo,quiet_rests (played_quiet hs.quiet m.round)⟩
    rw [he] at hp
    cases hp
    cases hm : m.round with
    | dir b => exact hs.dirRound b
    | fat b => exact hs.fatRound (hm ▸ hc)
  · exact absurd hp (by simp)

/-! The card after a format. -/

theorem formatEnd_sound (hq : Quiet s) (hd : s.work 2 = blankDir)
    (hf : s.work 4 = blankFat s.geo 1) (h1 : SameBlock (sectorAt s 1) blankDir)
    (h2 : SameBlock (sectorAt s 2) blankDir) (h3 : SameBlock (sectorAt s 3) (blankFat s.geo 0))
    (h4 : SameBlock (sectorAt s 4) (blankFat s.geo 1)) : Sound (fresh (formatEnd s)) := by
  have hdir : dir (formatEnd s) = blankDir := by
    simp [dir, formatEnd, hd]
  have hfat : fat (formatEnd s) = blankFat s.geo 1 := by
    simp [fat, formatEnd, hf]
  exact {
    quiet := hq.same rfl
    mounted := ⟨.inl rfl,.inl rfl⟩
    dirs := by
      change Kept _ _ (sectorAt s 1) (sectorAt s 2) (dir (formatEnd s))
      rw [hdir]
      exact ⟨h2,blankDir_good,(dirKind.good_congr h1).trans blankDir_good,
        .inl ⟨h1,by rw [blankDir_updated]; decide⟩⟩
    fats := by
      change Kept (fatGood s.geo.blocks) _ (sectorAt s 3) (sectorAt s 4) (fat (formatEnd s))
      rw [hfat]
      refine ⟨h4,blankFat_good _ _,((fatKind _).good_congr h3).trans (blankFat_good _ _),.inr ?_⟩
      rw [(fatKind s.geo).updated_congr h3, blankFat_updated _ (by decide),
        blankFat_updated _ (by decide)]
    dirNumber := (congrArg dirUpdated hdir).trans blankDir_updated
    fatNumber := (congrArg fatUpdated hfat).trans (blankFat_updated _ (by decide))
    dirNext := rfl
    fatNext := rfl }

theorem formatted_sound {header : Bytes} {cb : Option Cb} (hq : Quiet s) :
    Sound (fresh (formatted (formatCall header cb s))) := by
  have h5 : sysArea = 5 := rfl
  have hq' : Quiet (formatCall header cb s) := hq.same rfl
  obtain ⟨hg,hw,-⟩ := formatStage_frame (formatCall header cb s) 9
  have hgeo : (formatCall header cb s).geo = s.geo := rfl
  have hsec : ∀ k < 5, SameBlock (sectorAt (formatStage (formatCall header cb s) 9) k)
      ((formatCall header cb s).work k) := by
    intro k hk o ho
    rw [sectorAt, hg]
    exact formatStage_flash rfl (by decide) (by omega) ho
  have h1 : (formatCall header cb s).work 1 = blankDir := by simp [formatCall]
  have h2 : (formatCall header cb s).work 2 = blankDir := by simp [formatCall]
  have h3 : (formatCall header cb s).work 3 = blankFat s.geo 0 := by simp [formatCall]
  have h4 : (formatCall header cb s).work 4 = blankFat s.geo 1 := by simp [formatCall]
  apply formatEnd_sound (formatStage_quiet hq' 9)
  · rw [hw, h2]
  · rw [hw, h4, hg, hgeo]
  · exact h1 ▸ hsec 1 (by decide)
  · exact h2 ▸ hsec 2 (by decide)
  · rw [hg]
    exact h3 ▸ hsec 3 (by decide)
  · rw [hg]
    exact h4 ▸ hsec 4 (by decide)

theorem format_sound {u : Card} {chn : ℤ} {header : Bytes} {cb : Option Cb} (hq : Quiet s)
    (hr : s.result ≠ errorBusy) (hc : chnOk chn = true) (ha : isApp cb = true)
    (hf : Rests (advance now) (formatAsync chn header cb (fine now) s).2 u) : Sound (fresh u) := by
  have hs : Sound (fresh (formatted (formatCall header cb s))) := formatted_sound hq
  have hgo := format_goes now (show Quiet (formatCall header cb s) from hq.same rfl) rfl
  rw [formatAsync_quiet hq hr hc] at hf
  have hu : Sound (fresh (resume now (some (cb.getD .default))
      (formatted (formatCall header cb s)))) := by
    generalize formatted (formatCall header cb s) = v at hs
    cases cb with
    | none => exact hs
    | some c =>
      cases c with
      | sync => exact hs
      | user n =>
        exact ⟨hs.quiet.same rfl,⟨hs.mounted.dir,hs.mounted.fat⟩,hs.dirs,hs.fats,hs.dirNumber,
          hs.fatNumber,rfl,rfl⟩
      | _ => exact absurd ha (by simp [isApp])
  rwa [rests_unique hf ⟨hgo,quiet_rests hu.quiet⟩]

/-! The card as it is mounted again. -/

theorem flashLeft_dir (hm : Mounted s) (crash : Option (Round × Cut)) :
    SameBlock (bytesAt (flashLeft s crash) (s.currDir*s.geo.sector))
        (leftBlock (sectorAt s s.currDir) (cutDir s crash)) ∧
      SameBlock (bytesAt (flashLeft s crash) (otherDir s*s.geo.sector))
        (sectorAt s (otherDir s)) := by
  obtain ⟨-,-,hdf,hodf⟩ := sectors_apart hm
  obtain _ | ⟨r,c⟩ := crash
  · exact ⟨fun _ _ => rfl,fun _ _ => rfl⟩
  cases r with
  | dir b => exact ⟨cutFlash_target (.dir b) c,cutFlash_other (otherDir_ne s).1 c⟩
  | fat b => exact ⟨cutFlash_other hdf c,cutFlash_other hodf c⟩

theorem flashLeft_fat (hm : Mounted s) (crash : Option (Round × Cut)) :
    SameBlock (bytesAt (flashLeft s crash) (s.currFat*s.geo.sector))
        (leftBlock (sectorAt s s.currFat) (cutFat s crash)) ∧
      SameBlock (bytesAt (flashLeft s crash) (otherFat s*s.geo.sector))
        (sectorAt s (otherFat s)) := by
  obtain ⟨hfd,hofd,-⟩ := sectors_apart hm
  obtain _ | ⟨r,c⟩ := crash
  · exact ⟨fun _ _ => rfl,fun _ _ => rfl⟩
  cases r with
  | dir b => exact ⟨cutFlash_other hfd c,cutFlash_other hofd c⟩
  | fat b => exact ⟨cutFlash_target (.fat b) c,cutFlash_other (otherFat_ne s).1 c⟩

theorem copies_recent {good : Bytes → Bool} {updated : Bytes → ℕ} {stored : Bytes} {w : ℕ → Bytes}
    {i : ℕ} {cut : Option (Bytes × Cut)} (hk : Kind good updated)
    (h : Kept good updated old stored last) (hi : i = k ∨ i = k+1) (hj : j = k ∨ j = k+1)
    (hne : j ≠ i) (hl : SameBlock (w i) (leftBlock old cut)) (hs : SameBlock (w j) stored)
    (hc : ∀ b c, cut = some (b,c) → updated b = (updated last+1)%65536) :
    (Recent last (newest good updated (w k) (w (k+1))) cut ↔
        (updated last = 0 → Replaced cut)) ∧ badCopies good (w k) (w (k+1)) ≤ 1 := by
  have hk' := h.congr hk (fun _ _ => rfl) hs
  have hgood : good (w j) = true := (hk.good_congr hk'.stored).trans hk'.good_last
  obtain rfl | rfl := hi
  · obtain rfl : j = i+1 := by omega
    exact ⟨newest_recent hk hk' hl hc (.inl rfl),badCopies_one (.inr hgood)⟩
  · obtain rfl : j = k := by omega
    exact ⟨newest_recent hk hk' hl hc (.inr rfl),badCopies_one (.inl hgood)⟩

theorem Sound.cutDir_number (hs : Sound h) {crash : Option (Round × Cut)} (b : Bytes) (c : Cut)
    (he : cutDir h.card crash = some (b,c)) : dirUpdated b = (dirUpdated h.lastDir+1)%65536 := by
  obtain _ | ⟨_ | _,_⟩ := crash
  · exact absurd he (by simp [cutDir])
  · simp only [cutDir, Option.some.injEq, mk.injEq] at he
    rw [← he.1]
    exact hs.dir_contents _
  · exact absurd he (by simp [cutDir])

theorem Sound.cutFat_number (hs : Sound h) {crash : Option (Round × Cut)} (b : Bytes) (c : Cut)
    (he : cutFat h.card crash = some (b,c)) : fatUpdated b = (fatUpdated h.lastFat+1)%65536 := by
  obtain _ | ⟨_ | _,_⟩ := crash
  · exact absurd he (by simp [cutFat])
  · exact absurd he (by simp [cutFat])
  · simp only [cutFat, Option.some.injEq, mk.injEq] at he
    rw [← he.1]
    exact hs.fat_contents _

theorem Sound.recovered_iff (hs : Sound h) (crash : Option (Round × Cut)) :
    Recovered h crash ↔ Clear h crash := by
  have h5 : sysArea = 5 := rfl
  have hd := hs.mounted.dir
  have hf := hs.mounted.fat
  have hod := otherDir_ne h.card
  have hof := otherFat_ne h.card
  obtain ⟨hdl,hds⟩ := flashLeft_dir hs.mounted crash
  obtain ⟨hfl,hfs⟩ := flashLeft_fat hs.mounted crash
  have hw : ∀ k < sysArea, SameBlock ((reread (flashLeft h.card crash) h.card).work k)
      (bytesAt (flashLeft h.card crash) (k*h.card.geo.sector)) := fun k hk => reread_work _ hk
  obtain ⟨hdn,hdb⟩ := copies_recent dirKind hs.dirs hd hod.2 hod.1 ((hw _ (by omega)).trans hdl)
    ((hw _ (by omega)).trans hds) hs.cutDir_number
  obtain ⟨hfn,hfb⟩ := copies_recent (fatKind _) hs.fats hf hof.2 hof.1
    ((hw _ (by omega)).trans hfl) ((hw _ (by omega)).trans hfs) hs.cutFat_number
  obtain ⟨hd0,hf0,hready⟩ := verify_tables (s := reread (flashLeft h.card crash) h.card) rfl rfl
  have hdc : dirUpdated h.lastDir = 0 ↔ h.dirs%65536 = 1 := by
    rw [hs.dirNumber]
    omega
  have hfc : fatUpdated h.lastFat = 0 ↔ h.fats%65536 = 65535 := by
    rw [hs.fatNumber]
    omega
  unfold Recovered Clear remounted
  rw [hd0, hf0, ← hdc, ← hfc]
  exact ⟨fun hr => ⟨hdn.mp hr.2.1,hfn.mp hr.2.2⟩,
    fun hc => ⟨hready.mpr (Nat.add_le_add hdb hfb),hdn.mpr hc.1,hfn.mpr hc.2⟩⟩

theorem playStep_ends (hs : Sound h) (r : Round) (now : ℕ) :
    ∃ n, playStep ⟨r,now,n⟩ h = some (completedRound (played h.card r) h r) := by
  obtain ⟨n,hn⟩ := begun_goes now hs.quiet hs.mounted r
  have hr : advance now (played h.card r) = none := quiet_rests (played_quiet hs.quiet r)
  exact ⟨n,by simp [playStep, hn, hr]⟩

/-- After a format and any number of rounds, the last of which may have been
interrupted, a card that is mounted again has the tables of the last rounds,
but for a table whose number has come round to zero. -/
theorem tables_recovered_iff {u : Card} {chn : ℤ} {header : Bytes} {cb : Option Cb} {t : History}
    (hq : Quiet s) (hr : s.result ≠ errorBusy) (hc : chnOk chn = true) (ha : isApp cb = true)
    (hf : Rests (advance now) (formatAsync chn header cb (fine now) s).2 u)
    (ht : Reach playStep (fun m h => Counted h.card.geo.blocks m.round) (fresh u) t)
    (crash : Option (Round × Cut)) : Recovered t crash ↔ Clear t crash := by
  have hs : Sound t := reach_invariant (format_sound hq hr hc ha hf)
    (fun _ _ _ hi hok hp => playStep_sound hi hok hp) ht
  exact hs.recovered_iff crash

theorem plain_formatted : ∃ u,
    Rests (advance 7) (formatAsync 0 (fun _ => 0) (some .sync) (fine 7) plainCard).2 u ∧
      Sound (fresh u) := by
  obtain ⟨u,hu,-⟩ := format_good 7 0 (fun _ => 0) (some .sync)
    plainCard_quiet (by decide) (by decide) rfl
  exact ⟨u,hu,format_sound plainCard_quiet (by decide) (by decide) rfl hu⟩

/-- Two rounds of the directory, and a third that is cut off when its sector
has been erased. -/
theorem tables_recovered_erased : ∃ u m₁ t₁ m₂ t₂,
    Rests (advance 7) (formatAsync 0 (fun _ => 0) (some .sync) (fine 7) plainCard).2 u ∧
      (m₁.round = .dir (fun _ => 1) ∧ playStep m₁ (fresh u) = some t₁) ∧
      (m₂.round = .dir (fun _ => 2) ∧ playStep m₂ t₁ = some t₂) ∧
      Recovered t₂ (some (.dir (fun _ => 0),.erased)) := by
  obtain ⟨u,hu,hs⟩ := plain_formatted
  obtain ⟨n₁,h₁⟩ := playStep_ends hs (.dir (fun _ => 1)) 8
  obtain ⟨n₂,h₂⟩ := playStep_ends (hs.dirRound (fun _ => 1)) (.dir (fun _ => 2)) 9
  have hreach : Reach playStep (fun m h => Counted h.card.geo.blocks m.round) (fresh u) _ :=
    .step (.step .start (show Counted _ (.dir _) from trivial) h₁)
      (show Counted _ (.dir _) from trivial) h₂
  refine ⟨u,_,_,_,_,hu,⟨rfl,h₁⟩,⟨rfl,h₂⟩,
    (tables_recovered_iff plainCard_quiet (by decide) (by decide) rfl hu hreach _).mpr ?_⟩
  exact ⟨fun he => absurd he (show ¬2%65536 = 1 by decide),
    fun he => absurd he (show ¬0%65536 = 65535 by decide)⟩

/-- The first round of the directory on a card that has just been formatted:
its number is zero, and mounting takes the blank copy. -/
theorem first_directory_lost : ∃ u m t,
    Rests (advance 7) (formatAsync 0 (fun _ => 0) (some .sync) (fine 7) plainCard).2 u ∧
      m.round = .dir (fun _ => 0) ∧ playStep m (fresh u) = some t ∧ ¬Recovered t none := by
  obtain ⟨u,hu,hs⟩ := plain_formatted
  obtain ⟨n,hn⟩ := playStep_ends hs (.dir (fun _ => 0)) 8
  refine ⟨u,_,_,hu,rfl,hn,fun hrec => ?_⟩
  obtain ⟨b,c,he,-⟩ := ((hs.dirRound (fun _ => 0)).recovered_iff none).mp hrec |>.1 rfl
  exact absurd he (by simp [cutDir])

/-! Every cut is the state of the flash somewhere in the round. -/

theorem begun_erasing (now : ℕ) (hq : Quiet s) (hm : Mounted s) (r : Round) :
    ∃ x p, Quiet p ∧ (begun now s r).2 = erasing (target s r*s.geo.sector) x p ∧
      p.flash = s.flash ∧ (callback (fine now) 0 (erased (target s r*s.geo.sector) p) x).flash =
        fill (target s r*s.geo.sector) s.geo.sector 255 s.flash := by
  have hb := s.geo.blocks_gt
  cases r with
  | dir b =>
    obtain ⟨ha,hmod⟩ := sector_addr (s := s) (k := s.currDir) (by have := hm.dir; omega)
    have hp : Quiet { setDir (newDir (dir (prepared s (.dir b)))) (prepared s (.dir b)) with
      eraseCb := none } := hq.same rfl
    refine ⟨.dirErase,_,hp,?_,rfl,?_⟩
    · have he := sectorErase_quiet now hp hmod .dirErase
      rw [ha] at he
      rw [begun, updateDir, if_neg (by simp [prepared, setDir, setWork, hq.attached])]
      exact congrArg snd he
    · simp only [callback, dirEraseCallback, cardWrite_quiet _ (erased_quiet hp _)]
      rfl
  | fat b =>
    obtain ⟨ha,hmod⟩ := sector_addr (s := s) (k := s.currFat) (by have := hm.fat; omega)
    have hp : Quiet { setFat (newFat (fat (prepared s (.fat b)))) (prepared s (.fat b)) with
      eraseCb := none } := hq.same rfl
    refine ⟨.fatErase,_,hp,?_,rfl,?_⟩
    · have he := sectorErase_quiet now hp hmod .fatErase
      rw [ha] at he
      rw [begun, updateFat, if_neg (by simp [prepared, setFat, setWork, hq.attached])]
      exact congrArg snd he
    · simp only [callback, fatEraseCallback, cardWrite_quiet _ (erased_quiet hp _)]
      rfl

theorem cutFlash_reached (hq : Quiet s) (hm : Mounted s) (r : Round) (c : Cut) :
    ∃ t, Goes (advance now) (begun now s r).2 t ∧ t.flash = cutFlash s r c := by
  obtain ⟨x,p,hp,hb,hflash,he⟩ := begun_erasing now hq hm r
  cases c with
  | unchanged => exact ⟨_,goes_refl _,by rw [hb]; exact hflash⟩
  | erased => exact ⟨_,hb ▸ erasing_goes hp _ x,he⟩
  | written => exact ⟨_,begun_goes _ hq hm r,played_flash s r⟩

theorem cutFlash_reached_erased : ∃ t, Goes (advance 7) (begun 7 plainCard (.dir fun _ => 0)).2 t ∧
    t.flash = cutFlash plainCard (.dir fun _ => 0) .erased :=
  cutFlash_reached plainCard_quiet ⟨.inl rfl,.inl rfl⟩ _ _

end Libogc.CardRecovery
