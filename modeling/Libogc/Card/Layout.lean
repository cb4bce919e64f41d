import Mathlib.Data.Nat.Bitwise
import Libogc.Library.ByteStore

/-!
# What is stored on a memory card

The result codes, the sizes a card can have, the directory and the file
allocation table as bytes of their blocks, and the checksums over them.
-/

set_option autoImplicit false

namespace Libogc.CardLayout
open List ByteStore Nat

abbrev errorReady : ℤ := 0
abbrev errorBusy : ℤ := -1
abbrev errorNoCard : ℤ := -3
abbrev errorNoFile : ℤ := -4
abbrev errorIOError : ℤ := -5
abbrev errorBroken : ℤ := -6
abbrev errorExist : ℤ := -7
abbrev errorNoEnt : ℤ := -8
abbrev errorInsSpace : ℤ := -9
abbrev errorLimit : ℤ := -11
abbrev errorNameTooLong : ℤ := -12
abbrev errorCanceled : ℤ := -14
abbrev errorFatal : ℤ := -128

abbrev sysArea : ℕ := 5
abbrev maxFiles : ℕ := 127
abbrev fileNameLen : ℕ := 32
abbrev readSize : ℕ := 512
abbrev attribPublic : UInt8 := 4

def s32 (x : ℤ) : ℤ := (x+2147483648)%4294967296-2147483648

def u32 (x : ℤ) : ℕ := (x%4294967296).toNat

theorem s32_id {x : ℤ} (h0 : -2147483648 ≤ x) (h1 : x < 2147483648) : s32 x = x := by
  unfold s32
  omega

theorem u32_id {n : ℕ} (h : n < 4294967296) : u32 n = n := by
  unfold u32
  omega

/-- Megabits, and bytes of a sector, as `__card_iscard` accepts them; the blocks
are more than eight for `__card_domount`. -/
structure Geometry where
  size : ℕ
  sector : ℕ
  sizes : size ∈ [4,8,16,32,64,128]
  sectors : sector ∈ [8192,16384,32768,65536,131072,262144]
  room : 8 < size*131072/sector

namespace Geometry

variable (g : Geometry)

def blocks : ℕ := g.size*131072/g.sector

theorem blocks_gt : 8 < g.blocks := g.room

theorem sector_ge : 8192 ≤ g.sector := by
  have h := g.sectors
  simp only [mem_cons, not_mem_nil, or_false] at h
  omega

theorem sector_le : g.sector ≤ 262144 := by
  have h := g.sectors
  simp only [mem_cons, not_mem_nil, or_false] at h
  omega

theorem sector_pages : g.sector%8192 = 0 := by
  have h := g.sectors
  simp only [mem_cons, not_mem_nil, or_false] at h
  omega

theorem blocks_le : g.blocks ≤ 2048 := by
  have h := g.sizes
  have h' := g.sector_ge
  simp only [mem_cons, not_mem_nil, or_false] at h
  refine (div_le_div_left h' (by decide)).trans ?_
  omega

theorem blocks_sector_le : g.blocks*g.sector ≤ 16777216 := by
  have h := g.sizes
  simp only [mem_cons, not_mem_nil, or_false] at h
  exact (div_mul_le_self _ _).trans (by omega)

theorem block_end {k : ℕ} (h : k < g.blocks) : k*g.sector+g.sector ≤ 16777216 := by
  have h' := mul_le_mul_right g.sector (succ_le_of_lt h)
  rw [succ_mul] at h'
  exact h'.trans g.blocks_sector_le

end Geometry

def entry (i : ℕ) : ℕ := i*64

def used (d : Bytes) (i : ℕ) : Bool := d (entry i) != 255

def entryBlock (d : Bytes) (i : ℕ) : ℕ := half d (entry i+54)

def entryLength (d : Bytes) (i : ℕ) : ℕ := half d (entry i+56)

def dirUpdated (d : Bytes) : ℕ := half d 8186

/-- `fat[k-CARD_SYSAREA]`, which is the word at twice the block number. -/
def fatWord (f : Bytes) (k : ℕ) : ℕ := half f (2*k)

def setFatWord (k v : ℕ) (f : Bytes) : Bytes := setHalf (2*k) v f

def fatUpdated (f : Bytes) : ℕ := half f 4

def freeBlocks (f : Bytes) : ℕ := half f 6

def lastAlloc (f : Bytes) : ℕ := half f 8

def checkSums (b : Bytes) (o : ℕ) : ℕ → ℕ × ℕ
  | 0 => (0, 0)
  | n+1 => (((checkSums b o n).1+half b (o+2*n))%65536,
      ((checkSums b o n).2+(half b (o+2*n) ^^^ 65535))%65536)

def notAllOnes (c : ℕ) : ℕ := if c = 65535 then 0 else c

def checksum (b : Bytes) (o len : ℕ) : ℕ × ℕ :=
  (notAllOnes (checkSums b o (len/2)).1, notAllOnes (checkSums b o (len/2)).2)

def dirChecksum (d : Bytes) : ℕ × ℕ := checksum d 0 8188

def fatChecksum (f : Bytes) : ℕ × ℕ := checksum f 4 8188

def dirSigned (d : Bytes) : Prop := dirChecksum d = (half d 8188, half d 8190)

def fatSigned (f : Bytes) : Prop := fatChecksum f = (half f 0, half f 2)

instance (d : Bytes) : Decidable (dirSigned d) := inferInstanceAs (Decidable (_ = _))
instance (f : Bytes) : Decidable (fatSigned f) := inferInstanceAs (Decidable (_ = _))

def signDir (d : Bytes) : Bytes :=
  setHalf 8190 (dirChecksum d).2 (setHalf 8188 (dirChecksum d).1 d)

def signFat (f : Bytes) : Bytes :=
  setHalf 2 (fatChecksum f).2 (setHalf 0 (fatChecksum f).1 f)

theorem checkSums_lt (b : Bytes) (o n : ℕ) :
    (checkSums b o n).1 < 65536 ∧ (checkSums b o n).2 < 65536 := by
  cases n with
  | zero => exact ⟨zero_lt_succ _,zero_lt_succ _⟩
  | succ n => exact ⟨mod_lt _ (by decide),mod_lt _ (by decide)⟩

theorem checksum_lt (b : Bytes) (o len : ℕ) :
    (checksum b o len).1 < 65536 ∧ (checksum b o len).2 < 65536 := by
  have h := checkSums_lt b o (len/2)
  unfold checksum notAllOnes
  constructor
  · dsimp only
    split <;> omega
  · dsimp only
    split <;> omega

variable {b c f : Bytes} {o : ℕ}

theorem checkSums_congr (n : ℕ) (h : ∀ i, o ≤ i → i < o+2*n → b i = c i) :
    checkSums b o n = checkSums c o n := by
  induction n with
  | zero => rfl
  | succ n ih =>
    have hh : half b (o+2*n) = half c (o+2*n) :=
      half_congr (h _ (by omega) (by omega)) (h _ (by omega) (by omega))
    rw [checkSums, checkSums, ih (fun i h0 h1 => h i h0 (by omega)), hh]

theorem dirChecksum_congr (h : ∀ i < 8188, b i = c i) : dirChecksum b = dirChecksum c := by
  unfold dirChecksum checksum
  rw [checkSums_congr _ (fun i _ h1 => h i (by omega))]

theorem fatChecksum_congr (h : ∀ i, 4 ≤ i → i < 8192 → b i = c i) :
    fatChecksum b = fatChecksum c := by
  unfold fatChecksum checksum
  rw [checkSums_congr _ (fun i h0 h1 => h i h0 (by omega))]

theorem signDir_below {d : Bytes} {i : ℕ} (h : i < 8188) : signDir d i = d i := by
  unfold signDir
  rw [setHalf_ne _ (by omega), setHalf_ne _ (by omega)]

theorem signFat_above {i : ℕ} (h : 4 ≤ i) : signFat f i = f i := by
  unfold signFat
  rw [setHalf_ne _ (by omega), setHalf_ne _ (by omega)]

theorem signDir_signed (d : Bytes) : dirSigned (signDir d) := by
  have hl : (dirChecksum d).1 < 65536 ∧ (dirChecksum d).2 < 65536 := checksum_lt d 0 8188
  unfold dirSigned
  rw [dirChecksum_congr (fun i h => signDir_below h)]
  unfold signDir
  rw [half_setHalf_ne _ (by omega), half_setHalf_same _ hl.1, half_setHalf_same _ hl.2]

theorem signFat_signed (f : Bytes) : fatSigned (signFat f) := by
  have hl : (fatChecksum f).1 < 65536 ∧ (fatChecksum f).2 < 65536 := checksum_lt f 4 8188
  unfold fatSigned
  rw [fatChecksum_congr (fun i h _ => signFat_above h)]
  unfold signFat
  rw [half_setHalf_ne _ (by omega), half_setHalf_same _ hl.1, half_setHalf_same _ hl.2]

theorem fatWord_signFat {k : ℕ} (h : 2 ≤ k) : fatWord (signFat f) k = fatWord f k :=
  half_congr (signFat_above (by omega)) (signFat_above (by omega))

theorem half_signDir {d : Bytes} (h : o+2 ≤ 8188) : half (signDir d) o = half d o :=
  half_congr (signDir_below (by omega)) (signDir_below (by omega))

theorem half_signFat (h : 4 ≤ o) : half (signFat f) o = half f o :=
  half_congr (signFat_above (by omega)) (signFat_above (by omega))

/-- A text in memory; the bytes behind its end can be read too. -/
structure CStr where
  byte : ℕ → UInt8
  len : ℕ
  inner : ∀ i < len, byte i ≠ 0
  ends : byte len = 0

/-- `memcmp(a,b,n)==0`. -/
def sameBytes (a b : Bytes) (n : ℕ) : Bool := decide (∀ i < n, a i = b i)

/-- `strncmp(a,b,n)==0`, from position `i` on. -/
def sameText (a b : Bytes) : ℕ → ℕ → Bool
  | _, 0 => true
  | i, n+1 => if a i != b i then false else if a i == 0 then true else sameText a b (i+1) n

end Libogc.CardLayout
