import Mathlib.Data.Nat.Notation

/-!
# Stores of bytes

Bytes at addresses, with fields of two and four bytes that begin with the most
significant one, ranges that are filled and ranges that are copied.
-/

set_option autoImplicit false

namespace Libogc.ByteStore

abbrev Bytes := ℕ → UInt8

variable {b c : Bytes}

def setByte (o : ℕ) (v : UInt8) (b : Bytes) : Bytes := fun i => if i = o then v else b i

def half (b : Bytes) (o : ℕ) : ℕ := (b o).toNat*256+(b (o+1)).toNat

def word (b : Bytes) (o : ℕ) : ℕ := half b o*65536+half b (o+2)

def setHalf (o v : ℕ) (b : Bytes) : Bytes :=
  setByte (o+1) (UInt8.ofNat v) (setByte o (UInt8.ofNat (v/256)) b)

def setWord (o v : ℕ) (b : Bytes) : Bytes := setHalf (o+2) v (setHalf o (v/65536) b)

/-- The bytes from `o` to `o+n` are all `v`. -/
def fill (o n : ℕ) (v : UInt8) (b : Bytes) : Bytes := fun i => if o ≤ i ∧ i < o+n then v else b i

/-- The bytes of `src` from `a` on are copied to those from `o` to `o+n`. -/
def blit (src : Bytes) (a o n : ℕ) (b : Bytes) : Bytes :=
  fun i => if o ≤ i ∧ i < o+n then src (a+(i-o)) else b i

def bytesAt (b : Bytes) (o : ℕ) : Bytes := fun i => b (o+i)

theorem setByte_same (o : ℕ) (v : UInt8) : setByte o v b o = v := if_pos rfl

variable {src : Bytes} {a i n o p : ℕ} (v : ℕ)

theorem setByte_ne (v : UInt8) (h : i ≠ o) : setByte o v b i = b i := if_neg h

theorem setHalf_ne (h : i < o ∨ o+2 ≤ i) : setHalf o v b i = b i := by
  unfold setHalf
  rw [setByte_ne _ (by omega), setByte_ne _ (by omega)]

theorem setWord_ne (h : i < o ∨ o+4 ≤ i) : setWord o v b i = b i := by
  unfold setWord
  rw [setHalf_ne _ (by omega), setHalf_ne _ (by omega)]

theorem fill_in {v : UInt8} (h : o ≤ i ∧ i < o+n) : fill o n v b i = v := if_pos h

theorem fill_out {v : UInt8} (h : i < o ∨ o+n ≤ i) : fill o n v b i = b i :=
  if_neg (by omega)

theorem blit_in (h : o ≤ i ∧ i < o+n) : blit src a o n b i = src (a+(i-o)) := if_pos h

theorem blit_out (h : i < o ∨ o+n ≤ i) : blit src a o n b i = b i := if_neg (by omega)

theorem bytesAt_zero (b : Bytes) : bytesAt b 0 = b := by
  funext i
  rw [bytesAt, Nat.zero_add]

theorem blit_bytesAt (src : Bytes) (k a o n : ℕ) :
    blit (bytesAt src k) a o n b = blit src (k+a) o n b := by
  funext i
  simp only [blit, bytesAt, Nat.add_assoc]

theorem blit_append (src : Bytes) (a o m n : ℕ) :
    blit src (a+m) (o+m) n (blit src a o m b) = blit src a o (m+n) b := by
  funext i
  by_cases h : o+m ≤ i ∧ i < o+m+n
  · rw [blit_in h, blit_in (by omega)]
    congr 1
    omega
  · rw [blit_out (by omega)]
    by_cases h' : o ≤ i ∧ i < o+m
    · rw [blit_in h', blit_in (by omega)]
    · rw [blit_out (by omega), blit_out (by omega)]

theorem half_lt (b : Bytes) (o : ℕ) : half b o < 65536 := by
  have h0 := (b o).toNat_lt
  have h1 := (b (o+1)).toNat_lt
  unfold half
  omega

theorem half_congr (h0 : b o = c p) (h1 : b (o+1) = c (p+1)) : half b o = half c p := by
  unfold half
  rw [h0, h1]

theorem half_setHalf_same (o : ℕ) {v : ℕ} (h : v < 65536) : half (setHalf o v b) o = v := by
  unfold half setHalf
  rw [setByte_same, setByte_ne _ (by omega), setByte_same]
  simp only [UInt8.toNat_ofNat']
  omega

theorem half_setHalf_ne (h : p+2 ≤ o ∨ o+2 ≤ p) : half (setHalf o v b) p = half b p :=
  half_congr (setHalf_ne _ (by omega)) (setHalf_ne _ (by omega))

theorem half_setByte_ne (v : UInt8) (h : o < p ∨ p+1 < o) : half (setByte o v b) p = half b p :=
  half_congr (setByte_ne _ (by omega)) (setByte_ne _ (by omega))

theorem half_setWord_ne (h : p+2 ≤ o ∨ o+4 ≤ p) : half (setWord o v b) p = half b p :=
  half_congr (setWord_ne _ (by omega)) (setWord_ne _ (by omega))

theorem word_congr (h : ∀ i < 4, b (o+i) = c (p+i)) : word b o = word c p := by
  have h0 : half b o = half c p := half_congr (h 0 (by decide)) (h 1 (by decide))
  have h2 : half b (o+2) = half c (p+2) := half_congr (h 2 (by decide)) (h 3 (by decide))
  rw [word, word, h0, h2]

theorem word_setWord_same (o : ℕ) {v : ℕ} (h : v < 4294967296) : word (setWord o v b) o = v := by
  unfold word setWord
  rw [half_setHalf_ne _ (by omega), half_setHalf_same _ (by omega)]
  have hlow : half (setHalf (o+2) v (setHalf o (v/65536) b)) (o+2) = v%65536 := by
    unfold half setHalf
    rw [setByte_same, setByte_ne _ (by omega), setByte_same]
    simp only [UInt8.toNat_ofNat']
    omega
  rw [hlow]
  omega

theorem word_setWord_ne (h : p+4 ≤ o ∨ o+4 ≤ p) : word (setWord o v b) p = word b p :=
  word_congr fun i hi => setWord_ne _ (by omega)

theorem half_fill_out {v : UInt8} (h : p+2 ≤ o ∨ o+n ≤ p) : half (fill o n v b) p = half b p :=
  half_congr (fill_out (by omega)) (fill_out (by omega))

theorem half_blit_out (h : p+2 ≤ o ∨ o+n ≤ p) : half (blit src a o n b) p = half b p :=
  half_congr (blit_out (by omega)) (blit_out (by omega))

theorem half_blit_in (h : o ≤ p ∧ p+2 ≤ o+n) : half (blit src a o n b) p = half src (a+(p-o)) := by
  refine half_congr (blit_in (by omega)) ?_
  rw [blit_in (by omega)]
  congr 1
  omega

end Libogc.ByteStore
