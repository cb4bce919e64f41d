import Libogc.Library.ByteStore

/-!
# Bytes in the lanes of a word

Up to four bytes are packed into a word from its most significant byte on, and
taken out of it again.
-/

set_option autoImplicit false

namespace Libogc.ByteLanes
open ByteStore List BitVec

def pack (b : Bytes) (p : ℕ) : ℕ → BitVec 32
  | 0 => 0
  | n+1 => pack b p n ||| (b (p+n)).toBitVec.setWidth 32 <<< ((3-n)*8)

def lane (v : BitVec 32) (i : ℕ) : UInt8 := ⟨(v >>> ((3-i)*8)).setWidth 8⟩

def unpack (v : BitVec 32) (p : ℕ) : ℕ → Bytes → Bytes
  | 0, b => b
  | n+1, b => setByte (p+n) (lane v n) (unpack v p n b)

def lanes (v : BitVec 32) (n : ℕ) : List UInt8 := (List.range n).map (lane v)

def bytesFrom (b : Bytes) (p n : ℕ) : List UInt8 := (List.range n).map (fun i => b (p+i))

variable {b : Bytes} {p : ℕ}

theorem pack_bit {n i k : ℕ} (hn : n ≤ 4) (hi : i < 4) (hk : k < 8) :
    (pack b p n).getLsbD ((3-i)*8+k) = (decide (i < n) && (b (p+i)).toBitVec.getLsbD k) := by
  induction n with
  | zero => simp [pack]
  | succ n ih =>
    rw [pack, getLsbD_or, ih (by omega)]
    rcases Nat.lt_trichotomy i n with h | rfl | h
    · have hout : (b (p+n)).toBitVec.getLsbD ((3-i)*8+k-(3-n)*8) = false :=
        getLsbD_of_ge _ _ (by omega)
      simp [h, Nat.lt_succ_of_lt h, hout]
    · simp [show (3-i)*8+k < 32 by omega]
    · simp [show ¬ i < n by omega, show ¬ i < n+1 by omega, show (3-i)*8+k < (3-n)*8 by omega]

theorem lane_pack {n i : ℕ} (hn : n ≤ 4) (hi : i < n) : lane (pack b p n) i = b (p+i) := by
  apply UInt8.eq_of_toBitVec_eq
  apply eq_of_getLsbD_eq
  intro k hk
  rw [lane, getLsbD_setWidth, getLsbD_ushiftRight, pack_bit hn (by omega) hk]
  simp [hk, hi]

theorem lanes_pack {n : ℕ} (hn : n ≤ 4) : lanes (pack b p n) n = bytesFrom b p n := by
  apply map_congr_left
  intro i hi
  exact lane_pack hn (mem_range.mp hi)

/-- By induction on the bytes taken out. -/
theorem unpack_apply (v : BitVec 32) (n : ℕ) (i : ℕ) :
    unpack v p n b i = if p ≤ i ∧ i < p+n then lane v (i-p) else b i := by
  induction n with
  | zero => rw [unpack, if_neg (by omega)]
  | succ n ih =>
    rw [unpack, setByte]
    by_cases h : i = p+n
    · rw [if_pos h, if_pos (by omega), h, Nat.add_sub_cancel_left]
    · rw [if_neg h, ih]
      by_cases hin : p ≤ i ∧ i < p+n
      · rw [if_pos hin, if_pos (by omega)]
      · rw [if_neg hin, if_neg (by omega)]

theorem unpack_pack {src : Bytes} {a n : ℕ} (hn : n ≤ 4) :
    unpack (pack src a n) p n b = blit src a p n b := by
  funext i
  rw [unpack_apply, blit]
  by_cases h : p ≤ i ∧ i < p+n
  · rw [if_pos h, if_pos h, lane_pack hn (by omega)]
  · rw [if_neg h, if_neg h]

theorem bytesFrom_append (m n : ℕ) :
    bytesFrom b p (m+n) = bytesFrom b p m ++ bytesFrom b (p+m) n := by
  rw [bytesFrom, range_add, map_append, map_map]
  congr 1
  apply map_congr_left
  intro i _
  exact congrArg b (Nat.add_assoc p m i).symm

end Libogc.ByteLanes
