import Mathlib.Logic.Function.Iterate
import Mathlib.Tactic.IntervalCases

/-!
# The generators of the unlock cipher

A memory card is unlocked with the words of a shift register that is fed with
the complement of the parity of four of its bits. `exnor_1st` shifts to the
right and `exnor` to the left. Either leaves the last bit open; `__dounlock`
sets it behind a run, and the next step would set it to the same value.
-/

set_option autoImplicit false

namespace Libogc.UnlockCipher
open List BitVec Function

def eqv1st (a : BitVec 32) : BitVec 32 := ~~~(a >>> 23 ^^^ (a >>> 15 ^^^ (a ^^^ a >>> 7)))

def round1st (a : BitVec 32) : BitVec 32 := a >>> 1 ||| (eqv1st a <<< 30 &&& 0x40000000#32)

def exnor1st (a : BitVec 32) (b : ℕ) : BitVec 32 := round1st^[b] a

def eqv (a : BitVec 32) : BitVec 32 := ~~~(a <<< 23 ^^^ (a <<< 15 ^^^ (a ^^^ a <<< 7)))

def round (a : BitVec 32) : BitVec 32 := a <<< 1 ||| (eqv a >>> 30 &&& 2#32)

def exnor (a : BitVec 32) (b : ℕ) : BitVec 32 := round^[b] a

/-- How `__dounlock` sets the last bit behind a run of `exnor`. -/
def feedback (val : BitVec 32) : BitVec 32 := val ||| eqv val >>> 31

/-- One round of the loop of `bitrev`, on `ret`, `shift` and `shift1`. -/
def bitrevRound (val : BitVec 32) (s : BitVec 32 × ℕ × ℕ) (cnt : ℕ) : BitVec 32 × ℕ × ℕ :=
  if cnt ≤ 15 then (s.1 ||| (val &&& 1#32 <<< cnt) <<< (31-cnt-s.2.2),s.2.1,s.2.2+1)
  else if cnt = 31 then (s.1 ||| val >>> 31,s.2)
  else (s.1 ||| (val &&& 1#32 <<< cnt) >>> s.2.1,s.2.1+2,s.2.2)

def bitrev (val : BitVec 32) : BitVec 32 := ((range 32).foldl (bitrevRound val) (0#32,1,0)).1

variable {a : BitVec 32} {i n : ℕ}

theorem round1st_bit : (round1st a).getLsbD i = (a.getLsbD (i+1) || decide (i = 30) &&
    !(a.getLsbD 23 ^^ (a.getLsbD 15 ^^ (a.getLsbD 0 ^^ a.getLsbD 7)))) := by
  have hmask : 0x40000000#32 = twoPow 32 30 := rfl
  rw [round1st, hmask]
  by_cases hi : i = 30
  · simp [eqv1st, hi]
  · simp [hi, Ne.symm hi, Nat.add_comm]

theorem round_bit (h : i < 32) : (round a).getLsbD i = (decide (0 < i) && a.getLsbD (i-1) ||
    decide (i = 1) && !(a.getLsbD 8 ^^ (a.getLsbD 16 ^^ (a.getLsbD 31 ^^ a.getLsbD 24)))) := by
  have hmask : 2#32 = twoPow 32 1 := rfl
  rw [round, hmask]
  by_cases hi : i = 1
  · simp [eqv, hi]
  · simp [-getLsbD_eq_getElem, hi, Ne.symm hi, h, Nat.pos_iff_ne_zero]

theorem feedback_bit : (feedback a).getLsbD i = (a.getLsbD i || decide (i = 0) &&
    !(a.getLsbD 8 ^^ (a.getLsbD 16 ^^ (a.getLsbD 31 ^^ a.getLsbD 24)))) := by
  by_cases hi : i = 0
  · simp [feedback, eqv, hi]
  · have hout : (eqv a).getLsbD (31+i) = false := getLsbD_of_ge _ _ (by omega)
    simp [feedback, hi, hout]

theorem bitrev_bit (h : i < 32) : (bitrev a).getLsbD i = a.getLsbD (31-i) := by
  simp only [bitrev, bitrevRound, range, range.loop, foldl, ← twoPow_eq, Nat.reduceLeDiff, if_true,
    if_false, Nat.reduceEqDiff, Nat.reduceSub, Nat.reduceAdd]
  interval_cases i <;> simp

theorem bitrev_round1st (a : BitVec 32) : bitrev (round1st a) = round (bitrev a) := by
  apply eq_of_getLsbD_eq
  intro i hi
  have htaps : ∀ j < 32, (bitrev a).getLsbD j = a.getLsbD (31-j) := fun _ => bitrev_bit
  rw [bitrev_bit hi, round1st_bit, round_bit hi, htaps 8 (by decide), htaps 16 (by decide),
    htaps 31 (by decide), htaps 24 (by decide)]
  by_cases h0 : i = 0
  · simp [h0]
  · have h1 : 31-i = 30 ↔ i = 1 := by omega
    rw [htaps (i-1) (by omega), show 31-i+1 = 31-(i-1) by omega]
    simp [h0, h1, Nat.pos_iff_ne_zero]

theorem round_feedback (a : BitVec 32) : round (feedback a) = round a := by
  apply eq_of_getLsbD_eq
  intro i hi
  simp only [round_bit hi, feedback_bit]
  by_cases h1 : i = 1
  · simp [h1]
  · by_cases h0 : i = 0
    · simp [h0]
    · have hi1 : i-1 ≠ 0 := by omega
      simp [h1, hi1]

theorem feedback_feedback (a : BitVec 32) : feedback (feedback a) = feedback a := by
  apply eq_of_getLsbD_eq
  intro i _
  simp only [feedback_bit]
  by_cases h0 : i = 0
  · simp [h0]
  · simp [h0]

/-- `bitrev` reverses the bits, the generators are mirror images of each
other, and the steps of a generator add up. -/
theorem unlock_generators (a v : BitVec 32) (n m k : ℕ) : bitrev a = a.reverse ∧
    (exnor1st a n).reverse = exnor a.reverse n ∧
    feedback (exnor (feedback (exnor (feedback v) m)) k) = feedback (exnor (feedback v) (m+k)) := by
  have hrev : ∀ a, bitrev a = a.reverse := by
    intro a
    apply eq_of_getLsbD_eq
    intro i hi
    rw [bitrev_bit hi, getLsbD_reverse, getMsbD_eq_getLsbD]
    simp [hi]
  refine ⟨hrev a,?_,?_⟩
  · rw [← hrev, ← hrev]
    exact (Semiconj.iterate_right bitrev_round1st n) a
  · cases k with
    | zero => exact feedback_feedback _
    | succ k =>
      have hopen : ∀ b, exnor (feedback b) (k+1) = exnor b (k+1) := fun b => by
        rw [exnor, iterate_succ_apply, round_feedback]
        rfl
      rw [hopen, Nat.add_comm m, exnor, exnor, exnor, iterate_add_apply round (k+1)]

end Libogc.UnlockCipher
