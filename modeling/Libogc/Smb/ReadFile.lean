import Mathlib.Data.Int.Notation
import Mathlib.Data.Nat.Notation
import Mathlib.Logic.Function.Basic

/-!
# What a read of a file reports

`SMB_ReadFile` asks for the rest of the request again and again, and copies what
the server says it sends. A byte of the buffer is `none` until it is written. A
reply is the message that `SMBCheck` has received, or `none` if that fails. The
result of `smb_send` is kept in an unsigned variable, so its failure is not seen.
-/

set_option autoImplicit false

namespace Libogc.SmbReadFile
open List Nat

abbrev Replies := ℕ → Option (ℕ → BitVec 8)

def getUShort (m : ℕ → BitVec 8) (offset : ℕ) : ℕ := (m (offset+1)).toNat*256+(m offset).toNat

def maxTransmitSize : ℕ := 65472

structure Reader where
  buffer : ℕ → Option (BitVec 8)
  totalread : ℕ
  asked : List (ℤ × ℕ)
  result : Option ℤ

def lengthOf (m : ℕ → BitVec 8) : ℕ := getUShort m 43

def dataOf (m : ℕ → BitVec 8) : List (BitVec 8) :=
  (range (lengthOf m)).map (fun i => m (getUShort m 45+i))

def memcpy (o : ℕ) (l : List (BitVec 8)) (b : ℕ → Option (BitVec 8)) : ℕ → Option (BitVec 8) :=
  fun i => if o ≤ i ∧ i < o+l.length then l[i-o]? else b i

def s32 (n : ℕ) : ℤ := (BitVec.ofNat 32 n).toInt

def ask (size : ℕ) (offset : ℤ) (s : Reader) : Reader :=
  let nextread := if maxTransmitSize < size-s.totalread then maxTransmitSize else size-s.totalread
  { s with asked := s.asked ++ [(offset+s.totalread,nextread)] }

def take (size : ℕ) : Option (ℕ → BitVec 8) → Reader → Reader
  | none, s => { s with result := some (-1) }
  | some m, s =>
    if lengthOf m = 0 then { s with result := some (s32 size) }
    else { s with
      buffer := memcpy s.totalread (dataOf m) s.buffer
      totalread := (s.totalread+lengthOf m) % 4294967296 }

/-- One round of the loop, or the test that ends it. -/
def round (size : ℕ) (offset : ℤ) (reply : Option (ℕ → BitVec 8)) (s : Reader) : Reader :=
  if s.result ≠ none then s
  else if size ≤ s.totalread then { s with result := some (s32 size) }
  else take size reply (ask size offset s)

def readFile (size : ℕ) (offset : ℤ) (replies : Replies) : ℕ → Reader
  | 0 => ⟨fun _ => none,0,[],if size = 0 then some (-1) else none⟩
  | n+1 => round size offset (replies n) (readFile size offset replies n)

def received (replies : Replies) : ℕ → List (BitVec 8)
  | 0 => []
  | n+1 => received replies n ++ ((replies n).map dataOf).getD []

/-- No byte behind the request is written, and a positive result is the number
of the bytes that were received and written. -/
structure Honest (size : ℕ) (replies : Replies) (s : Reader) : Prop where
  inside : ∀ i, s.buffer i ≠ none → i < size
  count : ∀ r, s.result = some r → 0 < r → (received replies s.asked.length).length = r ∧
    ∀ i, s.buffer i = (received replies s.asked.length)[i]?

def Full (replies : Replies) (n : ℕ) : Prop := ∀ j < n, ∃ m, replies j = some m ∧ lengthOf m ≠ 0

/-- Each reply that is waited for fits in what is left of the request, and is
not empty, unless the size has no positive value. -/
def Fitting (size : ℕ) (replies : Replies) : Prop :=
  ∀ n m, Full replies n → (received replies n).length < size → replies n = some m →
    (received replies n).length+lengthOf m ≤ size ∧ (lengthOf m = 0 → 2147483648 ≤ size)

section Rounds

variable {size n : ℕ} {offset : ℤ} {replies : Replies} {s : Reader} {m : ℕ → BitVec 8}

theorem received_length (h : replies n = some m) :
    (received replies (n+1)).length = (received replies n).length+lengthOf m := by
  simp [received, h, dataOf]

structure Going (replies : Replies) (n : ℕ) (s : Reader) : Prop where
  result : s.result = none
  total : s.totalread = (received replies n).length % 4294967296
  asked : s.asked.length = n
  buffer : ∀ i, s.buffer i = (received replies n)[i]?

theorem memcpy_append {l d : List (BitVec 8)} {b : ℕ → Option (BitVec 8)}
    (h : ∀ i, b i = l[i]?) (i : ℕ) : memcpy l.length d b i = (l ++ d)[i]? := by
  unfold memcpy
  split
  · rw [getElem?_append_right (by omega)]
  · rw [h]
    by_cases hi : i < l.length
    · rw [getElem?_append_left hi]
    · rw [getElem?_eq_none (by omega), getElem?_eq_none (by rw [length_append]; omega)]

theorem positive_size (hsize : size < 4294967296) :
    0 < s32 size ↔ 0 < size ∧ size < 2147483648 := by
  rw [s32, BitVec.toInt_eq_toNat_cond, BitVec.toNat_ofNat, mod_eq_of_lt hsize]
  split <;> omega

theorem s32_size (h : size < 2147483648) : s32 size = size := by
  rw [s32, BitVec.toInt_eq_toNat_cond, BitVec.toNat_ofNat, mod_eq_of_lt (by omega),
    if_pos (by omega)]

variable (hsize : size < 4294967296)
include hsize

theorem Going.round_eq (h : Going replies n s) (hlt : (received replies n).length < size) :
    round size offset (replies n) s = take size (replies n) (ask size offset s) := by
  have htotal := h.total
  rw [round, if_neg (by simp [h.result]), if_neg (by omega)]

theorem Going.next (h : Going replies n s) (hlt : (received replies n).length < size)
    (hm : replies n = some m) (hne : lengthOf m ≠ 0) :
    Going replies (n+1) (round size offset (replies n) s) := by
  have htotal : s.totalread = (received replies n).length := by
    rw [h.total]
    omega
  rw [h.round_eq hsize hlt, hm, take, if_neg hne]
  refine ⟨h.result,?_,?_,?_⟩
  · rw [received_length hm]
    exact congrArg (fun t => (t+lengthOf m) % 4294967296) htotal
  · simp [ask, h.asked]
  · intro i
    have hdata : received replies (n+1) = received replies n ++ dataOf m := by simp [received, hm]
    rw [hdata, ← memcpy_append h.buffer, ← htotal]
    rfl

theorem full_going (hpos : 0 < size) (h : Full replies n)
    (hlt : (received replies n).length < size) :
    Going replies n (readFile size offset replies n) := by
  induction n with
  | zero => exact ⟨if_neg (by omega),rfl,rfl,fun _ => rfl⟩
  | succ n ih =>
    obtain ⟨m,hm,hne⟩ := h n (lt_succ_self n)
    rw [received_length hm] at hlt
    exact (ih (fun j hj => h j (by omega)) (by omega)).next hsize (by omega) hm hne

omit hsize in
theorem Going.inside (h : Going replies n s) (hle : (received replies n).length ≤ size) :
    ∀ i, s.buffer i ≠ none → i < size := by
  intro i hi
  rw [h.buffer] at hi
  exact Nat.lt_of_lt_of_le (Nat.lt_of_not_le (mt getElem?_eq_none hi)) hle

theorem Going.ends (h : Going replies n s) (hle : (received replies n).length ≤ size)
    (hend : ∀ m, (received replies n).length < size → replies n = some m →
      lengthOf m = 0 ∧ 2147483648 ≤ size) : (round size offset (replies n) s).result ≠ none ∧
      Honest size replies (round size offset (replies n) s) := by
  by_cases hlt : (received replies n).length < size
  · rw [h.round_eq hsize hlt]
    cases hm : replies n with
    | none => exact ⟨nofun,h.inside hle,fun r hr hpos => by cases hr; omega⟩
    | some m =>
      obtain ⟨hzero,hlarge⟩ := hend m hlt hm
      rw [take, if_pos hzero]
      refine ⟨nofun,h.inside hle,fun r hr hpos => ?_⟩
      cases hr
      have := (positive_size hsize).mp hpos
      omega
  · have htotal := h.total
    rw [round, if_neg (by simp [h.result]), if_pos (by omega)]
    refine ⟨nofun,h.inside hle,fun r hr hpos => ?_⟩
    cases hr
    rw [s32_size ((positive_size hsize).mp hpos).2, h.asked]
    exact ⟨by omega,h.buffer⟩

theorem fitting_honest (hpos : 0 < size) (hfit : Fitting size replies) (n : ℕ) :
    (Full replies n ∧ (received replies n).length ≤ size ∧
      Going replies n (readFile size offset replies n)) ∨
    ((readFile size offset replies n).result ≠ none ∧
      Honest size replies (readFile size offset replies n)) := by
  induction n with
  | zero => exact .inl ⟨nofun,zero_le _,⟨if_neg (by omega),rfl,rfl,fun _ => rfl⟩⟩
  | succ n ih =>
    rw [readFile]
    rcases ih with ⟨hfull,hle,hg⟩ | hend
    · by_cases hmore : ∃ m, (received replies n).length < size ∧ replies n = some m ∧ lengthOf m ≠ 0
      · obtain ⟨m,hlt,hm,hne⟩ := hmore
        refine .inl ⟨?_,?_,hg.next hsize hlt hm hne⟩
        · intro j hj
          rcases Nat.lt_succ_iff_lt_or_eq.mp hj with hj | rfl
          · exact hfull j hj
          · exact ⟨m,hm,hne⟩
        · rw [received_length hm]
          exact (hfit n m hfull hlt hm).1
      · refine .inr (hg.ends hsize hle (fun m hlt hm => ?_))
        have hzero : lengthOf m = 0 := by
          by_contra hne
          exact hmore ⟨m,hlt,hm,hne⟩
        exact ⟨hzero,(hfit n m hfull hlt hm).2 hzero⟩
    · rw [round, if_pos hend.1]
      exact .inr hend

theorem honest_fitting (hpos : 0 < size)
    (h : ∀ n, Honest size replies (readFile size offset replies n)) : Fitting size replies := by
  intro n m hfull hlt hm
  have hg : Going replies n (readFile size offset replies n) := full_going hsize hpos hfull hlt
  have hnext := h (n+1)
  rw [readFile] at hnext
  by_cases hzero : lengthOf m = 0
  · refine ⟨by omega,fun _ => ?_⟩
    by_contra hsmall
    rw [hg.round_eq hsize hlt, hm, take, if_pos hzero] at hnext
    have hcount := (hnext.count _ rfl ((positive_size hsize).mpr (by omega))).1
    have hasked : (ask size offset (readFile size offset replies n)).asked.length = n+1 := by
      simp [ask, hg.asked]
    rw [hasked, s32_size (by omega), received_length hm] at hcount
    omega
  · refine ⟨?_,fun h => absurd h hzero⟩
    by_contra hover
    have hnext' : Going replies (n+1) (round size offset (replies n) _) :=
      hg.next hsize hlt hm hzero
    have hbyte := hnext'.buffer size
    refine Nat.lt_irrefl _ (hnext.inside size ?_)
    rw [hbyte, ne_eq, getElem?_eq_none_iff, received_length hm]
    omega

end Rounds

/-- A read is honest at every point just if the replies fit. -/
theorem read_honest_iff (size : ℕ) (offset : ℤ) (replies : Replies)
    (hsize : 0 < size ∧ size < 4294967296) :
    (∀ n, Honest size replies (readFile size offset replies n)) ↔ Fitting size replies := by
  constructor
  · exact honest_fitting hsize.2 hsize.1
  · intro hfit n
    rcases fitting_honest hsize.2 hsize.1 hfit n with ⟨-,hle,hg⟩ | ⟨-,hend⟩
    · exact ⟨hg.inside hle,fun r hr => nomatch hg.result.symm.trans hr⟩
    · exact hend

def claiming (n : BitVec 8) : Replies := fun _ => some (fun i => if i = 43 then n else 0)

/-- Eight bytes are asked for and come in two replies. -/
theorem read_honest_eight : Fitting 8 (claiming 4) ∧
    (readFile 8 0 (claiming 4) 3).result = some 8 ∧
    Honest 8 (claiming 4) (readFile 8 0 (claiming 4) 3) := by
  have hfit : Fitting 8 (claiming 4) := by
    intro n m _ hlt hm
    cases hm
    have hlength : lengthOf (fun i => if i = 43 then 4 else 0) = 4 := by decide
    have hreceived : ∀ k, (received (claiming 4) k).length = 4*k := by
      intro k
      induction k with
      | zero => rfl
      | succ k ih => rw [received_length rfl, ih, hlength, Nat.mul_succ]
    rw [hreceived] at hlt ⊢
    rw [hlength]
    exact ⟨by omega,by omega⟩
  exact ⟨hfit,by decide,(read_honest_iff 8 0 (claiming 4) (by decide)).mpr hfit 3⟩

/-- The end of the file comes at once, and four bytes are reported. -/
theorem empty_read_reported : ¬Honest 4 (claiming 0) (readFile 4 0 (claiming 0) 1) := by
  intro h
  have hcount := (h.count 4 (by decide) (by decide)).1
  exact absurd hcount (by decide)

end Libogc.SmbReadFile
