import Mathlib.Data.Nat.Notation

/-!
# The numbers of the debugger's packets

A string is read from the character it points to, and reading at its end gives
the NUL. The decoder for thread numbers of variable length asks for a zero that
was found where the one for integers asks for none.
-/

set_option autoImplicit false

namespace Libogc.HexCodec

def hexchars (n : BitVec 4) : Char :=
  ['0', '1', '2', '3', '4', '5', '6', '7', '8', '9', 'a', 'b', 'c', 'd', 'e', 'f'].getD n.toNat '0'

def hexDigit (ch : Char) : Option (BitVec 4) :=
  if '0' ≤ ch ∧ ch ≤ '9' then some (.ofNat 4 (ch.toNat - '0'.toNat))
  else if 'a' ≤ ch ∧ ch ≤ 'f' then some (.ofNat 4 (ch.toNat - 'a'.toNat+10))
  else if 'A' ≤ ch ∧ ch ≤ 'F' then some (.ofNat 4 (ch.toNat - 'A'.toNat+10))
  else none

def hstr2nibble (buf : List Char) : Option (BitVec 4) := hexDigit (buf.headD '\x00')

def zeros : ℕ → List Char → ℕ × List Char
  | n+1, '0'::buf => ((zeros n buf).1+1,(zeros n buf).2)
  | _, buf => (0,buf)

def shiftIn (val : BitVec 32) (nibble : BitVec 4) : BitVec 32 := val <<< 4 ||| nibble.setWidth 32

/-- Up to `lim` digits; `null` is set if there has to be one. -/
def digits (null : Bool) : ℕ → BitVec 32 → List Char → Option (BitVec 32 × List Char)
  | 0, val, buf => if (hstr2nibble buf).isSome then none else some (val,buf)
  | lim+1, val, buf =>
    match hstr2nibble buf with
    | none => if null then none else some (val,buf)
    | some nibble => digits false lim (shiftIn val nibble) buf.tail

def vhstr2int (buf : List Char) : Option (BitVec 32 × List Char) :=
  digits (decide (¬0 < (zeros 8 buf).1)) (8-(zeros 8 buf).1) 0 (zeros 8 buf).2

def vhstr2thread (buf : List Char) : Option (BitVec 32 × List Char) :=
  digits (decide (0 < (zeros 16 buf).1)) (16-(zeros 16 buf).1) 0 (zeros 16 buf).2

def fixedDigits : ℕ → BitVec 32 → List Char → Option (BitVec 32 × List Char)
  | 0, val, buf => some (val,buf)
  | n+1, val, buf =>
    (hstr2nibble buf).bind (fun nibble => fixedDigits n (shiftIn val nibble) buf.tail)

def fhstr2int (buf : List Char) : Option (BitVec 32 × List Char) := fixedDigits 8 0 buf

def fhstr2thread (buf : List Char) : Option (BitVec 32 × List Char) :=
  if (zeros 8 buf).1 = 8 then fixedDigits 8 0 (zeros 8 buf).2 else none

def nibbles : ℕ → BitVec 32 → List (BitVec 4)
  | 0, _ => []
  | n+1, val => (val >>> (4*n)).setWidth 4::nibbles n val

def int2fhstr (val : BitVec 32) : List Char := (nibbles 8 val).map hexchars

def int2vhstr (val : BitVec 32) : List Char :=
  match (nibbles 8 val).dropWhile (fun n => decide (n = 0)) with
  | [] => ['0']
  | n::ns => (n::ns).map hexchars

def thread2fhstr (thread : BitVec 32) : List Char := List.replicate 8 '0' ++ int2fhstr thread

def thread2vhstr (thread : BitVec 32) : List Char := int2vhstr thread

/-! What the digits of a number say. -/

theorem hexDigit_hexchars : ∀ n : BitVec 4, hexDigit (hexchars n) = some n := by decide

theorem hexchars_zero : ∀ n : BitVec 4, hexchars n = '0' → n = 0 := by decide

theorem shiftIn_low (x : BitVec 32) : shiftIn (x >>> 4) (x.setWidth 4) = x := by
  apply BitVec.eq_of_getLsbD_eq
  intro i hi
  by_cases h : i < 4
  · simp [shiftIn, h, hi]
  · simp [shiftIn, h, hi, show 4+(i-4) = i by omega]

theorem shiftIn_next (n : ℕ) (v : BitVec 32) :
    shiftIn (v >>> (4*(n+1))) ((v >>> (4*n)).setWidth 4) = v >>> (4*n) := by
  rw [Nat.mul_succ, BitVec.shiftRight_add]
  exact shiftIn_low _

theorem nibbles_value (n : ℕ) (v : BitVec 32) : (nibbles n v).foldl shiftIn (v >>> (4*n)) = v := by
  induction n with
  | zero => simp [nibbles]
  | succ n ih => rw [nibbles, List.foldl_cons, shiftIn_next, ih]

theorem trimmed_value (n : ℕ) (v : BitVec 32) (h : v >>> (4*n) = 0#32) :
    ((nibbles n v).dropWhile (fun d => decide (d = 0))).foldl shiftIn 0#32 = v := by
  induction n with
  | zero => simpa [nibbles] using h.symm
  | succ n ih =>
    have hnext := shiftIn_next n v
    by_cases hd : (v >>> (4*n)).setWidth 4 = 0#4
    · rw [h, hd] at hnext
      simpa [nibbles, hd] using ih (hnext.symm.trans (by decide))
    · have hvalue := nibbles_value (n+1) v
      rw [h] at hvalue
      simpa [nibbles, hd] using hvalue

section Decode

variable {ns : List (BitVec 4)} {n : BitVec 4} {cont : List Char} {val : BitVec 32} {lim : ℕ}

theorem hstr2nibble_hexchars : hstr2nibble (hexchars n::cont) = some n := hexDigit_hexchars n

theorem digits_read (hcont : hstr2nibble cont = none) (h : ns.length ≤ lim) :
    digits false lim val (ns.map hexchars ++ cont) = some (ns.foldl shiftIn val,cont) := by
  induction ns generalizing lim val with
  | nil => cases lim <;> simp [digits, hcont]
  | cons n ns ih =>
    cases lim with
    | zero => simp at h
    | succ lim => simp [digits, hstr2nibble_hexchars, ih (Nat.le_of_succ_le_succ h)]

theorem fixedDigits_read : fixedDigits ns.length val (ns.map hexchars ++ cont) =
    some (ns.foldl shiftIn val,cont) := by
  induction ns generalizing val with
  | nil => rfl
  | cons n ns ih => simp [fixedDigits, hstr2nibble_hexchars, ih]

theorem fint_read (v : BitVec 32) : fixedDigits 8 0 (int2fhstr v ++ cont) = some (v,cont) := by
  have hvalue := nibbles_value 8 v
  rw [BitVec.ushiftRight_eq_zero (by decide)] at hvalue
  exact fixedDigits_read.trans (congrArg (fun x => some (x,cont)) hvalue)

theorem zeros_none (h : cont.head? ≠ some '0') : zeros lim cont = (0,cont) := by
  unfold zeros
  split
  · simp at h
  · rfl

theorem no_zero (h : hstr2nibble cont = none) : cont.head? ≠ some '0' := by
  intro h0
  obtain ⟨l,rfl⟩ := List.head?_eq_some_iff.mp h0
  exact absurd h (show hexDigit '0' ≠ none by decide)

theorem vhstr_cases (v : BitVec 32) : v = 0 ∧ int2vhstr v = ['0'] ∨
    v ≠ 0 ∧ ∃ n ns, n ≠ 0 ∧ ns.length ≤ 7 ∧ int2vhstr v = (n::ns).map hexchars ∧
      ns.foldl shiftIn (shiftIn 0 n) = v := by
  have hvalue := trimmed_value 8 v (BitVec.ushiftRight_eq_zero (by decide))
  have hhead := List.head?_dropWhile_not (fun d => decide (d = 0)) (nibbles 8 v)
  have hlen := (List.dropWhile_suffix (l := nibbles 8 v) (fun d => decide (d = 0))).length_le
  by_cases hv : v = 0
  · subst hv
    exact .inl ⟨rfl,by decide⟩
  · unfold int2vhstr
    cases hd : (nibbles 8 v).dropWhile (fun d => decide (d = 0)) with
    | nil =>
      rw [hd] at hvalue
      exact absurd hvalue.symm hv
    | cons n ns =>
      rw [hd] at hvalue hhead hlen
      exact .inr ⟨hv,n,ns,of_decide_eq_false hhead,Nat.le_of_succ_le_succ hlen,rfl,hvalue⟩

theorem digits_first {null : Bool} (hn : n ≠ 0) (hcont : hstr2nibble cont = none)
    (h : ns.length ≤ lim) : zeros (lim+1) ((n::ns).map hexchars ++ cont) =
        (0,(n::ns).map hexchars ++ cont) ∧ digits null (lim+1) val ((n::ns).map hexchars ++ cont) =
      some (ns.foldl shiftIn (shiftIn val n),cont) := by
  refine ⟨zeros_none ?_,?_⟩
  · exact fun h0 => hn (hexchars_zero n (Option.some.inj h0))
  · simp [digits, hstr2nibble_hexchars, digits_read hcont h]

end Decode

/-- Numbers come back from in front of a string without one, and such a string
holds none, except in the variable form for threads. -/
theorem codecs_agree (v : BitVec 32) (cont : List Char) (h : hstr2nibble cont = none) :
    (vhstr2int (int2vhstr v ++ cont) = some (v,cont) ∧
      fhstr2int (int2fhstr v ++ cont) = some (v,cont) ∧
      fhstr2thread (thread2fhstr v ++ cont) = some (v,cont) ∧
      (vhstr2thread (thread2vhstr v ++ cont) = some (v,cont) ↔ v ≠ 0)) ∧
    vhstr2int cont = none ∧ fhstr2int cont = none ∧ fhstr2thread cont = none ∧
      vhstr2thread cont ≠ none := by
  have hnone : ∀ lim, zeros lim cont = (0,cont) := fun lim => zeros_none (no_zero h)
  have hskip : zeros 8 (thread2fhstr v ++ cont) = (8,int2fhstr v ++ cont) := by
    simp [thread2fhstr, List.replicate, zeros]
  have hfixed : fhstr2thread (thread2fhstr v ++ cont) = some (v,cont) := by
    rw [fhstr2thread, hskip]
    exact fint_read v
  refine ⟨⟨?_,fint_read v,hfixed,?_⟩,?_⟩
  · rcases vhstr_cases v with ⟨h0,hv⟩ | ⟨-,n,ns,hn,hlen,hv,hvalue⟩
    · rw [vhstr2int, hv, h0]
      simp [zeros, hnone, digits, h]
    · obtain ⟨hz,hd⟩ := digits_first hn h hlen
      rw [vhstr2int, hv, hz]
      exact hd.trans (by rw [hvalue])
  · rcases vhstr_cases v with ⟨h0,hv⟩ | ⟨hne,n,ns,hn,hlen,hv,hvalue⟩
    · rw [vhstr2thread, thread2vhstr, hv, h0]
      simp [zeros, hnone, digits, h]
    · obtain ⟨hz,hd⟩ := digits_first hn h (show ns.length ≤ 15 by omega)
      refine ⟨fun _ => hne,fun _ => ?_⟩
      rw [vhstr2thread, thread2vhstr, hv, hz]
      exact hd.trans (by rw [hvalue])
  · simp [vhstr2int, fhstr2int, fhstr2thread, vhstr2thread, hnone, digits, fixedDigits, h]

theorem codecs_agree_largest : hstr2nibble [','] = none ∧
    vhstr2thread (thread2vhstr 0xffffffff ++ [',']) = some (0xffffffff,[',']) :=
  ⟨by decide,(codecs_agree 0xffffffff [','] (by decide)).1.2.2.2.mpr (by decide)⟩

/-- Thread zero is not read back, and a comma is read as thread zero. -/
theorem thread_zero_lost : vhstr2thread (thread2vhstr 0 ++ [',']) = none ∧
    vhstr2thread [','] = some (0,[',']) := by decide

end Libogc.HexCodec
