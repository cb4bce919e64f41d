import Mathlib.Data.Int.Notation
import Mathlib.Data.List.GetD

/-!
# Text for the UART

`WriteUARTN` asks for the room in the queue of the UART and sends words of up
to four bytes while there is room for all that is left. The pointer to the text
is not moved, and with fewer than four bytes of room the loop goes round
without an end. Recorded is what is sent after each report. The channel is
selected whenever it is asked for.
-/

set_option autoImplicit false

namespace Libogc.ExiUart
open List Nat

/-- What is sent in answer to a report of so much room. -/
structure Burst where
  room : ℕ
  bytes : List UInt8
  deriving DecidableEq, Repr

/-- `__queuelength`, for the fill level that the UART has reported. -/
def queueLength (level : UInt8) : ℤ := 16-level.toNat

def returned (c : UInt8) : UInt8 := if c = 10 then 13 else c

/-- The inner loop, with the length that is left and the bytes sent. -/
def sendLoop (text : List UInt8) : ℕ → ℕ → ℕ → List UInt8 → Option (ℕ × List UInt8)
  | 0, _, _, _ => none
  | k+1, qlen, len, out =>
    if 0 < qlen ∧ 0 < len then
      if 4 ≤ qlen then
        let cnt := if len < 4 then len else 4
        if qlen < len then some (len, out)
        else sendLoop text k (qlen-cnt) (len-cnt) (out ++ text.take cnt)
      else sendLoop text k qlen len out
    else some (len, out)

/-- The outer loop from report `i` on. -/
def writeLoop (text : List UInt8) (levels : ℕ → UInt8) :
    ℕ → ℕ → ℕ → List Burst → Option (ℕ × List Burst)
  | 0, _, _, _ => none
  | k+1, i, len, bursts =>
    if len = 0 then some (0, bursts)
    else
      let qlen := queueLength (levels i)
      if qlen < 0 then some (3, bursts)
      else if 12 ≤ qlen ∨ len ≤ qlen then
        (sendLoop text k qlen.toNat len []).bind (fun r =>
          writeLoop text levels k (i+1) r.1 (bursts ++ [⟨qlen.toNat,r.2⟩]))
      else writeLoop text levels k (i+1) len bursts

/-- The result with what was sent, in at most so many turns of the loops. -/
def writeUARTN (enabled locked : Bool) (k : ℕ) (buf : List UInt8) (levels : ℕ → UInt8) :
    Option (ℕ × List Burst) :=
  if !enabled then some (2, [])
  else if !locked then some (0, [])
  else writeLoop (buf.map returned) levels k 0 buf.length []

def Sent (buf : List UInt8) (levels : ℕ → UInt8) : Prop :=
  ∃ k ret bursts, writeUARTN true true k buf levels = some (ret,bursts) ∧
    bursts.flatMap Burst.bytes = buf.map returned ∧ ∀ b ∈ bursts, b.bytes.length ≤ b.room

/-- The first report of enough room for the text is one of enough whole words,
and each word of the text is the beginning of the first one. -/
def Fits (buf : List UInt8) (levels : ℕ → UInt8) : Prop :=
  buf = [] ∨
    (∃ n, (∀ m < n, (levels m).toNat ≤ 16 ∧ 16-(levels m).toNat < buf.length) ∧
      (levels n).toNat+(buf.length+3)/4*4 ≤ 16) ∧
    ∀ i < buf.length, (buf.map returned).getD i 0 = (buf.map returned).getD (i%4) 0

section Send

variable {text : List UInt8}

def repeated (text : List UInt8) (n : ℕ) : List UInt8 :=
  (List.range n).map (fun i => text.getD (i%4) 0)

theorem repeated_append {s n : ℕ} (hs : s%4 = 0) (hn : n ≤ 4) (ht : n ≤ text.length) :
    repeated text s ++ text.take n = repeated text (s+n) := by
  have htake : text.take n = (List.range n).map (fun i => text.getD ((s+i)%4) 0) := by
    apply ext_getElem
    · simp [ht]
    · intro i h1 h2
      have hi : i < n := by simpa using h2
      rw [getElem_take, getElem_map, getElem_range,
        show (s+i)%4 = i by omega, getD_eq_getElem _ _ (by omega)]
  rw [repeated, repeated, range_add, map_append, htake, map_map]
  rfl

/-- By induction on the fuel: there is always room for a whole word. -/
theorem sendLoop_room {k qlen len s : ℕ} (hk : len < k) (hq : (len+3)/4*4 ≤ qlen)
    (hs : s%4 = 0) (ht : s+len = text.length) :
    sendLoop text k qlen len (repeated text s) = some (0,repeated text text.length) := by
  induction k generalizing qlen len s with
  | zero => omega
  | succ k ih =>
    rw [sendLoop]
    by_cases hlen : len = 0
    · rw [if_neg (by omega), hlen, show s = text.length by omega]
    · rw [if_pos (by omega), if_pos (by omega)]
      rw [if_neg (by omega)]
      by_cases h4 : len < 4
      · rw [if_pos h4, repeated_append hs (by omega) (by omega), Nat.sub_self,
          show s+len = text.length by omega]
        obtain ⟨k,rfl⟩ : ∃ j, k = j+1 := ⟨k-1,by omega⟩
        rw [sendLoop, if_neg (by omega)]
      · rw [if_neg h4, repeated_append hs (by omega) (by omega)]
        exact ih (by omega) (by omega) (by omega) (by omega)

theorem sendLoop_stuck {qlen len : ℕ} (hlen : 0 < len) (hle : len ≤ qlen)
    (hq : qlen < (len+3)/4*4) (k : ℕ) (out : List UInt8) : sendLoop text k qlen len out = none := by
  induction k generalizing qlen len out with
  | zero => rfl
  | succ k ih =>
    rw [sendLoop, if_pos (by omega)]
    by_cases h4 : 4 ≤ qlen
    · rw [if_pos h4]
      rw [if_neg (by omega), if_neg (by omega)]
      exact ih (by omega) (by omega) (by omega) _
    · rw [if_neg h4]
      exact ih hlen hle hq out

theorem sendLoop_wait {qlen len : ℕ} (h4 : 4 ≤ qlen) (hq : qlen < len) (k : ℕ) (out : List UInt8) :
    sendLoop text (k+1) qlen len out = some (len,out) := by
  rw [sendLoop, if_pos (by omega), if_pos h4]
  rw [if_pos hq]

theorem sendLoop_more {k k' qlen len : ℕ} {out : List UInt8} {r : ℕ × List UInt8} (hk : k ≤ k')
    (h : sendLoop text k qlen len out = some r) : sendLoop text k' qlen len out = some r := by
  induction k generalizing k' qlen len out with
  | zero => exact absurd h nofun
  | succ k ih =>
    obtain ⟨k',rfl⟩ : ∃ j, k' = j+1 := ⟨k'-1,by omega⟩
    rw [sendLoop] at h ⊢
    by_cases hgo : 0 < qlen ∧ 0 < len
    · rw [if_pos hgo] at h ⊢
      by_cases h4 : 4 ≤ qlen
      · rw [if_pos h4] at h ⊢
        by_cases hq : qlen < len
        · exact (if_pos hq).trans ((if_pos hq).symm.trans h)
        · exact (if_neg hq).trans (ih (le_of_succ_le_succ hk) ((if_neg hq).symm.trans h))
      · rw [if_neg h4] at h ⊢
        exact ih (le_of_succ_le_succ hk) h
    · rw [if_neg hgo] at h ⊢
      exact h

end Send

section Write

variable {text : List UInt8} {levels : ℕ → UInt8} {i k len : ℕ} {bursts : List Burst}

theorem writeLoop_wait (hl : (levels i).toNat ≤ 16) (hq : 16-(levels i).toNat < len) :
    ∃ empty : List Burst, (∀ b ∈ empty, b.bytes = []) ∧
      ∀ k, writeLoop text levels (k+2) i len bursts =
        writeLoop text levels (k+1) (i+1) len (bursts ++ empty) := by
  have hqlen : queueLength (levels i) = (16-(levels i).toNat : ℕ) := by
    unfold queueLength
    omega
  by_cases h12 : 12 ≤ 16-(levels i).toNat
  · refine ⟨[⟨16-(levels i).toNat,[]⟩],by simp,fun k => ?_⟩
    rw [writeLoop, if_neg (by omega)]
    rw [hqlen, if_neg (by omega), if_pos (by omega), Int.toNat_natCast,
      sendLoop_wait (by omega) hq, Option.bind_some]
  · refine ⟨[],nofun,fun k => ?_⟩
    rw [writeLoop, if_neg (by omega), append_nil]
    rw [if_neg (by omega), if_neg (by omega)]

theorem writeLoop_send (hlen : 0 < len) (hl : (levels i).toNat ≤ 16)
    (hq : len ≤ 16-(levels i).toNat) : writeLoop text levels (k+1) i len bursts =
      (sendLoop text k (16-(levels i).toNat) len []).bind (fun r =>
        writeLoop text levels k (i+1) r.1 (bursts ++ [⟨16-(levels i).toNat,r.2⟩])) := by
  have hqlen : queueLength (levels i) = (16-(levels i).toNat : ℕ) := by
    unfold queueLength
    omega
  rw [writeLoop, if_neg (by omega)]
  rw [hqlen, if_neg (by omega), if_pos (by omega), Int.toNat_natCast]

theorem writeLoop_room (h0 : text ≠ []) {n : ℕ}
    (hwait : ∀ m < n, (levels (i+m)).toNat ≤ 16 ∧ 16-(levels (i+m)).toNat < text.length)
    (hroom : (levels (i+n)).toNat+(text.length+3)/4*4 ≤ 16) :
    ∃ empty : List Burst, (∀ b ∈ empty, b.bytes = []) ∧
      writeLoop text levels (n+text.length+2) i text.length bursts =
        some (0,bursts ++ empty ++ [⟨16-(levels (i+n)).toNat,repeated text text.length⟩]) := by
  have hpos : 0 < text.length := length_pos_iff.mpr h0
  induction n generalizing i bursts with
  | zero =>
    refine ⟨[],nofun,?_⟩
    have hsend := @sendLoop_room text (text.length+1) (16-(levels i).toNat) text.length 0
      (lt_succ_self _) (by rw [Nat.add_zero] at hroom; omega) rfl (Nat.zero_add _)
    rw [Nat.add_zero] at hroom ⊢
    rw [Nat.zero_add, writeLoop_send hpos (by omega) (by omega)]
    change Option.bind (sendLoop _ _ _ _ (repeated text 0)) _ = _
    rw [hsend, append_nil]
    rfl
  | succ n ih =>
    obtain ⟨hl,hq⟩ := hwait 0 (zero_lt_succ n)
    obtain ⟨empty,hempty,hstep⟩ := @writeLoop_wait text levels i text.length bursts hl hq
    obtain ⟨empty',hempty',hrest⟩ := @ih (i+1) (bursts ++ empty)
      (fun m hm => by
        have := hwait (m+1) (succ_lt_succ hm)
        rwa [show i+(m+1) = i+1+m by omega] at this)
      (by rwa [show i+1+n = i+(n+1) by omega])
    refine ⟨empty ++ empty',?_,?_⟩
    · exact fun b hb => (mem_append.mp hb).elim (hempty b) (hempty' b)
    · rw [show n+1+text.length+2 = (n+text.length+1)+2 by omega, hstep, hrest, show i+1+n =
        i+(n+1) by omega,
        append_assoc bursts]

theorem writeLoop_one (hlen : 0 < len) (hl : (levels i).toNat ≤ 16) :
    writeLoop text levels 1 i len bursts = none := by
  have hqlen : ¬ queueLength (levels i) < 0 := by
    unfold queueLength
    omega
  rw [writeLoop, if_neg (by omega)]
  rw [if_neg hqlen]
  split <;> rfl

theorem writeLoop_refused (hlen : 0 < len) (hl : ¬ (levels i).toNat ≤ 16) :
    writeLoop text levels (k+1) i len bursts = some (3,bursts) := by
  have hqlen : queueLength (levels i) < 0 := by
    unfold queueLength
    omega
  rw [writeLoop, if_neg (by omega)]
  rw [if_pos hqlen]

/-- By induction on the fuel: a run that ends without having sent anything was
refused, and any other one has met a report of enough whole words. -/
theorem writeLoop_ends (h0 : text ≠ []) {r : ℕ × List Burst}
    (h : writeLoop text levels k i text.length bursts = some r)
    (hb : bursts.flatMap Burst.bytes = []) :
    r.2.flatMap Burst.bytes = [] ∨ r.2.flatMap Burst.bytes = repeated text text.length ∧
      ∃ n, (∀ m < n, (levels (i+m)).toNat ≤ 16 ∧ 16-(levels (i+m)).toNat < text.length) ∧
        (levels (i+n)).toNat+(text.length+3)/4*4 ≤ 16 := by
  have hpos : 0 < text.length := length_pos_iff.mpr h0
  induction k generalizing i bursts with
  | zero => exact absurd h nofun
  | succ k ih =>
    by_cases hl : (levels i).toNat ≤ 16
    · by_cases hq : 16-(levels i).toNat < text.length
      · cases k with
        | zero =>
          rw [writeLoop_one hpos hl] at h
          exact absurd h nofun
        | succ k =>
          obtain ⟨empty,hempty,hstep⟩ := @writeLoop_wait text levels i text.length bursts hl hq
          rw [hstep] at h
          have hb' : (bursts ++ empty).flatMap Burst.bytes = [] := by
            rw [flatMap_append, hb]
            exact flatMap_eq_nil_iff.mpr hempty
          refine (ih h hb').imp_right ?_
          rintro ⟨hbytes,n,hwait,hroom⟩
          refine ⟨hbytes,n+1,?_,?_⟩
          · intro m hm
            cases m with
            | zero => exact ⟨hl,hq⟩
            | succ m =>
              have hm' := hwait m (lt_of_succ_lt_succ hm)
              rwa [show i+1+m = i+(m+1) by omega] at hm'
          · rwa [show i+1+n = i+(n+1) by omega] at hroom
      · right
        rw [writeLoop_send hpos hl (by omega)] at h
        by_cases hroom : (text.length+3)/4*4 ≤ 16-(levels i).toNat
        · obtain ⟨p,hp,hrest⟩ := Option.bind_eq_some_iff.mp h
          have hfull := @sendLoop_room text (k+text.length+1) (16-(levels i).toNat) text.length 0
            (by omega) hroom rfl (Nat.zero_add _)
          obtain rfl := Option.mem_unique (sendLoop_more (by omega) hp) hfull
          cases k with
          | zero => exact absurd hrest nofun
          | succ k =>
            cases hrest
            refine ⟨?_,0,nofun,by rw [Nat.add_zero]; omega⟩
            rw [flatMap_append, hb]
            simp
        · rw [sendLoop_stuck hpos (by omega) (by omega)] at h
          exact absurd h nofun
    · left
      rw [writeLoop_refused hpos hl] at h
      cases h
      exact hb

end Write

theorem repeated_eq {text : List UInt8} : repeated text text.length = text ↔
    ∀ i < text.length, text.getD i 0 = text.getD (i%4) 0 := by
  constructor
  · intro h i hi
    have hget : (repeated text text.length).getD i 0 = text.getD (i%4) 0 := by
      rw [repeated, getD_eq_getElem _ _ (by simpa using hi), getElem_map, getElem_range]
    rw [← hget, h]
  · intro h
    apply ext_getElem
    · simp [repeated]
    · intro i h1 h2
      have hi := h i h2
      rw [getD_eq_getElem _ _ h2] at hi
      simp only [repeated, getElem_map, getElem_range]
      exact hi.symm

theorem writeUARTN_eq (buf : List UInt8) (levels : ℕ → UInt8) (k : ℕ) :
    writeUARTN true true k buf levels =
      writeLoop (buf.map returned) levels k 0 (buf.map returned).length [] := by
  rw [length_map]
  rfl

theorem uart_sends_fitting (buf : List UInt8) (levels : ℕ → UInt8) :
    Sent buf levels ↔ Fits buf levels := by
  have hlen : (buf.map returned).length = buf.length := length_map _
  have hwrite := writeUARTN_eq buf levels
  by_cases hbuf : buf = []
  · subst hbuf
    exact iff_of_true ⟨1,0,[],rfl,rfl,nofun⟩ (.inl rfl)
  · have htext : buf.map returned ≠ [] := by simpa using hbuf
    constructor
    · rintro ⟨k,ret,bursts,hrun,hbytes,-⟩
      rw [hwrite] at hrun
      right
      rcases writeLoop_ends htext hrun rfl with hnone | ⟨hrep,n,hwait,hroom⟩
      · exact absurd (hbytes.symm.trans hnone) htext
      · refine ⟨⟨n,?_,?_⟩,?_⟩
        · simpa [hlen] using hwait
        · simpa [hlen] using hroom
        · rw [← hlen]
          exact repeated_eq.mp (hrep.symm.trans hbytes)
    · rintro (hnil | ⟨⟨n,hwait,hroom⟩,hsame⟩)
      · exact absurd hnil hbuf
      · rw [← hlen] at hsame hroom
        obtain ⟨empty,hempty,hrun⟩ := @writeLoop_room (buf.map returned) levels 0 [] htext n
          (by simpa using hwait) (by simpa using hroom)
        rw [repeated_eq.mpr hsame] at hrun
        refine ⟨_,0,_,(hwrite _).trans hrun,?_,?_⟩
        · rw [flatMap_append, nil_append, flatMap_eq_nil_iff.mpr hempty]
          simp
        · intro b hb
          rcases mem_append.mp hb with hb | hb
          · rw [hempty b (by simpa using hb)]
            exact zero_le _
          · obtain rfl := mem_singleton.mp hb
            dsimp only
            rw [Nat.zero_add]
            omega

/-- Five bytes and an empty queue: the fifth one sent is the first of the text. -/
theorem uart_repeats_word :
    writeUARTN true true 8 [104, 101, 108, 108, 111] (fun _ => 0) =
      some (0,[⟨16,[104, 101, 108, 108, 104]⟩]) ∧
    ¬ Sent [104, 101, 108, 108, 111] (fun _ => 0) := by
  refine ⟨by decide,?_⟩
  rintro ⟨k,ret,bursts,hrun,hbytes,-⟩
  rcases writeLoop_ends (by decide) hrun rfl with hnone | ⟨hrep,-⟩
  · exact absurd (hbytes.symm.trans hnone) (by decide)
  · exact absurd (hrep.symm.trans hbytes) (by decide)

end Libogc.ExiUart
