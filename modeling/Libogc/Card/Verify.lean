import Libogc.Card.FatLoops

/-!
# Verification of the tables

Mounting reads the five system blocks and then chooses, for each table, which
of its two copies is the current one.
-/

set_option autoImplicit false

namespace Libogc.CardVerify
open ByteStore CardLayout CardControl CardFatLoops

/-- The copies `k` and `k+1`: how many are bad, which one becomes current,
and the work area with the other one copied over it. -/
def checkCopies (k : ℕ) (good : Bytes → Bool) (updated : Bytes → ℕ) (curr : ℕ) (work : ℕ → Bytes) :
    ℕ × ℕ × (ℕ → Bytes) :=
  let bad0 := !good (work k)
  let bad1 := !good (work (k+1))
  let chosen :=
    if !bad0 && !bad1 then if updated (work k) < updated (work (k+1)) then 0 else 1
    else if bad1 then 1 else 0
  if bad0 || bad1 || curr == 0 then
    (bad0.toNat+bad1.toNat, k+chosen, Function.update work (k+chosen) (work (k+(1-chosen))))
  else (0, curr, work)

def dirGood (d : Bytes) : Bool := decide (dirSigned d)

def fatGood (blocks : ℕ) (f : Bytes) : Bool :=
  decide (fatSigned f) && decide (zeroWords blocks f = freeBlocks f)

def checkDir (s : Card) : ℕ × Card :=
  match checkCopies 1 dirGood dirUpdated s.currDir s.work with
  | (bad, curr, work) => (bad, { s with currDir := curr, work := work })

def checkFat (s : Card) : ℕ × Card :=
  match checkCopies 3 (fatGood s.geo.blocks) fatUpdated s.currFat s.work with
  | (bad, curr, work) => (bad, { s with currFat := curr, work := work })

def verify (s : Card) : ℤ × Card :=
  match checkDir s with
  | (badDir, s) =>
    match checkFat s with
    | (badFat, s) =>
      if badDir+badFat ≤ 2 ∧ s.currDir ≠ 0 ∧ s.currFat ≠ 0 then (errorReady, s)
        else (errorBroken, s)

def reread (flash : Bytes) (s : Card) : Card :=
  { s with
    work := fun k => if k < sysArea then blit flash (k*s.geo.sector) 0 8192 (s.work k)
      else s.work k,
    currDir := 0, currFat := 0 }

variable {k : ℕ} {good : Bytes → Bool} {updated : Bytes → ℕ} {work : ℕ → Bytes}

def newest (good : Bytes → Bool) (updated : Bytes → ℕ) (a b : Bytes) : Bytes :=
  if good a && good b then if updated a < updated b then b else a
  else if good b then b else a

def badCopies (good : Bytes → Bool) (a b : Bytes) : ℕ := (!good a).toNat+(!good b).toNat

structure Checked (k l : ℕ) (good : Bytes → Bool) (updated : Bytes → ℕ) (work : ℕ → Bytes)
    (r : ℕ × ℕ × (ℕ → Bytes)) : Prop where
  chosen : r.2.1 = k ∨ r.2.1 = l
  current : r.2.2 r.2.1 = newest good updated (work k) (work l)
  bad : r.1 = badCopies good (work k) (work l)
  frame : ∀ j, j ≠ k → j ≠ l → r.2.2 j = work j

theorem checkCopies_checked {l : ℕ} {r : ℕ × ℕ × (ℕ → Bytes)} (hl : k+1 = l)
    (hr : checkCopies k good updated 0 work = r) : Checked k l good updated work r := by
  subst hl hr
  have hchosen : (checkCopies k good updated 0 work).2.1 = k ∨
      (checkCopies k good updated 0 work).2.1 = k+1 := by
    simp only [checkCopies, beq_self_eq_true, Bool.or_true, if_true]
    split
    · split
      · exact .inl rfl
      · exact .inr rfl
    · split
      · exact .inr rfl
      · exact .inl rfl
  refine ⟨hchosen,?_,by simp [checkCopies, badCopies],fun j h0 h1 => ?_⟩
  · by_cases hu : updated (work k) < updated (work (k+1)) <;>
    cases h0 : good (work k) <;> cases h1 : good (work (k+1)) <;>
    simp [checkCopies, newest, h0, h1, hu]
  · simp only [checkCopies, beq_self_eq_true, Bool.or_true, if_true] at hchosen ⊢
    rw [Function.update_of_ne]
    intro he
    obtain h | h := hchosen
    · exact h0 (he.trans h)
    · exact h1 (he.trans h)

/-! The definitions are opened as functions here: the kernel would otherwise
work out the checksums of blocks that are not known. -/

variable {s : Card} {r : ℕ × ℕ × (ℕ → Bytes)}

theorem checkDir_eq (hr : checkCopies 1 dirGood dirUpdated s.currDir s.work = r) :
    checkDir s = (r.1,{ s with currDir := r.2.1, work := r.2.2 }) := by
  have h : checkDir = fun s =>
      match checkCopies 1 dirGood dirUpdated s.currDir s.work with
      | (bad, curr, work) => (bad, { s with currDir := curr, work := work }) := rfl
  have h' : checkDir s =
      match checkCopies 1 dirGood dirUpdated s.currDir s.work with
      | (bad, curr, work) => (bad, { s with currDir := curr, work := work }) := congrFun h s
  rw [h', hr]

theorem checkFat_eq (hr : checkCopies 3 (fatGood s.geo.blocks) fatUpdated s.currFat s.work = r) :
    checkFat s = (r.1,{ s with currFat := r.2.1, work := r.2.2 }) := by
  have h : checkFat = fun s =>
      match checkCopies 3 (fatGood s.geo.blocks) fatUpdated s.currFat s.work with
      | (bad, curr, work) => (bad, { s with currFat := curr, work := work }) := rfl
  have h' : checkFat s =
      match checkCopies 3 (fatGood s.geo.blocks) fatUpdated s.currFat s.work with
      | (bad, curr, work) => (bad, { s with currFat := curr, work := work }) := congrFun h s
  rw [h', hr]

variable {q : ℕ × ℕ × (ℕ → Bytes)}

theorem verify_eq (hr : checkCopies 1 dirGood dirUpdated s.currDir s.work = r)
    (hq : checkCopies 3 (fatGood s.geo.blocks) fatUpdated s.currFat r.2.2 = q) :
    verify s = (if r.1+q.1 ≤ 2 ∧ r.2.1 ≠ 0 ∧ q.2.1 ≠ 0 then errorReady else errorBroken,
      { s with currDir := r.2.1, currFat := q.2.1, work := q.2.2 }) := by
  have h : verify = fun s =>
      match checkDir s with
      | (badDir, s) =>
        match checkFat s with
        | (badFat, s) =>
          if badDir+badFat ≤ 2 ∧ s.currDir ≠ 0 ∧ s.currFat ≠ 0 then (errorReady, s)
          else (errorBroken, s) := rfl
  have hgen : ∀ (f g : Card → ℕ × Card) (x y : ℕ) (u v : Card), f s = (x,u) → g u = (y,v) →
      (match f s with
      | (badDir, s) =>
        match g s with
        | (badFat, s) =>
          if badDir+badFat ≤ 2 ∧ s.currDir ≠ 0 ∧ s.currFat ≠ 0 then (errorReady, s)
          else (errorBroken, s)) =
        (if x+y ≤ 2 ∧ v.currDir ≠ 0 ∧ v.currFat ≠ 0 then errorReady else errorBroken,v) := by
    intro f g x y u v hf hg
    simp only [hf, hg]
    split <;> rfl
  have hg : checkFat { s with currDir := r.2.1, work := r.2.2 } =
      (q.1,{ s with currDir := r.2.1, currFat := q.2.1, work := q.2.2 }) := checkFat_eq hq
  exact (congrFun h s).trans (hgen checkDir checkFat _ _ _ _ (checkDir_eq hr) hg)

theorem verify_checked (hr : checkCopies 1 dirGood dirUpdated s.currDir s.work = r)
    (hq : checkCopies 3 (fatGood s.geo.blocks) fatUpdated s.currFat r.2.2 = q) :
    dir (verify s).2 = q.2.2 r.2.1 ∧ fat (verify s).2 = q.2.2 q.2.1 ∧
      ((verify s).1 = errorReady ↔ r.1+q.1 ≤ 2 ∧ r.2.1 ≠ 0 ∧ q.2.1 ≠ 0) := by
  generalize hv : verify s = v
  rw [verify_eq hr hq] at hv
  subst hv
  refine ⟨rfl,rfl,?_⟩
  by_cases h : r.1+q.1 ≤ 2 ∧ r.2.1 ≠ 0 ∧ q.2.1 ≠ 0
  · rw [if_pos h]
    exact ⟨fun _ => h,fun _ => rfl⟩
  · rw [if_neg h]
    exact ⟨fun he => absurd he (show errorBroken ≠ errorReady by decide),fun he => absurd he h⟩

theorem verify_tables (hd : s.currDir = 0) (hf : s.currFat = 0) :
    dir (verify s).2 = newest dirGood dirUpdated (s.work 1) (s.work 2) ∧
      fat (verify s).2 = newest (fatGood s.geo.blocks) fatUpdated (s.work 3) (s.work 4) ∧
      ((verify s).1 = errorReady ↔ badCopies dirGood (s.work 1) (s.work 2)+
        badCopies (fatGood s.geo.blocks) (s.work 3) (s.work 4) ≤ 2) := by
  generalize hr : checkCopies 1 dirGood dirUpdated 0 s.work = r
  generalize hq : checkCopies 3 (fatGood s.geo.blocks) fatUpdated 0 r.2.2 = q
  obtain ⟨hc,hn,hb,hk⟩ := checkCopies_checked (l := 2) rfl hr
  obtain ⟨hc',hn',hb',hk'⟩ := checkCopies_checked (l := 4) rfl hq
  rw [hk 3 (by decide) (by decide), hk 4 (by decide) (by decide)] at hn' hb'
  obtain ⟨h1,h2,h3⟩ := verify_checked (hd ▸ hr) (hf ▸ hq)
  rw [h1, h2, h3, hk' _ (by omega) (by omega), hn, hn', ← hb, ← hb']
  exact ⟨rfl,rfl,fun h => h.1,fun h => ⟨h,by omega,by omega⟩⟩

end Libogc.CardVerify
