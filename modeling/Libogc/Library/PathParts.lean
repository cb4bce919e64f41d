import Mathlib.Data.List.Basic

/-!
# Words between separators

A text is cut at a separator into its words; empty words are dropped, so
repeated, leading and trailing separators make no difference. The last
separator splits a text into what stands before and behind it.
-/

set_option autoImplicit false

namespace Libogc.PathParts
open List

variable {α : Type*} [DecidableEq α] (sep : α)

/-- The words of a text of which `w` has been read already. -/
def parts (w : List α) : List α → List (List α)
  | [] => if w = [] then [] else [w]
  | c::l => if c = sep then (if w = [] then parts [] l else w::parts [] l) else parts (w++[c]) l

def closed : List (List α) → List α
  | [] => []
  | w::ws => w++sep::closed ws

def lastIndex (l : List α) : ℕ → Option ℕ
  | 0 => none
  | n+1 => if l[n]? = some sep then some n else lastIndex l n

def trimFront : List α → List α
  | a::b::l => if a = sep then trimFront (b::l) else a::b::l
  | l => l

def trim (l : List α) : List α := (trimFront sep l.reverse).reverse

variable {sep}

theorem parts_append (w a b : List α) :
    parts sep w (a++sep::b) = parts sep w a++parts sep [] b := by
  induction a generalizing w with
  | nil => by_cases hw : w = [] <;> simp [parts, hw]
  | cons c a ih => by_cases hc : c = sep <;> by_cases hw : w = [] <;> simp [parts, hc, hw, ih]

@[simp] theorem parts_nil : parts sep [] [] = [] := rfl

@[simp] theorem parts_sep (l : List α) : parts sep [] (sep::l) = parts sep [] l := by
  simp [parts]

theorem parts_word (w v : List α) (hv : sep ∉ v) :
    parts sep w v = if w++v = [] then [] else [w++v] := by
  induction v generalizing w with
  | nil => simp [parts]
  | cons c v ih =>
    have hc : c ≠ sep := fun h => hv (by simp [h])
    rw [parts, if_neg hc, ih (w++[c]) (fun h => hv (by simp [h]))]
    simp

theorem parts_single {v : List α} (hv : sep ∉ v) (hn : v ≠ []) : parts sep [] v = [v] := by
  rw [parts_word [] v hv, nil_append, if_neg hn]

theorem parts_takeWhile (w l : List α) (hn : w++l.takeWhile (fun c => decide (c ≠ sep)) ≠ []) :
    parts sep w l = (w++l.takeWhile (fun c => decide (c ≠ sep)))::
      parts sep [] (l.dropWhile (fun c => decide (c ≠ sep))) := by
  induction l generalizing w with
  | nil =>
    have hw : w ≠ [] := by simpa using hn
    simp [parts, hw]
  | cons c l ih =>
    by_cases hc : c = sep
    · have hw : w ≠ [] := by simpa [hc] using hn
      simp [parts, hc, hw]
    · have h := ih (w++[c]) (by simp)
      simp only [parts, h]
      simp [hc]

theorem parts_dropWhile (l : List α) :
    parts sep [] (l.dropWhile (fun c => decide (c = sep))) = parts sep [] l := by
  induction l with
  | nil => rfl
  | cons c l ih =>
    by_cases hc : c = sep
    · simpa [hc] using ih
    · simp [hc]

variable {l : List α}

theorem takeWhile_dropWhile_ne_nil (h : l.dropWhile (fun c => decide (c = sep)) ≠ []) :
    (l.dropWhile (fun c => decide (c = sep))).takeWhile (fun c => decide (c ≠ sep)) ≠ [] := by
  induction l with
  | nil => exact absurd rfl h
  | cons c l ih =>
    by_cases hc : c = sep
    · simpa [hc] using ih (by simpa [hc] using h)
    · simp [hc]

theorem mem_parts {w v : List α} (hw : sep ∉ w) (h : v ∈ parts sep w l) :
    v ≠ [] ∧ sep ∉ v ∧ ∀ c ∈ v, c ∈ w ∨ c ∈ l := by
  induction l generalizing w with
  | nil =>
    by_cases hn : w = []
    · simp [hn] at h
    · obtain rfl : v = w := by simpa [parts, hn] using h
      exact ⟨hn,hw,fun c hc => .inl hc⟩
  | cons a l ih =>
    have hrest : v ∈ parts sep [] l → v ≠ [] ∧ sep ∉ v ∧ ∀ c ∈ v, c ∈ w ∨ c ∈ a::l := by
      intro hv
      obtain ⟨hn,hs,hc⟩ := ih (by simp) hv
      exact ⟨hn,hs,fun c hm => .inr (mem_cons_of_mem _ (by simpa using hc c hm))⟩
    by_cases ha : a = sep
    · by_cases hn : w = []
      · exact hrest (by simpa [ha, hn] using h)
      · rcases mem_cons.mp (by simpa [parts, ha, hn] using h) with rfl | hv
        · exact ⟨hn,hw,fun c hc => .inl hc⟩
        · exact hrest hv
    · have hv : v ∈ parts sep (w++[a]) l := by simpa [parts, ha] using h
      obtain ⟨hn,hs,hc⟩ := ih (by simp [hw, Ne.symm ha]) hv
      refine ⟨hn,hs,fun c hm => ?_⟩
      rcases hc c hm with h' | h'
      · rcases mem_append.mp h' with h' | h'
        · exact .inl h'
        · exact .inr (by simp [mem_singleton.mp h'])
      · exact .inr (mem_cons_of_mem _ h')

theorem parts_closed (ws : List (List α)) (l : List α) (h : ∀ w ∈ ws, w ≠ [] ∧ sep ∉ w) :
    parts sep [] (closed sep ws++l) = ws++parts sep [] l := by
  induction ws with
  | nil => rfl
  | cons w ws ih =>
    obtain ⟨hn,hs⟩ := h w (by simp)
    rw [closed, append_assoc, cons_append, parts_append, parts_single hs hn,
      ih (fun v hv => h v (by simp [hv]))]
    rfl

theorem lastIndex_none (h : sep ∉ l) (n : ℕ) : lastIndex sep l n = none := by
  induction n with
  | zero => rfl
  | succ n ih =>
    have hn : l[n]? ≠ some sep := fun hn => h (mem_of_getElem? hn)
    rw [lastIndex, if_neg hn, ih]

theorem lastIndex_append {a b : List α} (hb : sep ∉ b) :
    lastIndex sep (a++sep::b) (a++sep::b).length = some a.length := by
  have h : ∀ k, lastIndex sep (a++sep::b) (a.length+1+k) = some a.length := by
    intro k
    induction k with
    | zero => simp [lastIndex]
    | succ k ih =>
      have hk : (a++sep::b)[a.length+1+k]? ≠ some sep := by
        rw [getElem?_append_right (by omega), show a.length+1+k-a.length = k+1 by omega]
        exact fun hk => hb (mem_of_getElem? hk)
      rw [← Nat.add_assoc, lastIndex, if_neg hk, ih]
  simpa [Nat.add_assoc, Nat.add_comm 1] using h b.length

omit [DecidableEq α] in
theorem exists_last (h : sep ∈ l) : ∃ a b, l = a++sep::b ∧ sep ∉ b := by
  obtain ⟨a,b,hl,ha⟩ := eq_append_cons_of_mem (mem_reverse.mpr h)
  refine ⟨b.reverse,a.reverse,?_,by simpa using ha⟩
  rw [← reverse_reverse l, hl]
  simp

theorem parts_trim (l : List α) : parts sep [] (trim sep l) = parts sep [] l := by
  have h : ∀ r : List α, parts sep [] (trimFront sep r).reverse = parts sep [] r.reverse := by
    intro r
    induction r using trimFront.induct sep with
    | case1 b l ih =>
      have hr : (sep::b::l).reverse = (b::l).reverse++sep::[] := by simp
      rw [trimFront, if_pos rfl, ih, hr, parts_append, parts_nil, append_nil]
    | case2 a b l ha => rw [trimFront, if_neg ha]
    | case3 l hl => rw [trimFront.eq_2 _ _ hl]
  simpa [trim] using h l.reverse

theorem trimFront_append {r y : List α} {a b : α} (h : trimFront sep r = a::b::l) :
    trimFront sep (r++y) = a::b::l++y := by
  induction r using trimFront.induct sep with
  | case1 b l ih =>
    rw [trimFront, if_pos rfl] at h
    simpa [trimFront] using ih h
  | case2 c b l hc =>
    rw [← h]
    simp [trimFront, hc]
  | case3 r hr =>
    rw [trimFront.eq_2 _ _ hr] at h
    exact absurd h (hr a b l)

theorem trim_append {x : List α} (h : 2 ≤ (trim sep l).length) :
    trim sep (x++l) = x++trim sep l := by
  cases hr : trimFront sep l.reverse with
  | nil => simp [trim, hr] at h
  | cons a r =>
    cases r with
    | nil => simp [trim, hr] at h
    | cons b r =>
      have hx := trimFront_append (y := x.reverse) hr
      simp [trim, hx, hr]

theorem trim_of_last {c : α} (hc : c ≠ sep) : trim sep (l++[c]) = l++[c] := by
  cases hl : l.reverse with
  | nil => simp [reverse_eq_nil_iff.mp hl, trim, trimFront]
  | cons a r => simp [trim, hl, trimFront, hc, ← reverse_eq_iff.mp hl]

theorem trim_head (sep : α) (l : List α) : (trim sep l).head? = l.head? := by
  have h : ∀ r : List α, (trimFront sep r).getLast? = r.getLast? := by
    intro r
    induction r using trimFront.induct sep with
    | case1 b l ih => rw [trimFront, if_pos rfl, ih, getLast?_cons_cons]
    | case2 a b l ha => rw [trimFront, if_neg ha]
    | case3 l hl => rw [trimFront.eq_2 _ _ hl]
  simpa [trim] using h l.reverse

theorem parts_eq_nil : parts sep [] l = [] ↔ ∀ c ∈ l, c = sep := by
  induction l with
  | nil => simp
  | cons c l ih =>
    by_cases hc : c = sep
    · simp [hc, ih]
    · have hn : parts sep [] (c::l) ≠ [] := by
        rw [parts_takeWhile [] (c::l) (by simp [hc])]
        simp
      simp [hn, hc]

omit [DecidableEq α] in
theorem closed_ne_nil (sep : α) {ws : List (List α)} (h : ws ≠ []) :
    ∃ l, closed sep ws = l++[sep] := by
  induction ws with
  | nil => exact absurd rfl h
  | cons w ws ih =>
    cases ws with
    | nil => exact ⟨w,rfl⟩
    | cons v ws =>
      obtain ⟨l,hl⟩ := ih (by simp)
      exact ⟨w++sep::l,by rw [closed, hl]; simp⟩

end Libogc.PathParts
