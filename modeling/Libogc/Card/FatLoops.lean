import Mathlib.Data.List.Rotate
import Libogc.Library.LinkedChain
import Libogc.Card.Callbacks

/-!
# The loops over the file allocation table

Allocation goes once round the blocks behind the last allocated one and links
the free ones it needs; release follows a chain and clears its words.
-/

set_option autoImplicit false

namespace Libogc.CardFatLoops
open List ByteStore CardLayout CardCallbacks LinkedChain Nat Option

variable {f : Bytes} {blocks : ℕ} {v n : ℕ}

theorem fatWord_set_same (f : Bytes) (k : ℕ) (h : v < 65536) :
    fatWord (setFatWord k v f) k = v := half_setHalf_same _ h

variable {l : List ℕ} {p : Option ℕ} {c j k o : ℕ}

theorem fatWord_set_ne (f : Bytes) (v : ℕ) (h : j ≠ k) :
    fatWord (setFatWord k v f) j = fatWord f j := half_setHalf_ne v (by omega)

theorem half_setFatWord (f : Bytes) (v : ℕ) (hk : sysArea ≤ k) (ho : o ≤ 8) :
    half (setFatWord k v f) o = half f o := by
  have h5 : sysArea = 5 := rfl
  exact half_setHalf_ne v (by omega)

theorem fatWord_setHalf (f : Bytes) (v : ℕ) (hk : sysArea ≤ k) (ho : o ≤ 8) :
    fatWord (setHalf o v f) k = fatWord f k := by
  have h5 : sysArea = 5 := rfl
  exact half_setHalf_ne v (by omega)

def inArea (blocks k : ℕ) : Prop := sysArea ≤ k ∧ k < blocks

def ahead (blocks : ℕ) : ℕ → ℕ → List ℕ
  | _, 0 => []
  | curr, n+1 => nextBlock blocks curr::ahead blocks (nextBlock blocks curr) n

theorem nextBlock_inArea (h : sysArea < blocks) (k : ℕ) : inArea blocks (nextBlock blocks k) := by
  unfold nextBlock inArea
  dsimp only
  split <;> omega

theorem ahead_length (blocks curr n : ℕ) : (ahead blocks curr n).length = n := by
  induction n generalizing curr with
  | zero => rfl
  | succ n ih => rw [ahead, length_cons, ih]

theorem nextBlock_inside (hk : inArea blocks k) (hb : blocks ≤ 2048) :
    nextBlock blocks k = sysArea+(k-sysArea+1)%(blocks-sysArea) := by
  obtain ⟨h0,h1⟩ := hk
  unfold nextBlock
  by_cases h : k+1 < blocks
  · rw [if_neg (by omega), mod_eq_of_lt (by omega),
      mod_eq_of_lt (by omega)]
    omega
  · rw [if_pos (by omega), show k-sysArea+1 = blocks-sysArea by omega, mod_self]

theorem ahead_getElem {i : ℕ} (hk : inArea blocks k) (hb : blocks ≤ 2048)
    (hi : i < (ahead blocks k n).length) :
    (ahead blocks k n)[i] = sysArea+(k-sysArea+1+i)%(blocks-sysArea) := by
  induction n generalizing k i with
  | zero => exact absurd hi (by simp [ahead])
  | succ n ih =>
    obtain ⟨h0,h1⟩ := hk
    have hn := nextBlock_inside ⟨h0,h1⟩ hb
    cases i with
    | zero => simpa only [ahead, getElem_cons_zero] using hn
    | succ i =>
      have hi' : i < (ahead blocks (nextBlock blocks k) n).length := by
        simpa [ahead] using hi
      simp only [ahead, getElem_cons_succ]
      rw [ih (nextBlock_inArea (by omega) k) hi', hn, Nat.add_sub_cancel_left, Nat.add_assoc,
        mod_add_mod]
      congr 2
      omega

theorem ahead_perm (hb : blocks ≤ 2048) (hs : sysArea < blocks) (curr : ℕ) :
    (ahead blocks curr (blocks-sysArea)).Perm (List.range' sysArea (blocks-sysArea)) := by
  -- after the first step the position is inside the area, wherever it was before
  obtain ⟨n,hn⟩ : ∃ n, blocks-sysArea = n+1 := ⟨blocks-sysArea-1,by omega⟩
  have hc := nextBlock_inArea hs curr
  obtain ⟨h0,h1⟩ := hc
  have hr : ahead blocks curr (blocks-sysArea) =
      (List.range' sysArea (blocks-sysArea)).rotate (nextBlock blocks curr-sysArea) := by
    apply ext_getElem
    · rw [ahead_length, length_rotate, length_range']
    · intro i hi hi'
      rw [getElem_rotate]
      simp only [getElem_range', length_range', Nat.one_mul]
      cases i with
      | zero =>
        simp only [hn, ahead, getElem_cons_zero]
        rw [mod_eq_of_lt (by omega)]
        omega
      | succ i =>
        have hi2 : i < (ahead blocks (nextBlock blocks curr) n).length := by
          simpa [hn, ahead] using hi
        have := ahead_getElem ⟨h0,h1⟩ hb hi2
        simp only [hn, ahead, getElem_cons_succ] at this ⊢
        rw [this]
        congr 2
        omega
  rw [hr]
  exact rotate_perm _ _

/-- Blocks linked behind the last one so far, as the loop does it. -/
def link : Option ℕ → List ℕ → Bytes → Bytes
  | _, [], f => f
  | none, c::l, f => link (some c) l (setFatWord c 65535 f)
  | some p, c::l, f => link (some c) l (setFatWord c 65535 (setFatWord p c f))

def isFree (f : Bytes) (k : ℕ) : Bool := fatWord f k == 0

theorem isFree_set_ne (f : Bytes) (v : ℕ) (h : j ≠ k) :
    isFree (setFatWord k v f) j = isFree f j := by
  rw [isFree, isFree, fatWord_set_ne f v h]

theorem free_of_set {f : Bytes} (hv : v < 65536) (h0 : v ≠ 0)
    (h : fatWord (setFatWord k v f) j = 0) : fatWord f j = 0 := by
  by_cases hj : j = k
  · rw [hj, fatWord_set_same f k hv] at h
    exact absurd h h0
  · rwa [fatWord_set_ne f v hj] at h

theorem countP_set {f : Bytes} (v : ℕ) (h : k ∉ l) :
    l.countP (isFree (setFatWord k v f)) = l.countP (isFree f) := by
  apply countP_congr
  intro j hj
  have hne : j ≠ k := fun he => h (he ▸ hj)
  rw [isFree_set_ne f v hne]

theorem allocLoop_links (hs : sysArea < blocks) (hb : blocks ≤ 2048) (left i curr : ℕ)
    (p : Option ℕ) (block prev : ℕ) (hn : (ahead blocks curr left).Nodup)
    (hp : ∀ k ∈ p, k = prev ∧ k ∉ ahead blocks curr left ∧ block ≠ 65535)
    (hp0 : p = none → block = 65535) (hi : i ≤ (ahead blocks curr left).countP (isFree f)) :
    ∃ l c, l.length = i ∧ l.Sublist (ahead blocks curr left) ∧ (∀ k ∈ l, fatWord f k = 0) ∧
      allocLoop blocks left i curr block prev f =
        (link p l f, some (if p = none then l.headD block else block,c)) := by
  induction left generalizing i curr p block prev f with
  | zero =>
    obtain rfl : i = 0 := le_zero.mp hi
    exact ⟨[],curr,rfl,nil_sublist _,by simp,by cases p <;> simp [allocLoop, link]⟩
  | succ left ih =>
    cases i with
    | zero => exact ⟨[],curr,rfl,nil_sublist _,by simp,by cases p <;> simp [allocLoop, link]⟩
    | succ i =>
      obtain ⟨hc0,hc1⟩ := nextBlock_inArea hs curr
      rw [ahead] at hn hp hi
      rw [ahead, allocLoop]
      generalize nextBlock blocks curr = c at *
      obtain ⟨hcn,hn'⟩ := nodup_cons.mp hn
      have h5 : sysArea = 5 := rfl
      by_cases hz : fatWord f c = 0
      · rw [if_pos hz]
        rw [countP_cons_of_pos (by simpa [isFree] using hz)] at hi
        -- the block is taken, and becomes the last one so far
        have htake : ∀ k ∈ (some c : Option ℕ), k = c ∧ k ∉ ahead blocks c left ∧
            (if p = none then c else block) ≠ 65535 := by
          intro k hk
          obtain rfl : c = k := some.inj hk
          refine ⟨rfl,hcn,?_⟩
          cases p with
          | none => simp only [if_true]; omega
          | some q => exact (hp q rfl).2.2
        cases p with
        | none =>
          obtain rfl := hp0 rfl
          obtain ⟨l,c',hl,hsub,hfree,heq⟩ := ih (f := setFatWord c 65535 f) i c (some c) c c hn'
            htake (by simp) (by rw [countP_set _ hcn]; omega)
          refine ⟨c::l,c',by simp [hl],hsub.cons_cons c,?_,by rw [heq]; rfl⟩
          intro k hk
          obtain rfl | hk := mem_cons.mp hk
          · exact hz
          · exact free_of_set (by decide) (by decide) (hfree k hk)
        | some q =>
          obtain ⟨rfl,hq,hbl⟩ := hp q rfl
          rw [if_pos hbl]
          have hqn : q ∉ ahead blocks c left := fun hm => hq (mem_cons_of_mem _ hm)
          obtain ⟨l,c',hl,hsub,hfree,heq⟩ := ih (f := setFatWord c 65535 (setFatWord q c f)) i c
            (some c) block c hn' htake (by simp) (by rw [countP_set _ hcn, countP_set _ hqn]; omega)
          refine ⟨c::l,c',by simp [hl],hsub.cons_cons c,?_,by rw [heq]; rfl⟩
          intro k hk
          obtain rfl | hk := mem_cons.mp hk
          · exact hz
          · exact free_of_set (by omega) (by omega)
              (free_of_set (by decide) (by decide) (hfree k hk))
      · rw [if_neg hz]
        rw [countP_cons_of_neg (by simpa [isFree] using hz)] at hi
        obtain ⟨l,c',hl,hsub,hfree,heq⟩ := ih (i+1) c p block prev hn'
          (fun k hk => ⟨(hp k hk).1,fun hm => (hp k hk).2.1 (mem_cons_of_mem _ hm),
            (hp k hk).2.2⟩) hp0 hi
        exact ⟨l,c',hl,hsub.cons c,hfree,heq⟩

/-- A link of the table: the last block of a chain holds `0xffff`. -/
def nextOf (v : ℕ) : Option ℕ := if v = 65535 then none else some v

def fatNext (f : Bytes) (k : ℕ) : Option ℕ := nextOf (fatWord f k)

theorem link_frame (hp : k ∉ p) (hl : k ∉ l) : fatWord (link p l f) k = fatWord f k := by
  induction l generalizing p f with
  | nil => cases p <;> rfl
  | cons c l ih =>
    obtain ⟨hc,hl⟩ : k ≠ c ∧ k ∉ l := by simpa using hl
    have hp' : k ∉ some c := fun h => hc (some.inj h).symm
    cases p with
    | none => rw [link, ih hp' hl, fatWord_set_ne f _ hc]
    | some q =>
      have hq : k ≠ q := fun h => hp (h ▸ rfl)
      rw [link, ih hp' hl, fatWord_set_ne _ _ hc, fatWord_set_ne f _ hq]

theorem half_link (ho : o ≤ 8) (hp : ∀ k ∈ p, sysArea ≤ k) (hl : ∀ k ∈ l, sysArea ≤ k) :
    half (link p l f) o = half f o := by
  induction l generalizing p f with
  | nil => cases p <;> rfl
  | cons c l ih =>
    have hc := hl c mem_cons_self
    have hp' : ∀ k ∈ some c, sysArea ≤ k := fun k hk => some.inj hk ▸ hc
    have hl' : ∀ k ∈ l, sysArea ≤ k := fun k hk => hl k (mem_cons_of_mem c hk)
    cases p with
    | none => rw [link, ih hp' hl', half_setFatWord f _ hc ho]
    | some q => rw [link, ih hp' hl', half_setFatWord _ _ hc ho, half_setFatWord f _ (hp q rfl) ho]

theorem link_chain_from {q : ℕ} (hq : fatWord f q = 65535) (hn : (q::l).Nodup)
    (hl : ∀ k ∈ l, k < 65535) : Chain (fatNext (link (some q) l f)) (some q) (q::l) := by
  induction l generalizing q f with
  | nil =>
    refine .cons ?_
    rw [link, fatNext, hq]
    exact .nil
  | cons c l ih =>
    obtain ⟨hqn,hn'⟩ := nodup_cons.mp hn
    obtain ⟨hqc,hql⟩ : q ≠ c ∧ q ∉ l := by simpa using hqn
    have hc := hl c mem_cons_self
    refine .cons ?_
    have hw : fatWord (link (some q) (c::l) f) q = c := by
      rw [link, link_frame (fun h => hqc (some.inj h).symm) hql, fatWord_set_ne _ _ hqc,
        fatWord_set_same f q (by omega)]
    rw [fatNext, hw, nextOf, if_neg (by omega)]
    exact ih (fatWord_set_same _ c (by decide)) hn' (fun k hk => hl k (mem_cons_of_mem c hk))

theorem link_chain (hn : (c::l).Nodup) (hl : ∀ k ∈ l, k < 65535) :
    Chain (fatNext (link none (c::l) f)) (some c) (c::l) :=
  link_chain_from (fatWord_set_same f c (by decide)) hn hl

theorem clearWord_word (f : Bytes) (hj : sysArea ≤ j) :
    fatWord (clearWord k f) j = if j = k then 0 else fatWord f j := by
  rw [clearWord, fatWord_setHalf _ _ hj (by decide)]
  split
  · rename_i h
    rw [h, fatWord_set_same f k (by decide)]
  · rename_i h
    exact fatWord_set_ne f 0 h

theorem clearWord_free (f : Bytes) (hk : sysArea ≤ k) :
    freeBlocks (clearWord k f) = (freeBlocks f+1)%65536 := by
  have h := half_setFatWord f 0 hk (o := 6) (by decide)
  rw [clearWord, freeBlocks, half_setHalf_same 6 (mod_lt _ (by decide)), freeBlocks, h, freeBlocks]

def clearAll : List ℕ → Bytes → Bytes
  | [], f => f
  | k::l, f => clearAll l (clearWord k f)

theorem clearAll_word (hj : sysArea ≤ j) :
    fatWord (clearAll l f) j = if j ∈ l then 0 else fatWord f j := by
  induction l generalizing f with
  | nil => rfl
  | cons k l ih =>
    rw [clearAll, ih, clearWord_word f hj]
    by_cases hl : j ∈ l <;> by_cases hk : j = k <;> simp [hk]

theorem clearAll_free (hl : ∀ k ∈ l, sysArea ≤ k) :
    freeBlocks (clearAll l f) = (freeBlocks f+l.length)%65536 := by
  induction l generalizing f with
  | nil =>
    have h : freeBlocks f < 65536 := half_lt f 6
    rw [clearAll, length_nil, Nat.add_zero, mod_eq_of_lt h]
  | cons k l ih =>
    rw [clearAll, ih (fun j hj => hl j (mem_cons_of_mem k hj)),
      clearWord_free f (hl k mem_cons_self), length_cons, mod_add_mod,
      Nat.add_assoc, Nat.add_comm 1]

theorem freeLoop_clears (h : Chain (fatNext f) (nextOf v) l) (hn : l.Nodup)
    (hl : ∀ k ∈ l, inArea blocks k) (hf : l.length < n) :
    freeLoop blocks n v f = (clearAll l f,true) := by
  induction l generalizing v n f with
  | nil =>
    obtain ⟨n,rfl⟩ : ∃ m, n = m+1 := ⟨n-1,by simp at hf; omega⟩
    have hv : v = 65535 := by
      have := h.first_eq
      unfold nextOf at this
      by_contra hc
      simp [hc] at this
    rw [freeLoop, if_pos hv, clearAll]
  | cons k l ih =>
    obtain ⟨n,rfl⟩ : ∃ m, n = m+1 := ⟨n-1,by simp at hf; omega⟩
    have hv := h.first_eq
    unfold nextOf at hv
    split at hv
    · exact absurd hv (by simp)
    rename_i hne
    obtain rfl : v = k := some.inj hv
    obtain ⟨hk,hn'⟩ := nodup_cons.mp hn
    obtain ⟨h0,h1⟩ := hl v mem_cons_self
    rw [freeLoop, if_neg hne, if_neg (by omega)]
    refine ih ?_ hn' (fun j hj => hl j (mem_cons_of_mem v hj)) (by simpa using hf)
    refine h.tail.congr ?_
    intro j hj
    have hjv : j ≠ v := fun he => hk (he ▸ hj)
    rw [fatNext, fatNext, clearWord_word f (hl j (mem_cons_of_mem v hj)).1, if_neg hjv]

def zeroWords (blocks : ℕ) (f : Bytes) : ℕ :=
  (List.range' sysArea (blocks-sysArea)).countP (isFree f)

theorem countP_flip {p q : ℕ → Bool} (hl : l.Nodup) (hc : c ∈ l) (hp : p c = true)
    (hq : q c = false) (h : ∀ k, k ≠ c → q k = p k) : l.countP q+1 = l.countP p := by
  have hcp := (perm_cons_erase hc).countP_eq p
  have hcq := (perm_cons_erase hc).countP_eq q
  rw [countP_cons_of_pos hp] at hcp
  rw [countP_cons_of_neg (by simp [hq])] at hcq
  have he : (l.erase c).countP q = (l.erase c).countP p := by
    apply countP_congr
    intro k hk
    rw [h k (fun he => (hl.mem_erase_iff.mp hk).1 he)]
  omega

theorem mem_area : k ∈ List.range' sysArea (blocks-sysArea) ↔ inArea blocks k := by
  rw [mem_range'_1, inArea]
  omega

theorem zeroWords_take (hc : inArea blocks c) (hz : fatWord f c = 0) (hv : v < 65536)
    (h0 : v ≠ 0) : zeroWords blocks (setFatWord c v f)+1 = zeroWords blocks f := by
  refine countP_flip nodup_range' (mem_area.mpr hc) (by simp [isFree, hz]) ?_
    (fun k hk => isFree_set_ne f v hk)
  rw [isFree, fatWord_set_same f c hv]
  simpa using h0

theorem zeroWords_relink (hz : fatWord f c ≠ 0) (hv : v < 65536) (h0 : v ≠ 0) :
    zeroWords blocks (setFatWord c v f) = zeroWords blocks f := by
  apply countP_congr
  intro k _
  by_cases hk : k = c
  · rw [hk, isFree, isFree, fatWord_set_same f c hv]
    simp [h0, hz]
  · rw [isFree_set_ne f v hk]

theorem zeroWords_link (hn : l.Nodup) (hl : ∀ k ∈ l, inArea blocks k) (hb : blocks ≤ 2048)
    (hp : ∀ k ∈ p, k ∉ l ∧ fatWord f k ≠ 0) (hz : ∀ k ∈ l, fatWord f k = 0) :
    zeroWords blocks (link p l f)+l.length = zeroWords blocks f := by
  induction l generalizing p f with
  | nil => cases p <;> rfl
  | cons c l ih =>
    obtain ⟨hcl,hn'⟩ := nodup_cons.mp hn
    have h5 : sysArea = 5 := rfl
    have hc := hl c mem_cons_self
    have hc0 := hc.1
    have hc1 := hc.2
    have hzc := hz c mem_cons_self
    have hl' : ∀ k ∈ l, inArea blocks k := fun k hk => hl k (mem_cons_of_mem c hk)
    have hw : ∀ g : Bytes, ∀ k ∈ some c, k ∉ l ∧ fatWord (setFatWord c 65535 g) k ≠ 0 := by
      intro g k hk
      obtain rfl : c = k := some.inj hk
      exact ⟨hcl,by rw [fatWord_set_same g c (by decide)]; decide⟩
    have hne : ∀ k ∈ l, k ≠ c := fun k hk he => hcl (he ▸ hk)
    rw [length_cons]
    cases p with
    | none =>
      have h1 := ih hn' hl' (hw f)
        (fun k hk => by rw [fatWord_set_ne f _ (hne k hk)]; exact hz k (mem_cons_of_mem c hk))
      have h2 := zeroWords_take (v := 65535) hc hzc (by decide) (by decide)
      rw [link]
      omega
    | some q =>
      obtain ⟨hq,hqz⟩ := hp q rfl
      obtain ⟨hqc,hql⟩ : q ≠ c ∧ q ∉ l := by simpa using hq
      have hcq : c ≠ q := fun he => hqc he.symm
      have h1 := ih (f := setFatWord c 65535 (setFatWord q c f)) hn' hl' (hw _) (by
        intro k hk
        have hkq : k ≠ q := fun he => hql (he ▸ hk)
        rw [fatWord_set_ne _ _ (hne k hk), fatWord_set_ne f _ hkq]
        exact hz k (mem_cons_of_mem c hk))
      have h2 := zeroWords_take (f := setFatWord q c f) (v := 65535) hc
        (by rw [fatWord_set_ne f _ hcq, hzc]) (by decide) (by decide)
      have h3 : zeroWords blocks (setFatWord q c f) = _ :=
        zeroWords_relink hqz (by omega) (by omega)
      rw [link]
      omega

theorem zeroWords_setHalf (f : Bytes) (v : ℕ) (ho : o ≤ 8) :
    zeroWords blocks (setHalf o v f) = zeroWords blocks f := by
  apply countP_congr
  intro k hk
  rw [isFree, isFree, fatWord_setHalf f v (mem_area.mp hk).1 ho]

theorem zeroWords_clear (hk : inArea blocks k) (h0 : fatWord f k ≠ 0) :
    zeroWords blocks (clearWord k f) = zeroWords blocks f+1 := by
  rw [clearWord, zeroWords_setHalf _ _ (by decide)]
  refine (countP_flip nodup_range' (mem_area.mpr hk) ?_ (by simpa [isFree] using h0) ?_).symm
  · rw [isFree, fatWord_set_same f k (by decide)]
    rfl
  · exact fun j hj => (isFree_set_ne f 0 hj).symm

theorem zeroWords_clearAll (hn : l.Nodup) (hl : ∀ k ∈ l, inArea blocks k)
    (h0 : ∀ k ∈ l, fatWord f k ≠ 0) :
    zeroWords blocks (clearAll l f) = zeroWords blocks f+l.length := by
  induction l generalizing f with
  | nil => rfl
  | cons k l ih =>
    obtain ⟨hk,hn'⟩ := nodup_cons.mp hn
    rw [clearAll, ih hn' (fun j hj => hl j (mem_cons_of_mem k hj)),
      zeroWords_clear (hl k mem_cons_self) (h0 k mem_cons_self), length_cons]
    · omega
    · intro j hj
      have hjk : j ≠ k := fun he => hk (he ▸ hj)
      rw [clearWord_word f (hl j (mem_cons_of_mem k hj)).1, if_neg hjk]
      exact h0 j (mem_cons_of_mem k hj)

theorem zeroWords_le (blocks : ℕ) (f : Bytes) : zeroWords blocks f ≤ blocks-sysArea :=
  countP_le_length.trans (by rw [length_range'])

end Libogc.CardFatLoops
