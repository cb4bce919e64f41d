import Libogc.Card.FatLoops

/-!
# Consistent directory and allocation table

Each used entry has a chain of its own, the chains hold all blocks that are
not free, and the number of free blocks is right. What creating and deleting
a file change keeps this.
-/

set_option autoImplicit false

namespace Libogc.CardTables
open Function ByteStore CardLayout CardCallbacks CardFatLoops LinkedChain List

variable {g : Geometry} {d d' f f' : Bytes} {c : ℕ → List ℕ}

def isFile (d : Bytes) (i : ℕ) : Prop := i < maxFiles ∧ used d i = true

structure Owned (g : Geometry) (d f : Bytes) (c : ℕ → List ℕ) : Prop where
  chain : ∀ i, isFile d i → Chain (fatNext f) (some (entryBlock d i)) (c i)
  length : ∀ i, isFile d i → (c i).length = entryLength d i
  nodup : ∀ i, isFile d i → (c i).Nodup
  area : ∀ i, isFile d i → ∀ k ∈ c i, inArea g.blocks k
  apart : ∀ i j, isFile d i → isFile d j → i ≠ j → List.Disjoint (c i) (c j)
  owner : ∀ k, inArea g.blocks k → fatWord f k ≠ 0 → ∃ i, isFile d i ∧ k ∈ c i

structure Consistent (g : Geometry) (d f : Bytes) : Prop where
  owned : ∃ c, Owned g d f c
  free : freeBlocks f = zeroWords g.blocks f

theorem chain_word {o : Option ℕ} {l : List ℕ} (h : Chain (fatNext f) o l)
    (hl : ∀ k ∈ l, inArea g.blocks k) {k : ℕ} (hk : k ∈ l) : fatWord f k ≠ 0 := by
  have h5 : sysArea = 5 := rfl
  induction h with
  | nil => exact absurd hk (by simp)
  | @cons a l h ih =>
    have hl' : ∀ j ∈ l, inArea g.blocks j := fun j hj => hl j (mem_cons_of_mem a hj)
    obtain rfl | hk := mem_cons.mp hk
    · intro h0
      have hf := h.first_eq
      rw [fatNext, h0] at hf
      have hm : 0 ∈ l := mem_of_mem_head? hf.symm
      have := (hl' 0 hm).1
      omega
    · exact ih hl' hk

theorem Owned.create (h : Owned g d f c) {i a : ℕ} {l : List ℕ} (hi : i < maxFiles)
    (hu : used d i = false) (hu' : used d' i = true) (hb : entryBlock d' i = a)
    (hl : entryLength d' i = (a::l).length)
    (hd : ∀ j < maxFiles, j ≠ i → used d' j = used d j ∧ entryBlock d' j = entryBlock d j ∧
      entryLength d' j = entryLength d j)
    (hn : (a::l).Nodup) (ha : ∀ k ∈ a::l, inArea g.blocks k) (hz : ∀ k ∈ a::l, fatWord f k = 0)
    (hc : Chain (fatNext f') (some a) (a::l))
    (hf : ∀ k, inArea g.blocks k → k ∉ a::l → fatWord f' k = fatWord f k) :
    Owned g d' f' (update c i (a::l)) := by
  have old : ∀ j, isFile d' j → j ≠ i → isFile d j :=
    fun j hj hji => ⟨hj.1,(hd j hj.1 hji).1 ▸ hj.2⟩
  -- the blocks of the new chain were free, so no other chain has one of them
  have fresh : ∀ j, isFile d j → Disjoint (c j) (a::l) := by
    intro j hj k hk hk'
    exact chain_word (h.chain j hj) (h.area j hj) hk (hz k hk')
  refine ⟨?_,?_,?_,?_,?_,?_⟩
  · intro j hj
    by_cases hji : j = i
    · subst hji
      rw [update_self, hb]
      exact hc
    · rw [update_of_ne hji, (hd j hj.1 hji).2.1]
      refine (h.chain j (old j hj hji)).congr ?_
      intro k hk
      rw [fatNext, fatNext, hf k (h.area j (old j hj hji) k hk) (fresh j (old j hj hji) hk)]
  · intro j hj
    by_cases hji : j = i
    · subst hji
      rw [update_self, hl]
    · rw [update_of_ne hji, (hd j hj.1 hji).2.2]
      exact h.length j (old j hj hji)
  · intro j hj
    by_cases hji : j = i
    · rw [hji, update_self]
      exact hn
    · rw [update_of_ne hji]
      exact h.nodup j (old j hj hji)
  · intro j hj
    by_cases hji : j = i
    · rw [hji, update_self]
      exact ha
    · rw [update_of_ne hji]
      exact h.area j (old j hj hji)
  · intro j m hj hm hjm
    by_cases hji : j = i
    · have hmi : m ≠ i := fun he => hjm (hji.trans he.symm)
      rw [hji, update_self, update_of_ne hmi]
      exact fun k hk hk' => fresh m (old m hm hmi) hk' hk
    · rw [update_of_ne hji]
      by_cases hmi : m = i
      · rw [hmi, update_self]
        exact fresh j (old j hj hji)
      · rw [update_of_ne hmi]
        exact h.apart j m (old j hj hji) (old m hm hmi) hjm
  · intro k hk hw
    by_cases hkl : k ∈ a::l
    · exact ⟨i,⟨hi,hu'⟩,by rw [update_self]; exact hkl⟩
    · rw [hf k hk hkl] at hw
      obtain ⟨j,hj,hkj⟩ := h.owner k hk hw
      have hji : j ≠ i := fun he => by simp [he ▸ hj.2] at hu
      exact ⟨j,⟨hj.1,(hd j hj.1 hji).1.symm ▸ hj.2⟩,by rw [update_of_ne hji]; exact hkj⟩

theorem Owned.delete (h : Owned g d f c) {i : ℕ} (hi : isFile d i) (hu' : used d' i = false)
    (hd : ∀ j < maxFiles, j ≠ i → used d' j = used d j ∧ entryBlock d' j = entryBlock d j ∧
      entryLength d' j = entryLength d j)
    (hf : ∀ k, inArea g.blocks k → fatWord f' k = if k ∈ c i then 0 else fatWord f k) :
    Owned g d' f' c := by
  have hne : ∀ j, isFile d' j → j ≠ i := fun j hj he => by simp [← he, hj.2] at hu'
  have old : ∀ j, isFile d' j → isFile d j :=
    fun j hj => ⟨hj.1,(hd j hj.1 (hne j hj)).1 ▸ hj.2⟩
  refine ⟨?_,?_,fun j hj => h.nodup j (old j hj),fun j hj => h.area j (old j hj),
    fun j m hj hm => h.apart j m (old j hj) (old m hm),?_⟩
  · intro j hj
    rw [(hd j hj.1 (hne j hj)).2.1]
    refine (h.chain j (old j hj)).congr ?_
    intro k hk
    have hki : k ∉ c i := h.apart j i (old j hj) hi (hne j hj) hk
    rw [fatNext, fatNext, hf k (h.area j (old j hj) k hk), if_neg hki]
  · intro j hj
    rw [(hd j hj.1 (hne j hj)).2.2]
    exact h.length j (old j hj)
  · intro k hk hw
    rw [hf k hk] at hw
    by_cases hki : k ∈ c i
    · rw [if_pos hki] at hw
      exact absurd rfl hw
    · rw [if_neg hki] at hw
      obtain ⟨j,hj,hkj⟩ := h.owner k hk hw
      have hji : j ≠ i := fun he => hki (he ▸ hkj)
      exact ⟨j,⟨hj.1,(hd j hj.1 hji).1.symm ▸ hj.2⟩,hkj⟩

end Libogc.CardTables
