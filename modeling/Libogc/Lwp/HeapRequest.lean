import Libogc.Lwp.HeapSafety

/-!
# What an allocation gives

The size of a request is rounded up in 32 bits. A request near the end of the
address space wraps around, and a small block is given for it.
-/

set_option autoImplicit false

namespace Libogc.HeapRequest
open GuardedReach Heap HeapLayout HeapAllocate HeapRelease Nat Option
open HeapSafety

/-- NULL and the heap as it was, or a pointer with `size` bytes behind it in
its block. -/
def Served (size : ℕ) (mem : ℕ → ℕ) (r : ℕ × (ℕ → ℕ)) : Prop :=
  (r.1 = 0 ∧ r.2 = mem) ∨
    (r.1 ≠ 0 ∧ r.1+size ≤ lwpHeapUsrblockat r.2 r.1+
      lwpHeapBlocksize r.2 (lwpHeapUsrblockat r.2 r.1))

def wrapped (size pgSize : ℕ) : ℕ := max 16 (roundedSize size pgSize % 4294967296)

/-- The request is refused, its rounded size does not wrap around, or no free
block is as large as what is left of it. -/
def Representable (pgSize : ℕ) (bs : List Block) (size : ℕ) : Prop :=
  4294967287 ≤ size ∨ roundedSize size pgSize ≤ 4294967295 ∨
    ∀ b ∈ bs, b.isFree = true → b.size < wrapped size pgSize

section Sizes

variable (c : Setup) {size : ℕ}

theorem roundedSize_le (h : size < 4294967296) :
    roundedSize size c.pgSize ≤ 4294967304+c.pgSize := by
  obtain ⟨m,hm⟩ := pgSize_dvd_space c
  have hdiv := div_add_mod size c.pgSize
  unfold roundedSize heapBlockUsedOverhead
  split
  · omega
  · rw [hm] at h
    have hlt : size/c.pgSize < m := Nat.div_lt_of_lt_mul h
    have hmul : c.pgSize*(size/c.pgSize)+c.pgSize ≤ 4294967296 := by
      calc c.pgSize*(size/c.pgSize)+c.pgSize = c.pgSize*(size/c.pgSize+1) := (mul_succ ..).symm
        _ ≤ c.pgSize*m := mul_le_mul_left _ hlt
        _ = 4294967296 := hm.symm
    omega

theorem dsize_wraps (size : ℕ) : lwpHeapDsize size c.pgSize = wrapped size c.pgSize := by
  unfold lwpHeapDsize wrapped roundedSize heapBlockUsedOverhead sizeofHeapBlock u32
  dsimp only
  generalize size % c.pgSize = excess
  by_cases he : excess = 0
  · rw [if_neg (not_not.mpr he)]
    split <;> omega
  · rw [if_pos he, if_neg he]
    split <;> omega

theorem wrapped_bounds (h : size < 4294967296) (hw : 4294967296 ≤ roundedSize size c.pgSize) :
    wrapped size c.pgSize ≤ c.pgSize+8 ∧ 16 ≤ wrapped size c.pgSize ∧
      wrapped size c.pgSize % 8 = 0 := by
  have hle := roundedSize_le c h
  have haligned := roundedSize_aligned c size
  have hmin := c.pgMin
  unfold wrapped
  omega

theorem wraps_large (hpg : c.pgSize ≤ 1073741824) (hw : 4294967296 ≤ roundedSize size c.pgSize) :
    2*c.pgSize < size := by
  have hmin := c.pgMin
  have hmod := mod_lt size (show 0 < c.pgSize by omega)
  unfold roundedSize heapBlockUsedOverhead at hw
  by_cases hbig : c.pgSize = 1073741824
  · rw [hbig] at hmod hw ⊢
    split at hw <;> omega
  · have hhalf : c.pgSize ≤ 536870912 := by
      obtain ⟨k,hk⟩ := c.pgPow
      rw [hk] at hpg hbig ⊢
      have hk30 : k ≤ 29 := by
        by_contra hgt
        rcases Nat.lt_or_ge 30 k with hlt | hge
        · have hpow := Nat.pow_le_pow_right (n := 2) (by decide) (show 31 ≤ k by omega)
          omega
        · obtain rfl : k = 30 := by omega
          exact hbig rfl
      exact Nat.pow_le_pow_right (by decide) hk30
    split at hw <;> omega

end Sizes

section Served

variable {c : Setup} {s : HeapState} {bs : List Block} {fl : List ℕ} {fuel size : ℕ}

theorem rounded_served (h : Layout c s bs fl) (hfuel : c.size ≤ fuel)
    (hrounded : roundedSize size c.pgSize ≤ 4294967295) :
    ∃ r, lwpHeapAllocate fuel c.theheap size s.mem = some r ∧ Served size s.mem r := by
  obtain ⟨r,bs',fl',hr,hlayout,hcase⟩ := allocate_layout h hfuel hrounded
  refine ⟨r,hr,?_⟩
  rcases hcase with rfl | hne
  · exact .inl ⟨rfl,rfl⟩
  · have hlive : (r.1,size) ∈ addLive r.1 size s.live := by simp [addLive, hne]
    obtain ⟨b,hb,howner⟩ := List.mem_filterMap.mp (hlayout.live.mem_iff.mp hlive)
    have hok := hlayout.blocks b hb
    have hbelow := (hok.owned r.1 size howner).below
    have hblock : lwpHeapUsrblockat r.2 r.1 = b.addr := usrblockat_owned hlayout hb howner
    have hsize : lwpHeapBlocksize r.2 b.addr = b.size :=
      (congrArg withoutUsed hok.front).trans (withoutUsed_tag b hok.sizeAligned)
    refine .inr ⟨hne,?_⟩
    rw [hblock, hsize]
    exact hbelow

theorem allocate_ends (h : Layout c s bs fl) (hfuel : c.size ≤ fuel) (size : ℕ) :
    ∃ r, lwpHeapAllocate fuel c.theheap size s.mem = some r := by
  unfold lwpHeapAllocate
  split
  · exact ⟨_,rfl⟩
  · dsimp only
    rcases @search_finds _ _ _ _ h _ (lwpHeapDsize size (s.mem (pgSizeOf c.theheap))) hfuel with
      ⟨hnone,-⟩ | ⟨xs,b,ys,us,vs,-,-,-,-,hfound⟩
    · rw [hnone]
      exact ⟨_,rfl⟩
    · rw [hfound]
      exact ⟨_,rfl⟩

theorem small_unserved {mem mem1 : ℕ → ℕ} {ptr n off w : ℕ} (hptr : 8 ≤ ptr) (hn : n % 8 = 0)
    (hoff : 8 ≤ off) (hspace : ptr+off ≤ 4294967296) (hfront : mem1 (ptr-4) = n+1)
    (hsmall : n < 8+off+size) (hw : w+4 < 4294967296) (hchanged : mem1 w ≠ mem w) :
    ¬Served size mem (u32 (ptr+off),store (ptr+off-4) off mem1) := by
  rintro (⟨hzero,hsame⟩ | ⟨hne,hle⟩)
  · have hend : ptr+off = 4294967296 := by
      dsimp only at hzero
      unfold u32 at hzero
      omega
    have hword := congrFun hsame w
    dsimp only at hword
    rw [store_ne _ _ (by omega)] at hword
    exact hchanged hword
  · have hlt : ptr+off < 4294967296 := by
      dsimp only at hne
      unfold u32 at hne
      omega
    dsimp only at hle
    have hblock : lwpHeapUsrblockat (store (ptr+off-4) off mem1) (u32 (ptr+off)) = ptr-8 := by
      rw [u32_of_lt hlt]
      unfold lwpHeapUsrblockat lwpHeapBlockat heapBlockUsedOverhead
      rw [show u32 (ptr+off+4294967292) = ptr+off-4 by unfold u32; omega, store_same]
      unfold u32
      omega
    rw [hblock] at hle
    unfold lwpHeapBlocksize frontFlag withoutUsed at hle
    rw [show ptr-8+4 = ptr-4 by omega, store_ne _ _ (by omega), u32_of_lt hlt] at hle
    omega

theorem wraps_unserved (h : Layout c s bs fl) (hfuel : c.size ≤ fuel) (hsize : size < 4294967287)
    (hpg : c.pgSize ≤ 1073741824) (hw : 4294967296 ≤ roundedSize size c.pgSize) {d : Block}
    (hd : d ∈ bs) (hdfree : d.isFree = true) (hdsize : wrapped size c.pgSize ≤ d.size) :
    ∃ r, lwpHeapAllocate fuel c.theheap size s.mem = some r ∧ ¬Served size s.mem r := by
  have hlt : size < 4294967296 := by omega
  obtain ⟨hle,hge,haligned⟩ := wrapped_bounds c hlt hw
  have hlarge := wraps_large c hpg hw
  have hspace := c.final_le
  unfold lwpHeapAllocate
  rw [if_neg (by omega), h.pgWord, dsize_wraps c size]
  generalize wrapped size c.pgSize = dsize at *
  dsimp only
  rcases @search_finds _ _ _ _ h _ dsize hfuel with
    ⟨-,hall⟩ | ⟨xs,b,ys,us,vs,rfl,rfl,hfree,hfits,hfound⟩
  · exact absurd hdsize (Nat.not_le_of_lt (hall d hd hdfree))
  · rw [hfound, map_some, elim_some]
    have hb : b ∈ xs ++ [b] ++ ys := by simp
    have hok := h.blocks b hb
    have haddr := hok.addrAligned
    have hbsize := hok.sizeAligned
    have hbounds := h.bounds hb
    have hfront := front_free hok hfree
    refine ⟨_,rfl,?_⟩
    by_cases hsplit : c.pgSize+8 < b.size-dsize
    · obtain ⟨off,hlow,hhigh,-,hlast,halign⟩ := align_page c (split_pgSize h hfits)
        (show (b.addr+(b.size-dsize)+8) % 8 = 0 by omega) (by omega)
      rw [take_split h hfree haligned hfits hsplit, halign]
      refine small_unserved (w := frontFlag b.addr) (by omega) haligned hlow hlast ?_
        (by omega) (by unfold frontFlag; omega) ?_
      · unfold splitStores frontFlag backFlag
        rw [store_ne _ _ (by omega), show b.addr+(b.size-dsize)+8-4 =
          b.addr+(b.size-dsize)+4 by omega,
          store_same]
      · unfold splitStores frontFlag backFlag
        unfold frontFlag at hfront
        rw [store_ne _ _ (by omega), store_ne _ _ (by omega), store_ne _ _ (by omega), store_same]
        omega
    · obtain ⟨off,hlow,hhigh,-,hlast,halign⟩ := align_page c (whole_pgSize h)
        (show (b.addr+8) % 8 = 0 by omega) (by omega)
      have hnear := h.neighbours
      have hwhole : wholeStores b.addr b.size (us.getLastD c.head)
          (vs.headD c.tail) s.mem (frontFlag b.addr) = b.size+1 := by
        have hnext := (h.link_ne (h.next_link hnear.left_mem) hb).1
        have hprev := (h.link_ne (h.prev_link hnear.right_mem) hb).1
        unfold wholeStores
        rw [store_ne _ _ (Ne.symm hnext), store_ne _ _ (Ne.symm hprev), store_same]
      rw [take_whole h hfree hsplit, halign]
      refine small_unserved (w := frontFlag b.addr) (by omega) hbsize hlow hlast ?_
        (by omega) (by unfold frontFlag; omega) ?_
      · exact hwhole
      · rw [hwhole]
        omega

end Served

/-- A request of any size is served if its rounded size does not wrap around or
no free block is as large as what is left of it, and, unless a page is half of
the address space, only then. -/
theorem request_served (c : Setup) (mem : ℕ → ℕ) {fuel : ℕ} (hfuel : c.size ≤ fuel) {s : HeapState}
    (h : Reach (heapStep fuel c.theheap) (HeapOk c.pgSize) (heapInit c mem) s) {size : ℕ}
    (hsize : size < 4294967296) : ∃ bs fl r, Sound c s bs fl ∧
      lwpHeapAllocate fuel c.theheap size s.mem = some r ∧
      (Representable c.pgSize bs size → Served size s.mem r) ∧
      (c.pgSize ≤ 1073741824 → Served size s.mem r → Representable c.pgSize bs size) := by
  obtain ⟨bs,fl,hlayout⟩ := reach_layout hfuel h
  have hsound := layout_sound hlayout
  by_cases hlarge : 4294967287 ≤ size
  · refine ⟨bs,fl,(0,s.mem),hsound,?_,fun _ => .inl ⟨rfl,rfl⟩,fun _ _ => .inl hlarge⟩
    unfold lwpHeapAllocate
    rw [if_pos hlarge]
  · by_cases hrounded : roundedSize size c.pgSize ≤ 4294967295
    · obtain ⟨r,hr,hserved⟩ := rounded_served hlayout hfuel hrounded
      exact ⟨bs,fl,r,hsound,hr,fun _ => hserved,fun _ _ => .inr (.inl hrounded)⟩
    · by_cases hall : ∀ b ∈ bs, b.isFree = true → b.size < wrapped size c.pgSize
      · refine ⟨bs,fl,(0,s.mem),hsound,?_,fun _ => .inl ⟨rfl,rfl⟩,fun _ _ => .inr (.inr hall)⟩
        unfold lwpHeapAllocate
        rw [if_neg hlarge, hlayout.pgWord, dsize_wraps c size]
        dsimp only
        rcases @search_finds _ _ _ _ hlayout _ (wrapped size c.pgSize) hfuel with
          ⟨hnone,-⟩ | ⟨xs,b,ys,us,vs,rfl,rfl,hfree,hfits,-⟩
        · rw [hnone]
          rfl
        · exact absurd hfits (Nat.not_le_of_lt (hall b (by simp) hfree))
      · have hcond : ¬Representable c.pgSize bs size := by
          rintro (hx | hx | hx)
          · exact hlarge hx
          · exact hrounded hx
          · exact hall hx
        by_cases hpg : c.pgSize ≤ 1073741824
        · simp only [not_forall, Nat.not_lt] at hall
          obtain ⟨d,hd,hfree,hfits⟩ := hall
          obtain ⟨r,hr,hserved⟩ := wraps_unserved hlayout hfuel (by omega) hpg (by omega) hd hfree
            hfits
          exact ⟨bs,fl,r,hsound,hr,fun hx => absurd hx hcond,fun _ hx => absurd hx hserved⟩
        · obtain ⟨r,hr⟩ := allocate_ends hlayout hfuel size
          exact ⟨bs,fl,r,hsound,hr,fun hx => absurd hx hcond,fun hx => absurd hx hpg⟩

theorem request_served_hundred : ∃ s r, Reach (heapStep 1024 0) (HeapOk 32)
    (heapInit smallHeap (fun _ => 0)) s ∧ lwpHeapAllocate 1024 0 100 s.mem = some r ∧
      Served 100 s.mem r := by
  have hrun : (runChecked (heapStep 1024 0) (fun a s => decide (HeapOk 32 a s)) [.allocate 10]
      (heapInit smallHeap (fun _ => 0))).any (fun _ => decide True) = true := by
    decide +kernel
  obtain ⟨s,hreach,-⟩ := run_reaches (fun _ _ => of_decide_eq_true) hrun
  obtain ⟨bs,fl,r,-,hr,hserved,-⟩ :=
    request_served smallHeap _ (Nat.le_refl _) hreach (show 100 < 4294967296 by decide)
  exact ⟨s,r,hreach,hr,hserved (.inr (.inl (by decide)))⟩

/-- A request of almost 4 GB is given a block of 40 bytes. -/
theorem request_wraps : ∃ r, lwpHeapAllocate 1024 0 4294967286
    (heapInit smallHeap (fun _ => 0)).mem = some r ∧ r.1 = 1056 ∧
      lwpHeapUsrblockat r.2 r.1 = 1040 ∧ lwpHeapBlocksize r.2 1040 = 40 := by
  have hrun : (lwpHeapAllocate 1024 0 4294967286 (heapInit smallHeap (fun _ => 0)).mem).any
      (fun r => decide (r.1 = 1056 ∧ lwpHeapUsrblockat r.2 r.1 = 1040 ∧
        lwpHeapBlocksize r.2 1040 = 40)) = true := by
    decide +kernel
  obtain ⟨r,hr,hd⟩ := (any_eq_true _ _).mp hrun
  exact ⟨r,hr,of_decide_eq_true hd⟩

end Libogc.HeapRequest
