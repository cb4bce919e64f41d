import Libogc.Lwp.HeapLayout
import Mathlib.Algebra.Order.Ring.Nat

/-!
# Allocation keeps the layout

The search walks the free list to the first block that is large enough. The
block is split or taken as a whole, and the pointer is moved up to the next
multiple of the page size, with the offset in the word below it.
-/

set_option autoImplicit false

namespace Libogc.HeapAllocate
open List Heap HeapLayout DoublyLinked RangeTiling Nat Option

theorem store_same (a v : ℕ) (mem : ℕ → ℕ) : store a v mem a = v := by simp [store]

theorem store_ne {a w : ℕ} (v : ℕ) (mem : ℕ → ℕ) (h : w ≠ a) : store a v mem w = mem w := by
  simp [store, h]

theorem u32_of_lt {n : ℕ} (h : n < 4294967296) : u32 n = n := mod_eq_of_lt h

theorem buildflag_used {n : ℕ} (h : n % 8 = 0) : lwpHeapBuildflag n heapBlockUsed = n+1 := by
  have hor := two_pow_add_eq_or_of_lt (i := 1) (b := 1) (by decide) (n/2)
  have hn : 2^1*(n/2) = n := by
    omega
  rw [hn] at hor
  exact hor.symm

theorem withoutUsed_tag (b : Block) (h : b.size % 8 = 0) : withoutUsed b.tag = b.size := by
  unfold withoutUsed Block.tag
  split <;> omega

theorem tag_free {b : Block} (h : b.isFree = true) : b.tag = b.size := if_pos h

theorem tag_used {b : Block} (h : b.isFree = false) : b.tag = b.size+1 := by simp [Block.tag, h]

theorem front_free {pgSize : ℕ} {mem : ℕ → ℕ} {b : Block} (h : BlockOk pgSize mem b)
    (hfree : b.isFree = true) : mem (frontFlag b.addr) = b.size := h.front.trans (tag_free hfree)

/-! The search. -/

variable {us vs : List ℕ} {mem : ℕ → ℕ}

theorem search_listed {tail dsize : ℕ} (l : List ℕ) (hnot : tail ∉ l)
    (h : Linked (fun n => mem (nextOf n)) (fun n => mem (prevOf n)) (l ++ [tail])) {fuel : ℕ}
    (hfuel : l.length < fuel) : lwpHeapSearch mem tail dsize fuel (l.headD tail) =
      some (l.find? (fun b => decide (dsize ≤ mem (frontFlag b)))) := by
  induction l generalizing fuel with
  | nil =>
    obtain ⟨fuel,rfl⟩ := Nat.exists_eq_add_of_lt hfuel
    simp [lwpHeapSearch]
  | cons b l ih =>
    obtain ⟨hb,hl⟩ := not_or.mp (fun hmem => hnot (mem_cons.mpr hmem))
    cases fuel with
    | zero => simp at hfuel
    | succ fuel =>
      have hnext : mem (nextOf b) = l.headD tail ∧
          Linked (fun n => mem (nextOf n)) (fun n => mem (prevOf n)) (l ++ [tail]) := by
        rw [cons_append, append_singleton_eq_cons l tail] at h
        rw [append_singleton_eq_cons l tail]
        obtain ⟨hhead,hrest⟩ := isChain_cons_cons.mp h
        exact ⟨hhead.1,hrest⟩
      rw [headD_cons, lwpHeapSearch, if_neg (Ne.symm hb), find?_cons]
      by_cases hsize : dsize ≤ mem (frontFlag b)
      · rw [if_pos hsize, decide_eq_true hsize]
      · rw [if_neg hsize, decide_eq_false hsize, hnext.1]
        exact ih hl hnext.2 (by simpa using hfuel)

section Search

variable {c : Setup} {s : HeapState} {bs : List Block} {fl : List ℕ}

theorem listed_length (h : Layout c s bs fl) : fl.length < c.size := by
  have hlen : fl.length ≤ bs.length := by
    rw [h.free.length_eq, freeAddrs, length_map]
    exact length_filter_le _ _
  have hroom := tiles_length h.tiles (fun b hb => (h.blocks b hb).room)
  have := c.final_add
  omega

theorem search_finds (h : Layout c s bs fl) {fuel dsize : ℕ} (hfuel : c.size ≤ fuel) :
    (lwpHeapSearch s.mem c.tail dsize fuel (s.mem (firstOf c.theheap)) = some none ∧
      ∀ b ∈ bs, b.isFree = true → b.size < dsize) ∨
      ∃ xs b ys us vs, bs = xs ++ [b] ++ ys ∧ fl = us ++ b.addr::vs ∧ b.isFree = true ∧
        dsize ≤ b.size ∧ lwpHeapSearch s.mem c.tail dsize fuel
          (s.mem (firstOf c.theheap)) = some (some b.addr) := by
  have hlinks := (@listed_split _ _ _ _ _ [] [] fl).mp h.listed
  have hfirst : s.mem (firstOf c.theheap) = fl.headD c.tail :=
    (isChain_cons_cons.mp hlinks.2.1).1.1
  have hlen := listed_length h
  rw [hfirst, search_listed fl (h.tail_not_listed) hlinks.2.2 (by omega)]
  cases hfind : fl.find? (fun b => decide (dsize ≤ s.mem (frontFlag b))) with
  | none =>
    refine .inl ⟨rfl,fun b hb hfree => ?_⟩
    have hsmall := find?_eq_none.mp hfind b.addr (h.free_listed hb hfree)
    rw [front_free (h.blocks b hb) hfree] at hsmall
    simpa using hsmall
  | some a =>
    right
    have hmem := mem_of_find?_eq_some hfind
    have hsize : dsize ≤ s.mem (frontFlag a) := by simpa using find?_some hfind
    obtain ⟨b,hb,hfree,rfl⟩ := mem_freeAddrs.mp (h.free.mem_iff.mp hmem)
    obtain ⟨us,vs,rfl⟩ := append_of_mem hmem
    obtain ⟨xs,ys,rfl⟩ := append_of_mem hb
    rw [front_free (h.blocks b hb) hfree] at hsize
    exact ⟨xs,b,ys,us,vs,by simp,by simp,hfree,hsize,rfl⟩

end Search

/-! Sizes and alignment. -/

section Align

variable (c : Setup)

theorem pgSize_dvd : 8 ∣ c.pgSize := by
  obtain ⟨k,hk⟩ := c.pgPow
  have hmin := c.pgMin
  rw [hk] at hmin ⊢
  have hk3 : 3 ≤ k := by
    by_contra hlt
    have hle := Nat.pow_le_pow_right (n := 2) (by decide) (show k ≤ 2 by omega)
    omega
  exact Nat.pow_dvd_pow 2 hk3

theorem pgSize_le : c.pgSize ≤ 2147483648 := by
  obtain ⟨k,hk⟩ := c.pgPow
  have hlt := c.pgInSpace
  rw [hk] at hlt ⊢
  have hk31 : k ≤ 31 := by
    by_contra hgt
    have hle := Nat.pow_le_pow_right (n := 2) (by decide) (show 32 ≤ k by omega)
    omega
  exact Nat.pow_le_pow_right (by decide) hk31

theorem roundedSize_ge (size : ℕ) : size+c.pgSize+8 ≤ roundedSize size c.pgSize := by
  unfold roundedSize heapBlockUsedOverhead
  omega

theorem roundedSize_aligned (size : ℕ) : roundedSize size c.pgSize % 8 = 0 := by
  have hdvd := pgSize_dvd c
  have hmod := mod_lt size (show 0 < c.pgSize by have := c.pgMin; omega)
  have hdiv := div_add_mod size c.pgSize
  obtain ⟨k,hk⟩ := hdvd
  have hmul : 8 ∣ c.pgSize*(size/c.pgSize) := Dvd.dvd.mul_right ⟨k,hk⟩ _
  unfold roundedSize heapBlockUsedOverhead
  split <;> omega

theorem dsize_eq {size : ℕ} (h : roundedSize size c.pgSize ≤ 4294967295) :
    lwpHeapDsize size c.pgSize = roundedSize size c.pgSize := by
  have hmin := c.pgMin
  have hle := roundedSize_ge c size
  have hdsize : u32 (size+c.pgSize+8) = size+c.pgSize+8 := u32_of_lt (by omega)
  unfold roundedSize heapBlockUsedOverhead at h
  unfold lwpHeapDsize roundedSize heapBlockUsedOverhead sizeofHeapBlock
  dsimp only
  rw [hdsize]
  by_cases hexcess : size % c.pgSize = 0
  · rw [if_neg (not_not.mpr hexcess), if_pos hexcess, if_neg (by omega)]
  · rw [if_neg hexcess] at h
    rw [if_pos hexcess, if_neg hexcess, u32_of_lt (by omega), if_neg (by omega)]

theorem pgSize_dvd_space : c.pgSize ∣ 4294967296 := by
  obtain ⟨k,hk⟩ := c.pgPow
  have hle := pgSize_le c
  rw [hk] at hle ⊢
  have hk31 : k ≤ 32 := by
    by_contra hgt
    have hpow := Nat.pow_le_pow_right (n := 2) (by decide) (show 32 ≤ k by omega)
    omega
  exact Nat.pow_dvd_pow 2 hk31

/-- The pointer is moved up to a page, which may be the end of the address
space. -/
theorem align_page {ptr : ℕ} (hpg : mem (pgSizeOf c.theheap) = c.pgSize) (hptr : ptr % 8 = 0)
    (hspace : ptr < 4294967296) :
    ∃ off, 8 ≤ off ∧ off ≤ c.pgSize ∧ c.pgSize ∣ ptr+off ∧ ptr+off ≤ 4294967296 ∧
      lwpHeapAlign c.theheap ptr mem = (u32 (ptr+off),store (ptr+off-4) off mem) := by
  have hdvd := pgSize_dvd c
  have hmin := c.pgMin
  have hand : ptr &&& (c.pgSize-1) = ptr % c.pgSize := by
    obtain ⟨k,hk⟩ := c.pgPow
    rw [hk]
    exact and_two_pow_sub_one_eq_mod ptr k
  have hmod := mod_lt ptr (show 0 < c.pgSize by omega)
  have hmod8 : ptr % c.pgSize % 8 = 0 := by rw [mod_mod_of_dvd ptr hdvd, hptr]
  have hdiv := div_add_mod ptr c.pgSize
  have hlast : c.pgSize*(ptr/c.pgSize)+c.pgSize ≤ 4294967296 := by
    obtain ⟨m,hm⟩ := pgSize_dvd_space c
    rw [hm] at hspace ⊢
    have hlt : ptr/c.pgSize < m := Nat.div_lt_of_lt_mul hspace
    calc c.pgSize*(ptr/c.pgSize)+c.pgSize = c.pgSize*(ptr/c.pgSize+1) := (mul_succ ..).symm
      _ ≤ c.pgSize*m := mul_le_mul_left _ hlt
  generalize hoff : c.pgSize-ptr % c.pgSize = off at *
  have hsum : ptr+off = c.pgSize*(ptr/c.pgSize)+c.pgSize := by omega
  refine ⟨off,by omega,by omega,?_,by omega,?_⟩
  · rw [hsum]
    exact Nat.dvd_add (Dvd.intro _ rfl) (Nat.dvd_refl _)
  · have hbelow : u32 (u32 (ptr+off)+4294967292) = ptr+off-4 := by
      unfold u32
      omega
    unfold lwpHeapAlign
    dsimp only
    rw [hpg, hand, hoff, hbelow]

theorem align_eq {ptr : ℕ} (hpg : mem (pgSizeOf c.theheap) = c.pgSize) (hptr : ptr % 8 = 0)
    (hspace : ptr+c.pgSize < 4294967296) : ∃ off, 8 ≤ off ∧ off ≤ c.pgSize ∧ c.pgSize ∣ ptr+off ∧
      lwpHeapAlign c.theheap ptr mem = (ptr+off,store (ptr+off-4) off mem) := by
  obtain ⟨off,hlow,hhigh,hpage,-,halign⟩ := align_page c hpg hptr (by omega)
  rw [u32_of_lt (by omega)] at halign
  exact ⟨off,hlow,hhigh,hpage,halign⟩

end Align

/-! What the two ways to take a block store. -/

section Take

variable {c : Setup} {s : HeapState} {xs ys : List Block} {b : Block} {fl : List ℕ} {dsize : ℕ}

def splitStores (a n d : ℕ) (mem : ℕ → ℕ) : ℕ → ℕ :=
  store (backFlag (a+n+d)) (d+1) (store (frontFlag (a+n)) (d+1)
    (store (backFlag (a+n)) n (store (frontFlag a) n mem)))

theorem take_split (h : Layout c s (xs ++ [b] ++ ys) fl) (hfree : b.isFree = true)
    (hd : dsize % 8 = 0) (hle : dsize ≤ b.size) (hsplit : c.pgSize+8 < b.size-dsize) :
    lwpHeapTake c.theheap dsize b.addr s.mem = (b.addr+(b.size-dsize)+8,
      splitStores b.addr (b.size-dsize) dsize s.mem) := by
  have hb : b ∈ xs ++ [b] ++ ys := by simp
  have hok := h.blocks b hb
  have hbounds := h.bounds hb
  have hspace := c.final_le
  have hfront := front_free hok hfree
  have hsize := hok.sizeAligned
  generalize hn : b.size-dsize = n at *
  have hnext : lwpHeapNextblock (store (frontFlag b.addr) n s.mem) b.addr = b.addr+n := by
    unfold lwpHeapNextblock withoutUsed
    rw [store_same, show n/2*2 = n by omega, u32_of_lt (by omega)]
  have htmp : lwpHeapBlockat (b.addr+n) dsize = b.addr+n+dsize := u32_of_lt (by omega)
  unfold lwpHeapTake splitStores heapBlockUsedOverhead
  rw [h.pgWord, hfront, hn, u32_of_lt (by omega), if_pos hsplit]
  dsimp only
  rw [hnext, store_same, htmp, store_same, buildflag_used hd]
  rfl

def wholeStores (a n u v : ℕ) (mem : ℕ → ℕ) : ℕ → ℕ :=
  store (nextOf u) v (store (prevOf v) u
    (store (frontFlag a) (n+1) (store (backFlag (a+n)) (n+1) mem)))

theorem take_whole (h : Layout c s (xs ++ [b] ++ ys) (us ++ b.addr::vs)) (hfree : b.isFree = true)
    (hsplit : ¬c.pgSize+8 < b.size-dsize) : lwpHeapTake c.theheap dsize b.addr s.mem = (b.addr+8,
      wholeStores b.addr b.size (us.getLastD c.head)
        (vs.headD c.tail) s.mem) := by
  have hb : b ∈ xs ++ [b] ++ ys := by simp
  have hok := h.blocks b hb
  have hroom := hok.room
  have hbounds := h.bounds hb
  have hspace := c.final_le
  have hpg := pgSize_le c
  have hfront := front_free hok hfree
  have hfollow : lwpHeapNextblock s.mem b.addr = b.addr+b.size := by
    unfold lwpHeapNextblock
    rw [hok.front, withoutUsed_tag b hok.sizeAligned, u32_of_lt (by omega)]
  have hnear := h.neighbours
  generalize us.getLastD c.head = u at *
  generalize vs.headD c.tail = v at *
  have hapart := h.prev_apart hnear.right_mem hb hnear.right_ne
  have hflags : ∀ w, w = nextOf b.addr ∨ w = prevOf b.addr →
      store (frontFlag b.addr) (b.size+1) (store (backFlag (b.addr+b.size)) (b.size+1) s.mem) w =
        s.mem w := by
    intro w hw
    unfold nextOf prevOf at hw
    rw [store_ne _ _ (by unfold frontFlag; omega), store_ne _ _ (by unfold backFlag; omega)]
  have hlinks : ∀ w, w = nextOf b.addr ∨ w = prevOf b.addr → store (prevOf v) u
      (store (frontFlag b.addr) (b.size+1) (store (backFlag (b.addr+b.size)) (b.size+1) s.mem)) w =
        s.mem w := by
    intro w hw
    rw [store_ne, hflags w hw]
    unfold nextOf prevOf at hw
    omega
  unfold lwpHeapTake wholeStores heapBlockUsedOverhead
  rw [h.pgWord, hfront, u32_of_lt (by omega), if_neg hsplit]
  dsimp only
  rw [hfollow, store_same, buildflag_used hok.sizeAligned, hflags _ (.inl rfl),
    hflags _ (.inr rfl), hnear.next, hnear.prev, hlinks _ (.inl rfl), hlinks _ (.inr rfl),
    hnear.next, hnear.prev]
  rfl

theorem split_pgSize (h : Layout c s (xs ++ [b] ++ ys) fl) (hle : dsize ≤ b.size) :
    splitStores b.addr (b.size-dsize) dsize s.mem (pgSizeOf c.theheap) = c.pgSize := by
  have hbounds := h.bounds (show b ∈ xs ++ [b] ++ ys by simp)
  have hfinal := c.final_add
  have hapart := c.apart
  rw [← h.pgWord]
  unfold splitStores pgSizeOf backFlag frontFlag
  simp (disch := omega) only [store_ne]

theorem whole_pgSize (h : Layout c s (xs ++ [b] ++ ys) (us ++ b.addr::vs)) :
    wholeStores b.addr b.size (us.getLastD c.head)
      (vs.headD c.tail) s.mem (pgSizeOf c.theheap) = c.pgSize := by
  have hnear := h.neighbours
  have hbounds := h.bounds (show b ∈ xs ++ [b] ++ ys by simp)
  have hfinal := c.final_add
  have hapart := c.apart
  have hleft := (h.next_link hnear.left_mem).range h
  have hright := (h.prev_link hnear.right_mem).range h
  rw [← h.pgWord]
  unfold wholeStores pgSizeOf backFlag frontFlag
  simp (disch := omega) only [store_ne]

end Take

/-! The layout after an allocation. -/

/-- The offset that moves the user's part of a block at `a` up to a page, and
the request that the block of `d` bytes has room for. -/
structure Fits (c : Setup) (a d off size : ℕ) : Prop where
  low : 8 ≤ off
  high : off ≤ c.pgSize
  page : c.pgSize ∣ a+8+off
  room : size+c.pgSize+8 ≤ d

section Allocate

variable {c : Setup} {s : HeapState} {xs ys : List Block} {b : Block} {fl : List ℕ}
  {dsize off size : ℕ}

theorem Fits.blockOk {a d : ℕ} (h : Fits c a d off size) (ha : a % 8 = 0) (hd : d % 8 = 0)
    (hfront : mem (frontFlag a) = d+1) (hback : mem (backFlag (a+d)) = d+1)
    (hoff : mem (a+8+off-4) = off) : BlockOk c.pgSize mem ⟨a,d,some (a+8+off,size)⟩ := by
  have hroom := h.room
  have hlow := h.low
  have hhigh := h.high
  refine ⟨ha,hd,by dsimp only; omega,hfront,hback,?_⟩
  intro p n hp
  obtain ⟨rfl,rfl⟩ := Prod.mk.inj (some.inj hp)
  refine ⟨h.page,by dsimp only; omega,by dsimp only; omega,?_⟩
  dsimp only
  omega

theorem taken_live (h : Layout c s (xs ++ [b] ++ ys) fl) (hfree : b.isFree = true)
    {ms : List Block} {o : ℕ × ℕ} (hms : owners ms = [o]) :
    (o::s.live).Perm (owners (xs ++ ms ++ ys)) := by
  have hnone : b.owner = none := isNone_iff_eq_none.mp hfree
  have hlive := h.live
  have hold : owners [b] = [] := by simp [owners, hnone]
  simp only [owners_append] at hlive ⊢
  rw [hold, append_nil] at hlive
  rw [hms, append_assoc]
  exact (Perm.cons _ hlive).trans perm_middle.symm

theorem split_layout (h : Layout c s (xs ++ [b] ++ ys) fl) (hfree : b.isFree = true)
    (hd : dsize % 8 = 0) (hle : dsize ≤ b.size) (hsplit : c.pgSize+8 < b.size-dsize)
    (hfits : Fits c (b.addr+(b.size-dsize)) dsize off size) :
    Layout c ⟨store (b.addr+(b.size-dsize)+8+off-4) off
        (splitStores b.addr (b.size-dsize) dsize s.mem), (b.addr+(b.size-dsize)+8+off,size)::s.live⟩
      (xs ++ [⟨b.addr,b.size-dsize,none⟩,
        ⟨b.addr+(b.size-dsize),dsize,some (b.addr+(b.size-dsize)+8+off,size)⟩] ++ ys) fl := by
  have hb : b ∈ xs ++ [b] ++ ys := by simp
  have hok := h.blocks b hb
  have hsize := hok.sizeAligned
  have haddr := hok.addrAligned
  have hroom := hfits.room
  have hlow := hfits.low
  have hhigh := hfits.high
  have hsum : b.size-dsize+dsize = b.size := by omega
  generalize b.size-dsize = n at *
  generalize hmem : store (b.addr+n+8+off-4) off (splitStores b.addr n dsize s.mem) = mem'
  have hout : ∀ w, w < b.addr+4 ∨ b.addr+b.size < w ∨ w = b.addr+8 ∨ w = b.addr+12 →
      mem' w = s.mem w := by
    intro w hw
    simp (disch := omega) only [← hmem, splitStores, frontFlag, backFlag, store_ne]
  have hfront : mem' (frontFlag b.addr) = n := by
    simp (disch := omega) only [← hmem, splitStores, frontFlag, backFlag, store_ne, store_same]
  have hback : mem' (backFlag (b.addr+n)) = n := by
    simp (disch := omega) only [← hmem, splitStores, frontFlag, backFlag, store_ne, store_same]
  have hfront' : mem' (frontFlag (b.addr+n)) = dsize+1 := by
    simp (disch := omega) only [← hmem, splitStores, frontFlag, backFlag, store_ne, store_same]
  have hback' : mem' (backFlag (b.addr+n+dsize)) = dsize+1 := by
    simp (disch := omega) only [← hmem, splitStores, frontFlag, backFlag, store_ne, store_same]
  have hoff : mem' (b.addr+n+8+off-4) = off := by rw [← hmem, store_same]
  have hmerged := (merged_append (by simp)).mp h.merged
  have hrange : Tiles Block.addr Block.size b.addr [b] (b.addr+b.size) := ⟨rfl,rfl⟩
  refine h.replace hrange (by simp) ⟨rfl,rfl,?_⟩ ?_ ?_ ?_ ?_ ?_ ?_
  · change b.addr+n+dsize = b.addr+b.size
    omega
  · intro w hw _
    exact hout w (by omega)
  · intro d hd'
    rcases mem_cons.mp hd' with rfl | hd'
    · exact ⟨haddr,by dsimp only; omega,by dsimp only; omega,hfront,hback,by simp⟩
    · rw [mem_singleton.mp hd']
      exact hfits.blockOk (by omega) hd hfront' hback' hoff
  · refine (merged_append (by simp)).mpr ⟨hmerged.1,?_,hmerged.2.2.1,?_,?_⟩
    · exact isChain_pair.mpr (.inr rfl)
    · intro x hx m hm
      cases hm
      have := hmerged.2.2.2.1 x hx b rfl
      rw [hfree] at this
      exact .inl (by simpa using this)
    · intro m hm y hy
      cases hm
      exact .inl rfl
  · apply h.listed_keep
    intro w hw
    have hside := h.link_apart hw hb
    unfold nextOf prevOf at hside
    exact hout w (by omega)
  · refine h.free.trans ?_
    simp only [freeAddrs_append]
    have hone : freeAddrs [b] = [b.addr] := by simp [freeAddrs, hfree]
    rw [hone]
    exact Perm.refl _
  · exact taken_live h hfree rfl

theorem whole_layout (h : Layout c s (xs ++ [b] ++ ys) (us ++ b.addr::vs))
    (hfree : b.isFree = true) (hfits : Fits c b.addr b.size off size) :
    Layout c ⟨store (b.addr+8+off-4) off
        (wholeStores b.addr b.size (us.getLastD c.head)
          (vs.headD c.tail) s.mem),(b.addr+8+off,size)::s.live⟩
      (xs ++ [⟨b.addr,b.size,some (b.addr+8+off,size)⟩] ++ ys) (us ++ vs) := by
  have hb : b ∈ xs ++ [b] ++ ys := by simp
  have hok := h.blocks b hb
  have hroom := hfits.room
  have hlow := hfits.low
  have hhigh := hfits.high
  have hnear := h.neighbours
  have hmerged := (merged_append (by simp)).mp h.merged
  generalize hu : us.getLastD c.head = u at *
  generalize hv : vs.headD c.tail = v at *
  generalize hmem : store (b.addr+8+off-4) off (wholeStores b.addr b.size u v s.mem) = mem'
  have hleft := h.next_apart hnear.left_mem hb hnear.left_ne
  have hright := h.prev_apart hnear.right_mem hb hnear.right_ne
  have hcross := h.next_ne_prev hnear.left_mem hnear.right_mem
  have hout : ∀ w, w < b.addr+4 ∨ b.addr+b.size < w → w ≠ nextOf u → w ≠ prevOf v →
      mem' w = s.mem w := by
    intro w hw hwu hwv
    simp (disch := omega) only [← hmem, wholeStores, frontFlag, backFlag, store_ne]
  have hnextU : mem' (nextOf u) = v := by
    simp (disch := omega) only [← hmem, wholeStores, store_ne, store_same]
  have hprevV : mem' (prevOf v) = u := by
    simp (disch := omega) only [← hmem, wholeStores, store_ne, store_same]
  have hfront : mem' (frontFlag b.addr) = b.size+1 := by
    simp (disch := omega) only [← hmem, wholeStores, frontFlag, backFlag, store_ne, store_same]
  have hback : mem' (backFlag (b.addr+b.size)) = b.size+1 := by
    simp (disch := omega) only [← hmem, wholeStores, frontFlag, backFlag, store_ne, store_same]
  have hoff : mem' (b.addr+8+off-4) = off := by rw [← hmem, store_same]
  have hrange : Tiles Block.addr Block.size b.addr [b] (b.addr+b.size) := ⟨rfl,rfl⟩
  refine h.replace hrange (by simp) ⟨rfl,rfl⟩ ?_ ?_ ?_
    (@Layout.relinked c s _ _ us [b.addr] [] vs u v
    h hu hv (isChain_pair.mpr ⟨hnextU,hprevV⟩) ?_) ?_ ?_
  · intro w hw hlink
    apply hout w (by omega)
    · rintro rfl
      exact hlink (h.next_link hnear.left_mem)
    · rintro rfl
      exact hlink (h.prev_link hnear.right_mem)
  · intro d hd
    rw [mem_singleton.mp hd]
    exact hfits.blockOk hok.addrAligned hok.sizeAligned hfront hback hoff
  · refine (merged_append (by simp)).mpr ⟨hmerged.1,.singleton _,hmerged.2.2.1,?_,?_⟩
    · intro x _ m hm
      cases hm
      exact .inr rfl
    · intro m hm y _
      cases hm
      exact .inl rfl
  · intro w hw hwu hwv hk
    have hside := h.link_apart hw hb
    have hown := hk b.addr (mem_singleton_self _)
    exact hout w (by omega) hwu hwv
  · have hfreeAddrs := h.free
    have hold : freeAddrs [b] = [b.addr] := by simp [freeAddrs, hfree]
    have hnew : freeAddrs [⟨b.addr,b.size,some (b.addr+8+off,size)⟩] = [] := rfl
    simp only [freeAddrs_append] at hfreeAddrs ⊢
    rw [hold] at hfreeAddrs
    rw [hnew, append_nil]
    exact (@perm_mid [b.addr] us vs _ _).mp hfreeAddrs
  · exact taken_live h hfree rfl

theorem allocate_layout {bs : List Block} (h : Layout c s bs fl) {fuel : ℕ}
    (hfuel : c.size ≤ fuel) (hrounded : roundedSize size c.pgSize ≤ 4294967295) :
    ∃ r bs' fl', lwpHeapAllocate fuel c.theheap size s.mem = some r ∧
      Layout c ⟨r.2,addLive r.1 size s.live⟩ bs' fl' ∧ (r = (0,s.mem) ∨ r.1 ≠ 0) := by
  have hge := roundedSize_ge c size
  have hd := roundedSize_aligned c size
  have hspace := c.final_le
  unfold lwpHeapAllocate
  rw [if_neg (by omega), h.pgWord, dsize_eq c hrounded]
  generalize roundedSize size c.pgSize = dsize at *
  dsimp only
  rcases @search_finds _ _ _ _ h _ dsize hfuel with
    ⟨hnone,-⟩ | ⟨xs,b,ys,us,vs,rfl,rfl,hfree,hle,hfound⟩
  · rw [hnone]
    exact ⟨(0,s.mem),bs,fl,rfl,h,.inl rfl⟩
  · rw [hfound]
    have hb : b ∈ xs ++ [b] ++ ys := by simp
    have hok := h.blocks b hb
    have haddr := hok.addrAligned
    have hsize := hok.sizeAligned
    have hbounds := h.bounds hb
    have hlive : ∀ off n, addLive (b.addr+n+8+off) size s.live = (b.addr+n+8+off,size)::s.live :=
      fun off n => if_neg (by omega)
    by_cases hsplit : c.pgSize+8 < b.size-dsize
    · obtain ⟨off,hlow,hhigh,hpage,halign⟩ := align_eq c (split_pgSize h hle)
        (show (b.addr+(b.size-dsize)+8) % 8 = 0 by omega) (by omega)
      have hlayout := split_layout h hfree hd hle hsplit ⟨hlow,hhigh,hpage,hge⟩
      rw [← hlive] at hlayout
      refine ⟨(_,_),_,_,?_,hlayout,.inr (by omega)⟩
      rw [map_some, elim_some, take_split h hfree hd hle hsplit, halign]
      rfl
    · obtain ⟨off,hlow,hhigh,hpage,halign⟩ := align_eq c (whole_pgSize h)
        (show (b.addr+8) % 8 = 0 by omega) (by omega)
      have hroom : size+c.pgSize+8 ≤ b.size := by omega
      have hlayout := whole_layout h hfree ⟨hlow,hhigh,hpage,hroom⟩
      rw [← hlive off 0] at hlayout
      refine ⟨(_,_),_,_,?_,hlayout,.inr (by omega)⟩
      rw [map_some, elim_some, take_whole h hfree hsplit, halign]
      rfl

end Allocate

end Libogc.HeapAllocate
