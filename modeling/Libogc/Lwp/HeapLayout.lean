import Libogc.Lwp.Heap
import Libogc.Library.DoublyLinked
import Libogc.Library.RangeTiling
import Mathlib.Data.List.Perm.Basic

/-!
# The layout of the heap

The heap as a list of blocks, each free or owned by one allocation, and what
the words of memory are for such a list. The words of a block are those from
its front flag to the back flag behind it, so that the blocks share no word.
-/

set_option autoImplicit false

namespace Libogc.HeapLayout
open List Heap DoublyLinked RangeTiling

/-- The arguments of `__lwp_heap_init`, with the region in the address space and
the control block outside of it. -/
structure Setup where
  theheap : ℕ
  start : ℕ
  size : ℕ
  pgSize : ℕ
  startAligned : start % 8 = 0
  sizeAligned : size % 8 = 0
  room : heapMinSize ≤ size
  inSpace : start+size ≤ 4294967296
  apart : theheap+28 ≤ start ∨ start+size ≤ theheap
  pgPow : pgSize.isPowerOfTwo
  pgMin : 8 ≤ pgSize
  pgInSpace : pgSize < 4294967296

def Setup.final (c : Setup) : ℕ := c.start+c.size-8

structure Block where
  addr : ℕ
  size : ℕ
  owner : Option (ℕ × ℕ)

def Block.isFree (b : Block) : Bool := b.owner.isNone

def Block.tag (b : Block) : ℕ := if b.isFree then b.size else b.size+1

structure Owned (pgSize : ℕ) (mem : ℕ → ℕ) (b : Block) (p n : ℕ) : Prop where
  aligned : pgSize ∣ p
  above : b.addr+16 ≤ p
  below : p+n ≤ b.addr+b.size
  offset : mem (p-4) = p-8-b.addr

structure BlockOk (pgSize : ℕ) (mem : ℕ → ℕ) (b : Block) : Prop where
  addrAligned : b.addr % 8 = 0
  sizeAligned : b.size % 8 = 0
  room : 16 ≤ b.size
  front : mem (frontFlag b.addr) = b.tag
  back : mem (backFlag (b.addr+b.size)) = b.tag
  owned : ∀ p n, b.owner = some (p,n) → Owned pgSize mem b p n

def freeAddrs (bs : List Block) : List ℕ := (bs.filter Block.isFree).map Block.addr

def owners (bs : List Block) : List (ℕ × ℕ) := bs.filterMap Block.owner

def Merged (bs : List Block) : Prop := bs.IsChain (fun b c => b.isFree = false ∨ c.isFree = false)

structure Layout (c : Setup) (s : HeapState) (bs : List Block) (fl : List ℕ) : Prop where
  startWord : s.mem (startOf c.theheap) = c.start
  finalWord : s.mem (finalOf c.theheap) = c.final
  pgWord : s.mem (pgSizeOf c.theheap) = c.pgSize
  firstTag : s.mem (backFlag c.start) = heapDummyFlag
  lastTag : s.mem (frontFlag c.final) = heapDummyFlag
  tiles : Tiles Block.addr Block.size c.start bs c.final
  blocks : ∀ b ∈ bs, BlockOk c.pgSize s.mem b
  merged : Merged bs
  listed : Listed (fun n => s.mem (nextOf n)) (fun n => s.mem (prevOf n)) (lwpHeapHead c.theheap)
    (lwpHeapTail c.theheap) fl
  free : fl.Perm (freeAddrs bs)
  live : s.live.Perm (owners bs)

abbrev Setup.head (c : Setup) : ℕ := lwpHeapHead c.theheap

abbrev Setup.tail (c : Setup) : ℕ := lwpHeapTail c.theheap

/-! Where the words are. -/

variable {us vs : List ℕ} {a : ℕ}

section Words

variable {c : Setup} {s : HeapState} {bs : List Block} {fl : List ℕ}

theorem Setup.final_add (c : Setup) : c.final+8 = c.start+c.size := by
  have := c.room
  unfold heapMinSize heapOverhead at this
  unfold Setup.final
  omega

theorem Setup.final_le (c : Setup) : c.final+8 ≤ 4294967296 := c.final_add.trans_le c.inSpace

def LinkWord (c : Setup) (bs : List Block) (w : ℕ) : Prop :=
  w = firstOf c.theheap ∨ w = permNullOf c.theheap ∨ w = lastOf c.theheap ∨
    ∃ b ∈ bs, b.isFree = true ∧ (w = nextOf b.addr ∨ w = prevOf b.addr)

theorem mem_freeAddrs : a ∈ freeAddrs bs ↔ ∃ b ∈ bs, b.isFree = true ∧ b.addr = a := by
  simp [freeAddrs, and_assoc]

section

variable (h : Layout c s bs fl)
include h

variable {b b' : Block} {w : ℕ}

theorem Layout.bounds (hb : b ∈ bs) :
    c.start ≤ b.addr ∧ b.addr+b.size ≤ c.final := tiles_mem h.tiles hb

theorem Layout.eq_or_apart (hb : b ∈ bs) (hb' : b' ∈ bs) :
    b = b' ∨ b.addr+b.size ≤ b'.addr ∨ b'.addr+b'.size ≤ b.addr := by
  obtain ⟨i,hi,rfl⟩ := getElem_of_mem hb
  obtain ⟨j,hj,rfl⟩ := getElem_of_mem hb'
  have hpair := pairwise_iff_getElem.mp (tiles_pairwise h.tiles)
  rcases Nat.lt_trichotomy i j with hij | rfl | hij
  · exact .inr (.inl (hpair i j hi hj hij))
  · exact .inl rfl
  · exact .inr (.inr (hpair j i hj hi hij))

theorem Layout.addr_inj (hb : b ∈ bs) (hb' : b' ∈ bs) (he : b.addr = b'.addr) : b = b' := by
  have hroom := (h.blocks b hb).room
  have hroom' := (h.blocks b' hb').room
  rcases h.eq_or_apart hb hb' with hsame | hlt | hlt
  · exact hsame
  · omega
  · omega

theorem Layout.nodup : bs.Nodup := by
  refine (tiles_pairwise h.tiles).imp_of_mem ?_
  intro b b' hb _ hle
  rintro rfl
  have := (h.blocks b hb).room
  omega

theorem Layout.fl_nodup : fl.Nodup := by
  refine h.free.nodup_iff.mpr ?_
  refine Nodup.map_on ?_ (h.nodup.filter _)
  intro b hb b' hb' he
  exact h.addr_inj (mem_filter.mp hb).1 (mem_filter.mp hb').1 he

theorem Layout.link_apart (hw : LinkWord c bs w) (hb : b ∈ bs) : w < b.addr+4 ∨ b.addr+b.size < w ∨
      (b.isFree = true ∧ (w = nextOf b.addr ∨ w = prevOf b.addr)) := by
  have hbounds := h.bounds hb
  have hfinal := c.final_add
  have hapart := c.apart
  unfold LinkWord firstOf permNullOf lastOf at hw
  rcases hw with hw | hw | hw | ⟨d,hd,hfree,hw⟩
  · omega
  · omega
  · omega
  · have hdroom := (h.blocks d hd).room
    rcases h.eq_or_apart hd hb with rfl | hlt | hlt
    · exact .inr (.inr ⟨hfree,hw⟩)
    · unfold nextOf prevOf at hw
      omega
    · unfold nextOf prevOf at hw
      omega

theorem Layout.link_ne (hw : LinkWord c bs w)
    (hb : b ∈ bs) : w ≠ frontFlag b.addr ∧ w ≠ backFlag (b.addr+b.size) ∧
      ∀ p n, b.owner = some (p,n) → w ≠ p-4 := by
  have hok := h.blocks b hb
  have hroom := hok.room
  have hside := h.link_apart hw hb
  unfold nextOf prevOf at hside
  refine ⟨by unfold frontFlag; omega,by unfold backFlag; omega,fun p n hp => ?_⟩
  have hused : b.isFree = false := by simp [Block.isFree, hp]
  have := (hok.owned p n hp).above
  have := (hok.owned p n hp).below
  rw [hused] at hside
  simp only [Bool.false_eq_true, false_and, or_false] at hside
  omega

end

variable {mem' : ℕ → ℕ} {n : ℕ}

theorem BlockOk.congr {pgSize : ℕ} {mem : ℕ → ℕ} {b : Block} (h : BlockOk pgSize mem b)
    (hfront : mem' (frontFlag b.addr) = mem (frontFlag b.addr))
    (hback : mem' (backFlag (b.addr+b.size)) = mem (backFlag (b.addr+b.size)))
    (hoffset : ∀ p n, b.owner = some (p,n) → mem' (p-4) = mem (p-4)) : BlockOk pgSize mem' b := by
  refine ⟨h.addrAligned,h.sizeAligned,h.room,hfront.trans h.front,hback.trans h.back,?_⟩
  intro p n hp
  have hown := h.owned p n hp
  exact ⟨hown.aligned,hown.above,hown.below,(hoffset p n hp).trans hown.offset⟩

section

variable (h : Layout c s bs fl)
include h

theorem LinkWord.range {w : ℕ} (hw : LinkWord c bs w) :
    w = c.theheap+8 ∨ w = c.theheap+12 ∨ w = c.theheap+16 ∨
      (c.start+8 ≤ w ∧ w+4 ≤ c.final) := by
  rcases hw with hw | hw | hw | ⟨b,hb,-,hw⟩
  · exact .inl hw
  · exact .inr (.inl hw)
  · exact .inr (.inr (.inl hw))
  · have := h.bounds hb
    have := (h.blocks b hb).room
    unfold nextOf prevOf at hw
    omega

theorem Layout.next_link (hn : n ∈ c.head::fl) : LinkWord c bs (nextOf n) := by
  rcases mem_cons.mp hn with rfl | hn
  · exact .inl rfl
  · obtain ⟨b,hb,hfree,rfl⟩ := mem_freeAddrs.mp (h.free.mem_iff.mp hn)
    exact .inr (.inr (.inr ⟨b,hb,hfree,.inl rfl⟩))

theorem Layout.prev_link (hn : n ∈ fl ++ [c.tail]) : LinkWord c bs (prevOf n) := by
  rcases mem_append.mp hn with hn | hn
  · obtain ⟨b,hb,hfree,rfl⟩ := mem_freeAddrs.mp (h.free.mem_iff.mp hn)
    exact .inr (.inr (.inr ⟨b,hb,hfree,.inr rfl⟩))
  · rw [mem_singleton.mp hn]
    exact .inr (.inr (.inl rfl))

theorem Layout.node (hn : n ∈ fl) : n % 8 = 0 ∧ c.start ≤ n ∧ n+16 ≤ c.final := by
  obtain ⟨b,hb,-,rfl⟩ := mem_freeAddrs.mp (h.free.mem_iff.mp hn)
  have := h.bounds hb
  have := (h.blocks b hb).room
  exact ⟨(h.blocks b hb).addrAligned,by omega,by omega⟩

theorem Layout.next_ne_prev {m : ℕ}
    (hn : n ∈ c.head::fl) (hm : m ∈ fl ++ [c.tail]) :
    nextOf n ≠ prevOf m := by
  have hapart := c.apart
  have hfinal := c.final_add
  unfold nextOf prevOf
  rcases mem_cons.mp hn with rfl | hn
  · rcases mem_append.mp hm with hm | hm
    · have := h.node hm
      unfold Setup.head lwpHeapHead startOf
      omega
    · rw [mem_singleton.mp hm]
      unfold Setup.head Setup.tail lwpHeapHead lwpHeapTail startOf finalOf
      omega
  · have := h.node hn
    rcases mem_append.mp hm with hm | hm
    · have := h.node hm
      omega
    · rw [mem_singleton.mp hm]
      unfold Setup.tail lwpHeapTail finalOf
      omega

theorem Layout.tail_not_listed : c.tail ∉ fl := by
  intro hmem
  have hnode := h.node hmem
  have := c.apart
  have := c.final_add
  unfold Setup.tail lwpHeapTail finalOf at hnode
  omega

theorem Layout.head_not_listed : c.head ∉ fl := by
  intro hmem
  have hnode := h.node hmem
  have := c.apart
  have := c.final_add
  unfold Setup.head lwpHeapHead startOf at hnode
  omega

end

structure Near (c : Setup) (mem : ℕ → ℕ) (fl : List ℕ) (u a v : ℕ) : Prop where
  left_mem : u ∈ lwpHeapHead c.theheap::fl
  right_mem : v ∈ fl ++ [lwpHeapTail c.theheap]
  left_ne : u ≠ a
  right_ne : v ≠ a
  prev : mem (prevOf a) = u
  next : mem (nextOf a) = v

theorem Layout.neighbours (h : Layout c s bs (us ++ a::vs)) :
    Near c s.mem (us ++ a::vs) (us.getLastD c.head) a
      (vs.headD c.tail) := by
  obtain ⟨hprev,hnext⟩ := listed_around h.listed
  have hnd := nodup_middle.mp h.fl_nodup
  have hnot := (nodup_cons.mp hnd).1
  have hu := getLastD_mem c.head us
  have hv := headD_mem vs c.tail
  refine ⟨?_,?_,?_,?_,hprev,hnext⟩
  · rcases mem_cons.mp hu with hu | hu
    · rw [hu]
      exact mem_cons_self ..
    · exact mem_cons_of_mem _ (mem_append_left _ hu)
  · rw [append_assoc]
    exact mem_append_right _ (mem_cons_of_mem _ hv)
  · intro he
    rw [he] at hu
    rcases mem_cons.mp hu with hu | hu
    · exact h.head_not_listed (by simp [← hu])
    · exact hnot (mem_append_left _ hu)
  · intro he
    rw [he] at hv
    rcases mem_append.mp hv with hv | hv
    · exact hnot (mem_append_right _ hv)
    · exact h.tail_not_listed (by simp [← mem_singleton.mp hv])

theorem Layout.free_listed (h : Layout c s bs fl) {b : Block} (hb : b ∈ bs)
    (hfree : b.isFree = true) : b.addr ∈ fl :=
  h.free.mem_iff.mpr (mem_freeAddrs.mpr ⟨b,hb,hfree,rfl⟩)

theorem Layout.next_apart (h : Layout c s bs fl) (hn : n ∈ c.head::fl)
    {b : Block} (hb : b ∈ bs) (hne : n ≠ b.addr) :
    nextOf n < b.addr+4 ∨ b.addr+b.size < nextOf n := by
  rcases h.link_apart (h.next_link hn) hb with hlt | hlt | ⟨hfree,hsame | hsame⟩
  · exact .inl hlt
  · exact .inr hlt
  · exact absurd (Nat.add_right_cancel hsame) hne
  · exact absurd hsame (h.next_ne_prev hn (mem_append_left _ (h.free_listed hb hfree)))

theorem Layout.prev_apart (h : Layout c s bs fl) (hn : n ∈ fl ++ [c.tail])
    {b : Block} (hb : b ∈ bs) (hne : n ≠ b.addr) :
    prevOf n < b.addr+4 ∨ b.addr+b.size < prevOf n := by
  rcases h.link_apart (h.prev_link hn) hb with hlt | hlt | ⟨hfree,hsame | hsame⟩
  · exact .inl hlt
  · exact .inr hlt
  · exact absurd hsame.symm (h.next_ne_prev (mem_cons_of_mem _ (h.free_listed hb hfree)) hn)
  · exact absurd (Nat.add_right_cancel hsame) hne

theorem Layout.relinked {us ks ks' vs : List ℕ} {u v : ℕ} (h : Layout c s bs (us ++ (ks ++ vs)))
    (hu : us.getLastD c.head = u) (hv : vs.headD c.tail = v)
    (hmid : Linked (fun n => mem' (nextOf n)) (fun n => mem' (prevOf n))
      (u::(ks' ++ [v]))) (hkeep : ∀ w, LinkWord c bs w → w ≠ nextOf u → w ≠ prevOf v →
      (∀ k ∈ ks, w ≠ nextOf k ∧ w ≠ prevOf k) → mem' w = s.mem w) :
    Listed (fun n => mem' (nextOf n)) (fun n => mem' (prevOf n)) c.head
      c.tail (us ++ (ks' ++ vs)) := by
  subst hu hv
  have hsub : (us ++ vs).Sublist (us ++ (ks ++ vs)) :=
    Sublist.append (Sublist.refl us) (sublist_append_right ks vs)
  have hnodes : (c.head::(us ++ vs) ++ [c.tail]).Nodup := by
    refine nodup_append.mpr ⟨nodup_cons.mpr ⟨?_,h.fl_nodup.sublist hsub⟩,nodup_singleton _,?_⟩
    · exact fun hmem => h.head_not_listed (hsub.subset hmem)
    · rintro n hn m hm rfl
      rw [mem_singleton.mp hm] at hn
      rcases mem_cons.mp hn with he | hn
      · unfold Setup.head Setup.tail lwpHeapHead lwpHeapTail startOf finalOf at he
        omega
      · exact h.tail_not_listed (hsub.subset hn)
  have hks : ∀ k ∈ ks, k ∈ us ++ (ks ++ vs) ∧ k ∉ us ++ vs := fun k hk =>
    ⟨by simp [hk],disjoint_of_nodup_append ((perm_append_comm_assoc us ks vs).nodup_iff.mp
      h.fl_nodup) hk⟩
  obtain ⟨hus,hvs,hapart⟩ := segment_nodup hnodes
  have hleft := getLastD_mem c.head us
  have hright := headD_mem vs c.tail
  have hnext : ∀ n ∈ c.head::(us ++ vs), n ≠ us.getLastD c.head →
      mem' (nextOf n) = s.mem (nextOf n) := by
    intro n hn hne
    have hmem := (hsub.cons_cons c.head).subset hn
    refine hkeep _ (h.next_link hmem) (fun he => hne (Nat.add_right_cancel he))
      (h.next_ne_prev hmem (Sublist.subset (by simp) hright)) (fun k hk => ⟨fun he => ?_,
        h.next_ne_prev hmem (mem_append_left _ (hks k hk).1)⟩)
    rcases mem_cons.mp hn with rfl | hn
    · exact h.head_not_listed (Nat.add_right_cancel he ▸ (hks k hk).1)
    · exact (hks k hk).2 (Nat.add_right_cancel he ▸ hn)
  have hprev : ∀ n ∈ us ++ vs ++ [c.tail], n ≠ vs.headD c.tail →
      mem' (prevOf n) = s.mem (prevOf n) := by
    intro n hn hne
    have hmem := (hsub.append (Sublist.refl [c.tail])).subset hn
    refine hkeep _ (h.prev_link hmem) (Ne.symm (h.next_ne_prev (Sublist.subset (by simp) hleft)
      hmem)) (fun he => hne (Nat.add_right_cancel he)) (fun k hk =>
        ⟨Ne.symm (h.next_ne_prev (mem_cons_of_mem _ (hks k hk).1) hmem),fun he => ?_⟩)
    rcases mem_append.mp hn with hn | hn
    · exact (hks k hk).2 (Nat.add_right_cancel he ▸ hn)
    · rw [mem_singleton.mp hn] at he
      exact h.tail_not_listed (Nat.add_right_cancel he ▸ (hks k hk).1)
  refine listed_replace h.listed hus hvs hmid ?_ ?_ ?_ ?_
  · exact fun n hn => hnext n (Sublist.subset (by simp) hn)
  · exact fun n hn => hprev n (by simp [hn]) (hapart n (mem_cons_of_mem _ hn) _ hright)
  · exact fun n hn => hnext n (by simp [hn]) (hapart _ hleft n (mem_append_left _ hn)).symm
  · exact fun n hn => hprev n (Sublist.subset (by simp) hn)

theorem Layout.listed_keep (h : Layout c s bs fl)
    (hkeep : ∀ w, LinkWord c bs w → mem' w = s.mem w) :
    Listed (fun n => mem' (nextOf n)) (fun n => mem' (prevOf n)) c.head
      c.tail fl :=
  listed_congr h.listed (fun _ hn => hkeep _ (h.next_link hn))
    (fun _ hn => hkeep _ (h.prev_link hn))

end Words

/-! Lists of blocks in three parts. -/

theorem freeAddrs_append (xs ys : List Block) :
    freeAddrs (xs ++ ys) = freeAddrs xs ++ freeAddrs ys := by
  simp [freeAddrs]

theorem owners_append (xs ys : List Block) : owners (xs ++ ys) = owners xs ++ owners ys := by
  simp [owners]

theorem merged_append {xs ms ys : List Block} (hne : ms ≠ []) : Merged (xs ++ ms ++ ys) ↔
    Merged xs ∧ Merged ms ∧ Merged ys ∧
      (∀ x ∈ xs.getLast?, ∀ m ∈ ms.head?, x.isFree = false ∨ m.isFree = false) ∧
        ∀ m ∈ ms.getLast?, ∀ y ∈ ys.head?, m.isFree = false ∨ y.isFree = false := by
  have hlast : (xs ++ ms).getLast? = ms.getLast? := getLast?_append_of_ne_nil xs hne
  unfold Merged
  rw [isChain_append, isChain_append, hlast]
  tauto

theorem perm_mid {l us vs xs ys : List ℕ} :
    (us ++ (l ++ vs)).Perm (xs ++ l ++ ys) ↔ (us ++ vs).Perm (xs ++ ys) := by
  have hleft : (us ++ (l ++ vs)).Perm (l ++ (us ++ vs)) := perm_append_comm_assoc us l vs
  have hright : (xs ++ l ++ ys).Perm (l ++ (xs ++ ys)) := by
    rw [append_assoc]
    exact perm_append_comm_assoc xs l ys
  constructor
  · exact fun h => (perm_append_left_iff l).mp (hleft.symm.trans (h.trans hright))
  · exact fun h => hleft.trans (((perm_append_left_iff l).mpr h).trans hright.symm)

/-! One range of blocks is replaced. -/

section Replace

variable {c : Setup} {s s' : HeapState} {xs ms ms' ys : List Block} {fl fl' : List ℕ} {a z : ℕ}

section

variable (h : Layout c s (xs ++ ms ++ ys) fl) (hms : Tiles Block.addr Block.size a ms z)
  (hne : ms ≠ [])
include h hms hne

theorem Layout.before_behind :
    (∀ b ∈ xs, b.addr+b.size ≤ a) ∧ (∀ b ∈ ys, z ≤ b.addr) ∧ c.start ≤ a ∧ z ≤ c.final := by
  obtain ⟨n,hxms,hys⟩ := tiles_append.mp h.tiles
  obtain ⟨m,hxs,hmid⟩ := tiles_append.mp hxms
  cases ms with
  | nil => exact absurd rfl hne
  | cons b ms =>
    have hm : m = a := hmid.1.symm.trans hms.1
    subst hm
    have hn : n = z := tiles_unique hmid hms
    subst hn
    exact ⟨fun b hb => (tiles_mem hxs hb).2,fun b hb => (tiles_mem hys hb).1,tiles_le hxs,
      tiles_le hys⟩

theorem Layout.replace (hms' : Tiles Block.addr Block.size a ms' z)
    (hframe : ∀ w, ¬(a+4 ≤ w ∧ w ≤ z) → ¬LinkWord c (xs ++ ms ++ ys) w → s'.mem w = s.mem w)
    (hblocks : ∀ b ∈ ms', BlockOk c.pgSize s'.mem b) (hmerged : Merged (xs ++ ms' ++ ys))
    (hlisted : Listed (fun n => s'.mem (nextOf n)) (fun n => s'.mem (prevOf n))
      c.head c.tail fl')
    (hfree : fl'.Perm (freeAddrs (xs ++ ms' ++ ys)))
    (hlive : s'.live.Perm (owners (xs ++ ms' ++ ys))) : Layout c s' (xs ++ ms' ++ ys) fl' := by
  obtain ⟨hbefore,hbehind,hstart,hfinal⟩ := h.before_behind hms hne
  have hend := c.final_add
  have hapart := c.apart
  have hword : ∀ w, ¬(a+4 ≤ w ∧ w ≤ z) → (w ≠ c.theheap+8 ∧ w ≠ c.theheap+12 ∧
      w ≠ c.theheap+16 ∧ ¬(c.start+8 ≤ w ∧ w+4 ≤ c.final)) → s'.mem w = s.mem w := by
    intro w hout hctl
    apply hframe w hout
    intro hlink
    have := hlink.range h
    omega
  have hkeep : ∀ b ∈ xs ++ ms ++ ys, (b.addr+b.size ≤ a ∨ z ≤ b.addr) →
      BlockOk c.pgSize s'.mem b := by
    intro b hb hside
    have hok := h.blocks b hb
    have hroom := hok.room
    refine hok.congr ?_ ?_ ?_
    · apply hframe
      · unfold frontFlag
        omega
      · exact fun hl => (h.link_ne hl hb).1 rfl
    · apply hframe
      · unfold backFlag
        omega
      · exact fun hl => (h.link_ne hl hb).2.1 rfl
    · intro p n hp
      have := (hok.owned p n hp).above
      have := (hok.owned p n hp).below
      apply hframe
      · omega
      · exact fun hl => (h.link_ne hl hb).2.2 p n hp rfl
  refine ⟨?_,?_,?_,?_,?_,tiles_replace h.tiles hms hne hms',?_,hmerged,hlisted,hfree,hlive⟩
  · rw [hword _ (by unfold startOf; omega) (by unfold startOf; omega)]
    exact h.startWord
  · rw [hword _ (by unfold finalOf; omega) (by unfold finalOf; omega)]
    exact h.finalWord
  · rw [hword _ (by unfold pgSizeOf; omega) (by unfold pgSizeOf; omega)]
    exact h.pgWord
  · rw [hword _ (by unfold backFlag; omega) (by unfold backFlag; omega)]
    exact h.firstTag
  · rw [hword _ (by unfold frontFlag; omega) (by unfold frontFlag; omega)]
    exact h.lastTag
  · intro b hb
    rcases mem_append.mp hb with hb | hb
    · rcases mem_append.mp hb with hb | hb
      · exact hkeep b (by simp [hb]) (.inl (hbefore b hb))
      · exact hblocks b hb
    · exact hkeep b (by simp [hb]) (.inr (hbehind b hb))

end

end Replace

end Libogc.HeapLayout
