import Libogc.Lwp.HeapRelease

/-!
# The heap over whole runs

From `__lwp_heap_init` on, every run of allocations, releases of live pointers
and stores of the users to what they were given keeps a layout.
-/

set_option autoImplicit false

namespace Libogc.HeapSafety
open List GuardedReach Heap HeapLayout HeapAllocate HeapRelease
open DoublyLinked RangeTiling

def heapInit (c : Setup) (mem : ℕ → ℕ) : HeapState :=
  ⟨(lwpHeapInit c.theheap c.start c.size c.pgSize mem).2,[]⟩

section Steps

variable {c : Setup} {s s' : HeapState} {bs : List Block} {fl : List ℕ}

theorem init_layout (c : Setup) (mem : ℕ → ℕ) :
    Layout c (heapInit c mem) [⟨c.start,c.size-8,none⟩] [c.start] := by
  have hroom := c.room
  have hstart := c.startAligned
  have hsize := c.sizeAligned
  have hspace := c.inSpace
  have hapart := c.apart
  have hfinal := c.final_add
  have hpg : c.pgSize % 8 = 0 := Nat.mod_eq_zero_of_dvd (pgSize_dvd c)
  have hmin := c.pgMin
  unfold heapMinSize heapOverhead sizeofHeapBlock at hroom
  have hvalid : (!lwpHeapPgsizeValid c.pgSize || decide (c.size < heapMinSize)) = false := by
    unfold lwpHeapPgsizeValid heapMinSize heapOverhead sizeofHeapBlock
    rw [decide_eq_true (by omega), decide_eq_true hpg, decide_eq_false (by omega)]
    rfl
  have hnext : ∀ mem : ℕ → ℕ, mem (c.start+4) = c.size-8 →
      lwpHeapNextblock mem c.start = c.final := by
    intro mem hmem
    unfold lwpHeapNextblock withoutUsed frontFlag
    rw [u32_of_lt (by omega)]
    omega
  have hmem : (heapInit c mem).mem = store (c.theheap+4) c.final (store (c.final+4) 1
      (store c.final (c.size-8) (store (c.theheap+16) c.start (store (c.theheap+12) 0
        (store (c.theheap+8) c.start (store c.theheap c.start (store (c.start+12) c.theheap
          (store (c.start+8) (c.theheap+4) (store (c.start+4) (c.size-8) (store c.start 1
            (store (c.theheap+20) c.pgSize mem))))))))))) := by
    unfold heapInit lwpHeapInit
    rw [hvalid]
    dsimp only [if_false]
    rw [hnext]
    · rfl
    · unfold heapOverhead backFlag frontFlag nextOf prevOf lastOf permNullOf firstOf
        startOf pgSizeOf
      simp (disch := omega) only [store_ne, store_same]
  refine ⟨?_,?_,?_,?_,?_,⟨rfl,?_⟩,?_,.singleton _,?_,Perm.refl _,Perm.refl _⟩
  · rw [hmem]
    unfold startOf
    simp (disch := omega) only [store_ne, store_same]
  · rw [hmem]
    exact store_same _ _ _
  · rw [hmem]
    unfold pgSizeOf
    simp (disch := omega) only [store_ne, store_same]
  · rw [hmem]
    unfold backFlag heapDummyFlag heapBlockUsed
    simp (disch := omega) only [store_ne, store_same]
  · rw [hmem]
    unfold frontFlag heapDummyFlag heapBlockUsed
    simp (disch := omega) only [store_ne, store_same]
  · change c.start+(c.size-8) = c.final
    omega
  · intro b hb
    rw [mem_singleton.mp hb]
    refine free_blockOk hstart (by omega) (by omega) ?_ ?_
    · rw [hmem]
      unfold frontFlag
      simp (disch := omega) only [store_ne, store_same]
    · rw [hmem, show c.start+(c.size-8) = c.final by omega]
      unfold backFlag
      simp (disch := omega) only [store_ne, store_same]
  · rw [hmem]
    unfold lwpHeapHead lwpHeapTail startOf finalOf
    refine isChain_cons_cons.mpr ⟨⟨?_,?_⟩,isChain_pair.mpr ⟨?_,?_⟩⟩
    · change store _ _ _ (c.theheap+8) = _
      simp (disch := omega) only [store_ne, store_same]
    · change store _ _ _ (c.start+12) = _
      simp (disch := omega) only [store_ne, store_same]
    · change store _ _ _ (c.start+8) = _
      simp (disch := omega) only [store_ne, store_same]
    · change store _ _ _ (c.theheap+4+12) = _
      simp (disch := omega) only [store_ne, store_same]

theorem write_layout (h : Layout c s bs fl) {p n addr v : ℕ} (hlive : (p,n) ∈ s.live)
    (hlow : p ≤ addr) (hhigh : addr < p+n) :
    Layout c { s with mem := store addr v s.mem } bs fl := by
  obtain ⟨b,hb,howner⟩ := mem_filterMap.mp (h.live.mem_iff.mp hlive)
  have hok := h.blocks b hb
  have hown := hok.owned p n howner
  have habove := hown.above
  have hbelow := hown.below
  have hused : b.isFree = false := by simp [Block.isFree, howner]
  have hlinks : ∀ w, LinkWord c bs w → store addr v s.mem w = s.mem w := by
    intro w hw
    have hside := h.link_apart hw hb
    rw [hused] at hside
    simp only [Bool.false_eq_true, false_and, or_false] at hside
    exact store_ne _ _ (by omega)
  obtain ⟨xs,ys,rfl⟩ := append_of_mem hb
  have hmiddle : xs ++ b::ys = xs ++ [b] ++ ys := by simp
  have hlisted := h.listed_keep hlinks
  rw [hmiddle] at h ⊢
  have hrange : Tiles Block.addr Block.size b.addr [b] (b.addr+b.size) := ⟨rfl,rfl⟩
  refine h.replace hrange (by simp) hrange ?_ ?_ h.merged hlisted h.free h.live
  · exact fun w hw _ => store_ne _ _ (by omega)
  · intro d hd
    rw [mem_singleton.mp hd]
    refine hok.congr (store_ne _ _ ?_) (store_ne _ _ ?_) (fun q m hq => store_ne _ _ ?_)
    · unfold frontFlag
      omega
    · unfold backFlag
      omega
    · obtain ⟨rfl,rfl⟩ := Prod.mk.inj (Option.mem_unique howner hq)
      omega

theorem step_layout (h : Layout c s bs fl) {fuel : ℕ} (hfuel : c.size ≤ fuel) {a : HeapAction}
    (hok : HeapOk c.pgSize a s) : ∃ s' bs' fl', heapStep fuel c.theheap a s = some s' ∧
      Layout c s' bs' fl' := by
  cases a with
  | allocate size =>
    obtain ⟨r,bs',fl',hr,hlayout,-⟩ := allocate_layout h hfuel hok
    refine ⟨_,bs',fl',?_,hlayout⟩
    change (lwpHeapAllocate fuel c.theheap size s.mem).map _ = _
    rw [hr]
    rfl
  | free ptr =>
    obtain ⟨⟨ptr,size⟩,hlive,rfl⟩ := mem_map.mp hok
    obtain ⟨-,bs',fl',hlayout⟩ := free_layout h hlive
    exact ⟨_,bs',fl',rfl,hlayout⟩
  | write addr value =>
    obtain ⟨⟨p,n⟩,hlive,hlow,hhigh,-,-⟩ := hok
    exact ⟨_,bs,fl,rfl,write_layout h hlive hlow hhigh⟩

theorem reach_layout {mem : ℕ → ℕ} {fuel : ℕ} (hfuel : c.size ≤ fuel)
    (h : Reach (heapStep fuel c.theheap) (HeapOk c.pgSize) (heapInit c mem) s) :
    ∃ bs fl, Layout c s bs fl := by
  have hinit : ∃ bs fl, Layout c (heapInit c mem) bs fl := ⟨_,_,init_layout c mem⟩
  refine reach_invariant (P := fun s => ∃ bs fl, Layout c s bs fl) hinit ?_ h
  rintro a s s' ⟨bs,fl,hlayout⟩ hok hs
  obtain ⟨t,bs',fl',ht,hnew⟩ := step_layout hlayout hfuel hok
  obtain rfl := Option.mem_unique ht hs
  exact ⟨bs',fl',hnew⟩

end Steps

/-! What a layout says of the heap. -/

structure Sound (c : Setup) (s : HeapState) (bs : List Block) (fl : List ℕ) : Prop where
  tiles : Tiles Block.addr Block.size c.start bs c.final
  tags : ∀ b ∈ bs, s.mem (frontFlag b.addr) = b.tag ∧ s.mem (backFlag (b.addr+b.size)) = b.tag
  ends : s.mem (backFlag c.start) = heapDummyFlag ∧ s.mem (frontFlag c.final) = heapDummyFlag
  merged : Merged bs
  listed : Listed (fun n => s.mem (nextOf n)) (fun n => s.mem (prevOf n)) (lwpHeapHead c.theheap)
    (lwpHeapTail c.theheap) fl
  free : fl.Nodup ∧ ∀ a, a ∈ fl ↔ ∃ b ∈ bs, b.isFree = true ∧ b.addr = a
  allocated : ∀ p n, (p,n) ∈ s.live → p % c.pgSize = 0 ∧
    ∃ b ∈ bs, b.owner = some (p,n) ∧ b.addr ≤ p ∧ p+n ≤ b.addr+b.size
  owned : ∀ b ∈ bs, ∀ q, b.owner = some q → q ∈ s.live
  disjoint : s.live.Pairwise (fun p q => p.1+p.2 ≤ q.1 ∨ q.1+q.2 ≤ p.1)
  whole : s.live = [] → ∃ b, bs = [b] ∧ b.isFree = true

variable {s : HeapState} {bs : List Block} {fl : List ℕ} {c : Setup}

theorem live_disjoint (h : Layout c s bs fl) :
    s.live.Pairwise (fun p q => p.1+p.2 ≤ q.1 ∨ q.1+q.2 ≤ p.1) := by
  refine (h.live.pairwise_iff (fun hpq => hpq.symm)).mpr ?_
  refine pairwise_filterMap.mpr ((tiles_pairwise h.tiles).imp_of_mem ?_)
  rintro b d hb hd hlt ⟨p,m⟩ hp ⟨q,n⟩ hq
  have := ((h.blocks b hb).owned p m hp).below
  have := ((h.blocks d hd).owned q n hq).above
  exact .inl (by dsimp only; omega)

theorem one_block (h : Layout c s bs fl) (hlive : s.live = []) :
    ∃ b, bs = [b] ∧ b.isFree = true := by
  have hnone : owners bs = [] := by
    have hperm := h.live
    rw [hlive] at hperm
    exact hperm.symm.eq_nil
  have hfree : ∀ b ∈ bs, b.isFree = true := by
    intro b hb
    cases howner : b.owner with
    | none => simp [Block.isFree, howner]
    | some q =>
      have hmem : q ∈ owners bs := mem_filterMap.mpr ⟨b,hb,howner⟩
      simp [hnone] at hmem
  have hmerged := h.merged
  have htiles := h.tiles
  cases bs with
  | nil =>
    have hroom := c.room
    have hfinal := c.final_add
    have heq : c.start = c.final := htiles
    unfold heapMinSize heapOverhead sizeofHeapBlock at hroom
    omega
  | cons b bs =>
    cases bs with
    | nil => exact ⟨b,rfl,hfree b (by simp)⟩
    | cons d bs =>
      have hpair := (isChain_cons_cons.mp hmerged).1
      simp [hfree b (by simp), hfree d (by simp)] at hpair

theorem layout_sound (h : Layout c s bs fl) : Sound c s bs fl := by
  refine ⟨h.tiles,fun b hb => ⟨(h.blocks b hb).front,(h.blocks b hb).back⟩,
    ⟨h.firstTag,h.lastTag⟩,h.merged,h.listed,
    ⟨h.fl_nodup,fun a => h.free.mem_iff.trans mem_freeAddrs⟩,?_,?_,live_disjoint h,one_block h⟩
  · intro p n hlive
    obtain ⟨b,hb,howner⟩ := mem_filterMap.mp (h.live.mem_iff.mp hlive)
    have hown := (h.blocks b hb).owned p n howner
    have habove := hown.above
    exact ⟨Nat.mod_eq_zero_of_dvd hown.aligned,b,hb,howner,by omega,hown.below⟩
  · exact fun b hb q hq => h.live.mem_iff.mpr (mem_filterMap.mpr ⟨b,hb,hq⟩)

theorem heap_invariant (c : Setup) (mem : ℕ → ℕ) {fuel : ℕ} (hfuel : c.size ≤ fuel)
    {s : HeapState} (h : Reach (heapStep fuel c.theheap) (HeapOk c.pgSize) (heapInit c mem) s) :
    (∃ bs fl, Sound c s bs fl) ∧
      (∀ a, HeapOk c.pgSize a s → (heapStep fuel c.theheap a s).isSome) ∧
        ∀ p n, (p,n) ∈ s.live → (lwpHeapFree c.theheap p s.mem).1 = true := by
  obtain ⟨bs,fl,hlayout⟩ := reach_layout hfuel h
  refine ⟨⟨bs,fl,layout_sound hlayout⟩,?_,fun p n hlive => (free_layout hlayout hlive).1⟩
  intro a hok
  obtain ⟨s',-,-,hs,-⟩ := step_layout hlayout hfuel hok
  rw [hs]
  rfl

def smallHeap : Setup where
  theheap := 0
  start := 64
  size := 1024
  pgSize := 32
  startAligned := by decide
  sizeAligned := by decide
  room := by decide
  inSpace := by decide
  apart := by decide
  pgPow := ⟨5,by decide⟩
  pgMin := by decide
  pgInSpace := by decide

/-- Three allocations are made, written to and released so that the last
release joins its block with both neighbours. -/
theorem heap_invariant_joined : ∃ s, Reach (heapStep 1024 0) (HeapOk 32)
    (heapInit smallHeap (fun _ => 0)) s ∧ s.live = [(1024,10)] ∧
      s.mem (frontFlag 64) = 944 ∧ ∃ bs fl, Sound smallHeap s bs fl := by
  have hrun : (runChecked (heapStep 1024 0) (fun a s => decide (HeapOk 32 a s))
      [.allocate 10, .allocate 100, .allocate 40, .write 1024 7, .free 864, .free 768]
      (heapInit smallHeap (fun _ => 0))).any
      (fun s => decide (s.live = [(1024,10)] ∧ s.mem (frontFlag 64) = 944)) = true := by
    decide +kernel
  obtain ⟨s,hreach,hlive,hfront⟩ : ∃ s, Reach (heapStep 1024 0) (HeapOk 32) (heapInit smallHeap
      (fun _ => 0)) s ∧ _ :=
    run_reaches (fun _ _ ha => of_decide_eq_true ha) hrun
  exact ⟨s,hreach,hlive,hfront,(heap_invariant smallHeap _ (Nat.le_refl _) hreach).1⟩

end Libogc.HeapSafety
