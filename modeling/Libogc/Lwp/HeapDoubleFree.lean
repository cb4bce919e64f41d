import Libogc.Lwp.HeapSafety

/-!
# A pointer that is freed twice

`__lwp_heap_free` takes a pointer that is no longer allocated if the tags that
are left where its block was look like those of a block in use, or if its
offset was overwritten by a link. Until the next allocation the blocks only
grow together, and what is left of a block is inside of a free one.
-/

set_option autoImplicit false

namespace Libogc.HeapDoubleFree
open List GuardedReach Heap HeapLayout HeapAllocate HeapRelease
open HeapSafety RangeTiling

/-- The block of `d` bytes at `a`, in which `p` was allocated, is inside of the
free block `f`. Either its front tag is that of a free block, and its offset is
not where the links of `f` are; or only the tag behind it is that of a free
block. -/
structure Inside (mem : ℕ → ℕ) (f : Block) (p a d : ℕ) : Prop where
  free : f.isFree = true
  start : f.addr = a ∨ f.addr+16 ≤ a
  fits : a+d ≤ f.addr+f.size
  aligned : a % 8 = 0
  sizeAligned : d % 8 = 0
  above : a+16 ≤ p
  below : p ≤ a+d
  offset : mem (p-4) = p-8-a
  tags : (mem (frontFlag a) % 2 = 0 ∧ (f.addr = a → p ≠ a+16)) ∨
    (f.addr+16 ≤ a ∧ mem (frontFlag a) = d+1 ∧ mem (backFlag (a+d)) % 2 = 0)

def Stale (mem : ℕ → ℕ) (bs : List Block) (p : ℕ) : Prop := ∃ f ∈ bs, ∃ a d, Inside mem f p a d

section Stale

variable {c : Setup} {s s' : HeapState} {bs bs' : List Block} {fl fl' : List ℕ} {f f' b : Block}
  {mem : ℕ → ℕ} {p a d : ℕ}

theorem stale_rejected (h : Layout c s bs fl) (hf : f ∈ bs) (hi : Inside s.mem f p a d) :
    lwpHeapFree c.theheap p s.mem = (false,s.mem) := by
  have hbounds := h.bounds hf
  have hspace := c.final_le
  have hstart := hi.start
  have hfits := hi.fits
  have habove := hi.above
  have hbelow := hi.below
  have hsize := hi.sizeAligned
  have hword : u32 (p+4294967292) = p-4 := by
    unfold u32
    omega
  have hblock : lwpHeapUsrblockat s.mem p = a := by
    unfold lwpHeapUsrblockat lwpHeapBlockat heapBlockUsedOverhead
    rw [hword, hi.offset]
    unfold u32
    omega
  unfold lwpHeapFree
  dsimp only
  rw [hblock, blockin_bounds h (by omega) (by omega)]
  rcases hi.tags with ⟨hfront,-⟩ | ⟨-,hfront,hback⟩
  · rw [if_pos]
    simp [lwpHeapBlockfree, hfront]
  · have hused : lwpHeapBlockfree s.mem a = false := by
      exact decide_eq_false (by omega)
    have hnext : lwpHeapBlockat a (lwpHeapBlocksize s.mem a) = a+d := by
      unfold lwpHeapBlockat lwpHeapBlocksize withoutUsed
      rw [hfront, show (d+1)/2*2 = d by omega, u32_of_lt (by omega)]
    have hne : s.mem (frontFlag a) ≠ s.mem (backFlag (a+d)) := by omega
    rw [hused, if_neg (by simp), hnext, if_pos]
    simp [hne]

theorem Inside.keep (hi : Inside mem f p a d) (h : Layout c s' bs' fl') (hf' : f' ∈ bs')
    (hfree : f'.isFree = true) (hstart : f'.addr = f.addr ∨ f'.addr+16 ≤ f.addr)
    (hend : f.addr+f.size ≤ f'.addr+f'.size)
    (hframe : ∀ w, f'.addr+4 < w → w < f'.addr+f'.size → ¬LinkWord c bs' w → s'.mem w = mem w) :
    Inside s'.mem f' p a d := by
  obtain ⟨-,hs,hfits,haligned,hsize,habove,hbelow,hoffset,htags⟩ := hi
  have hok := h.blocks f' hf'
  have hsizeF := hok.sizeAligned
  have hlink : ∀ w, f'.addr+4 ≤ w → w ≤ f'.addr+f'.size → w ≠ f'.addr+8 → w ≠ f'.addr+12 →
      ¬LinkWord c bs' w := by
    intro w hlow hhigh hnext hprev hw
    rcases h.link_apart hw hf' with hlt | hlt | ⟨-,hx | hx⟩
    · omega
    · omega
    · exact hnext hx
    · exact hprev hx
  have hfront := front_free hok hfree
  have hback : s'.mem (backFlag (f'.addr+f'.size)) = f'.size := by rw [hok.back, tag_free hfree]
  have hword : (f'.addr = a → p ≠ a+16) → s'.mem (p-4) = p-8-a := by
    intro hne
    rw [hframe (p-4) (by omega) (by omega) (hlink _ (by omega) (by omega) (by omega) (by omega))]
    exact hoffset
  rcases htags with ⟨heven,hne⟩ | ⟨hinner,hodd,heven⟩
  · have hne' : f'.addr = a → p ≠ a+16 := fun he => hne (by omega)
    refine ⟨hfree,by omega,by omega,haligned,hsize,habove,hbelow,hword hne',.inl ⟨?_,hne'⟩⟩
    by_cases hsame : f'.addr = a
    · rw [← hsame]
      omega
    · unfold frontFlag at heven ⊢
      rw [hframe (a+4) (by omega) (by omega) (hlink _ (by omega) (by omega) (by omega) (by omega))]
      exact heven
  · refine ⟨hfree,by omega,by omega,haligned,hsize,habove,hbelow,hword (by omega),
      .inr ⟨by omega,?_,?_⟩⟩
    · unfold frontFlag at hodd ⊢
      rw [hframe (a+4) (by omega) (by omega) (hlink _ (by omega) (by omega) (by omega) (by omega))]
      exact hodd
    · by_cases hlast : a+d = f'.addr+f'.size
      · rw [hlast]
        omega
      · unfold backFlag at heven ⊢
        rw [hframe (a+d) (by omega) (by omega)
          (hlink _ (by omega) (by omega) (by omega) (by omega))]
        exact heven

end Stale

/-! A release and a store of a user. -/

section Steps

variable {c : Setup} {s s' : HeapState} {xs ms ys : List Block} {fl fl' : List ℕ} {b f : Block}
  {p n a t ptr size : ℕ}

theorem range_start {z : ℕ} (h : Tiles Block.addr Block.size a ms z)
    (hroom : ∀ b ∈ ms, 16 ≤ b.size) (hf : f ∈ ms) : a = f.addr ∨ a+16 ≤ f.addr := by
  cases ms with
  | nil => exact absurd hf (not_mem_nil)
  | cons m ms =>
    have hm := hroom m (mem_cons_self ..)
    have haddr : m.addr = a := h.1
    rcases mem_cons.mp hf with rfl | hf
    · exact .inl haddr.symm
    · have := (tiles_mem h.2 hf).1
      omega

theorem Releases.grows (h : Layout c s (xs ++ ms ++ ys) fl)
    (hr : Releases c s s' b xs ms ys fl' a t)
    (hf : f ∈ xs ++ ms ++ ys) (hfree : f.isFree = true) :
    ∃ f' ∈ xs ++ [⟨a,t,none⟩] ++ ys, f'.isFree = true ∧
      (f'.addr = f.addr ∨ f'.addr+16 ≤ f.addr) ∧ f.addr+f.size ≤ f'.addr+f'.size := by
  by_cases hms : f ∈ ms
  · have hroom : ∀ m ∈ ms, 16 ≤ m.size := fun m hm => (h.blocks m (by simp [hm])).room
    exact ⟨⟨a,t,none⟩,by simp,rfl,range_start hr.range hroom hms,(tiles_mem hr.range hms).2⟩
  · have hside : f ∈ xs ++ [⟨a,t,none⟩] ++ ys := by
      simp only [mem_append] at hf ⊢
      tauto
    exact ⟨f,hside,hfree,.inl rfl,Nat.le_refl _⟩

theorem Releases.inner_frame (hr : Releases c s s' b xs ms ys fl' a t)
    (hf : f ∈ xs ++ [⟨a,t,none⟩] ++ ys) {w : ℕ} (hlow : f.addr+4 < w) (hhigh : w < f.addr+f.size)
    (hlink : ¬LinkWord c (xs ++ [⟨a,t,none⟩] ++ ys) w) : s'.mem w = s.mem w := by
  have hnew : (⟨a,t,none⟩ : Block) ∈ xs ++ [⟨a,t,none⟩] ++ ys := by simp
  have hroom := (hr.layout.blocks _ hnew).room
  have hapart := hr.layout.eq_or_apart hnew hf
  refine hr.frame w ?_ ?_ hlink
  · unfold frontFlag
    rcases hapart with rfl | hlt | hlt
    · exact Nat.ne_of_gt hlow
    · dsimp only at hlt hroom
      omega
    · dsimp only at hlt
      omega
  · unfold backFlag
    rcases hapart with rfl | hlt | hlt
    · exact Nat.ne_of_lt hhigh
    · dsimp only at hlt
      omega
    · dsimp only at hlt
      omega

section

variable (h : Layout c s (xs ++ ms ++ ys) fl) (hr : Releases c s s' b xs ms ys fl' a t)
include h hr

theorem Releases.stale_keep (hp : Stale s.mem (xs ++ ms ++ ys) p) :
    Stale s'.mem (xs ++ [⟨a,t,none⟩] ++ ys) p := by
  obtain ⟨f,hf,a,d,hi⟩ := hp
  obtain ⟨f',hf',hfree,hstart,hend⟩ := Releases.grows h hr hf hi.free
  exact ⟨f',hf',a,d,hi.keep hr.layout hf' hfree hstart hend
    (fun w hlow hhigh hlink => Releases.inner_frame hr hf' hlow hhigh hlink)⟩

theorem Releases.stale_new (howner : b.owner = some (ptr,size))
    (hnext : lwpHeapPrevBlockfree s.mem b.addr = true →
      lwpHeapBlockfree s.mem (b.addr+b.size) = false)
    (hoffset : lwpHeapPrevBlockfree s.mem b.addr = true ∨ s.mem (ptr-4) ≠ 8) :
    Stale s'.mem (xs ++ [⟨a,t,none⟩] ++ ys) ptr := by
  have hb : b ∈ xs ++ ms ++ ys := by simp [hr.mem]
  have hok := h.blocks b hb
  have hown := hok.owned ptr size howner
  have habove := hown.above
  have hbelow := hown.below
  have hword := hown.offset
  have hsize := hok.sizeAligned
  have hnew : (⟨a,t,none⟩ : Block) ∈ xs ++ [⟨a,t,none⟩] ++ ys := by simp
  have hnewOk := hr.layout.blocks _ hnew
  have htsize : t % 8 = 0 := hnewOk.sizeAligned
  have hend := (tiles_mem hr.range hr.mem).2
  have htag : b.tag = b.size+1 := tag_used (by simp [Block.isFree, howner])
  have hlink : ∀ w, a+4 ≤ w → w ≤ a+t → w ≠ a+8 → w ≠ a+12 →
      ¬LinkWord c (xs ++ [⟨a,t,none⟩] ++ ys) w := by
    intro w hlow hhigh hn hp hw
    rcases hr.layout.link_apart hw hnew with hlt | hlt | ⟨-,hx | hx⟩
    · exact absurd hlow (Nat.not_le_of_lt hlt)
    · exact absurd hhigh (Nat.not_le_of_lt hlt)
    · exact hn hx
    · exact hp hx
  refine ⟨_,hnew,b.addr,b.size,?_⟩
  rcases hr.left with ⟨hstart,hprev⟩ | ⟨hstart,hprev⟩
  · -- the block is the start of the new one
    have hne : ptr ≠ b.addr+16 := by
      intro he
      have h8 := hoffset.resolve_left (by simp [hprev])
      omega
    have hkeep : s'.mem (ptr-4) = s.mem (ptr-4) :=
      hr.frame _ (by unfold frontFlag; omega) (by unfold backFlag; omega)
        (hlink _ (by omega) (by omega) (by omega) (by omega))
    have hfront : s'.mem (frontFlag a) = t := hnewOk.front
    refine ⟨rfl,.inl hstart,hend,hok.addrAligned,hsize,habove,by omega,hkeep.trans hword,
      .inl ⟨?_,fun _ => hne⟩⟩
    rw [← hstart]
    omega
  · -- the block is the end of the new one
    have hright : a+t = b.addr+b.size := hr.right.resolve_right (by simp [hnext hprev])
    have hkeep : s'.mem (ptr-4) = s.mem (ptr-4) :=
      hr.frame _ (by unfold frontFlag; omega) (by unfold backFlag; omega)
        (hlink _ (by omega) (by omega) (by omega) (by omega))
    have hfront : s'.mem (frontFlag b.addr) = b.size+1 := by
      rw [hr.frame _ (by unfold frontFlag; omega) (by unfold frontFlag backFlag; omega)
        (by unfold frontFlag; exact hlink _ (by omega) (by omega) (by omega) (by omega)),
        hok.front, htag]
    have hback : s'.mem (backFlag (a+t)) = t := hnewOk.back
    refine ⟨rfl,.inr hstart,hend,hok.addrAligned,hsize,habove,by omega,hkeep.trans hword,
      .inr ⟨hstart,hfront,?_⟩⟩
    rw [← hright]
    omega

end

theorem write_stale {bs : List Block} {addr value : ℕ} (h : Layout c s bs fl)
    (hlive : (p,n) ∈ s.live) (hlow : p ≤ addr) (hhigh : addr < p+n) {q : ℕ}
      (hq : Stale s.mem bs q) :
    Stale (store addr value s.mem) bs q := by
  obtain ⟨f,hf,a,d,hi⟩ := hq
  obtain ⟨b,hb,howner⟩ := mem_filterMap.mp (h.live.mem_iff.mp hlive)
  have hown := (h.blocks b hb).owned p n howner
  have habove := hown.above
  have hbelow := hown.below
  have hne : b ≠ f := by
    rintro rfl
    have hfree := hi.free
    simp [Block.isFree, howner] at hfree
  have hapart := (h.eq_or_apart hb hf).resolve_left hne
  refine ⟨f,hf,a,d,hi.keep (write_layout h hlive hlow hhigh) hf hi.free (.inl rfl)
    (Nat.le_refl _) ?_⟩
  intro w hwlow hwhigh _
  exact store_ne _ _ (by omega)

end Steps

/-! Runs that remember what was freed since the last allocation. -/

structure Trace where
  heap : HeapState
  freed : List ℕ

def traceStep (fuel theheap : ℕ) (a : HeapAction) (t : Trace) : Option Trace :=
  (heapStep fuel theheap a t.heap).map (fun heap => ⟨heap,match a with
    -- an allocation that is refused leaves the list of the live pointers alone
    | .allocate _ => if heap.live = t.heap.live then t.freed else []
    | .free ptr => ptr::t.freed
    | .write _ _ => t.freed⟩)

def behind (mem : ℕ → ℕ) (ptr : ℕ) : ℕ :=
  lwpHeapBlockat (lwpHeapUsrblockat mem ptr) (lwpHeapBlocksize mem (lwpHeapUsrblockat mem ptr))

/-- A block is not freed between two free ones, and if there is none before it
the pointer is not 16 bytes behind its start. -/
def Apart : HeapAction → HeapState → Prop
  | .free ptr, s =>
    (lwpHeapPrevBlockfree s.mem (lwpHeapUsrblockat s.mem ptr) = true →
      lwpHeapBlockfree s.mem (behind s.mem ptr) = false) ∧
    (lwpHeapPrevBlockfree s.mem (lwpHeapUsrblockat s.mem ptr) = true ∨ s.mem (ptr-4) ≠ 8)
  | _, _ => True

instance (a : HeapAction) (s : HeapState) : Decidable (Apart a s) :=
  match a with
  | .free _ => inferInstanceAs (Decidable ((_ = true → _ = false) ∧ (_ = true ∨ _ ≠ 8)))
  | .allocate _ => inferInstanceAs (Decidable True)
  | .write _ _ => inferInstanceAs (Decidable True)

def TraceOk (pgSize : ℕ) (a : HeapAction) (t : Trace) : Prop :=
  HeapOk pgSize a t.heap ∧ Apart a t.heap

def Remembers (c : Setup) (t : Trace) : Prop :=
  ∃ bs fl, Layout c t.heap bs fl ∧ ∀ p ∈ t.freed, Stale t.heap.mem bs p

theorem step_remembers {c : Setup} {fuel : ℕ} (hfuel : c.size ≤ fuel) {a : HeapAction}
    {t t' : Trace}
    (h : Remembers c t) (hok : TraceOk c.pgSize a t) (hs : traceStep fuel c.theheap a t = some t') :
    Remembers c t' := by
  obtain ⟨bs,fl,hlayout,hstale⟩ := h
  obtain ⟨heap,hheap,rfl⟩ := Option.map_eq_some_iff.mp hs
  cases a with
  | allocate size =>
    obtain ⟨r,bs',fl',hr,hnew,hcases⟩ := allocate_layout hlayout hfuel hok.1
    rw [heapStep, hr] at hheap
    cases hheap
    rcases hcases with rfl | hne
    · refine ⟨bs,fl,hlayout,?_⟩
      simp only [addLive, if_pos]
      exact hstale
    · refine ⟨bs',fl',hnew,?_⟩
      simp only [addLive, if_neg hne, cons_ne_self, if_false]
      exact fun p hp => absurd hp not_mem_nil
  | write addr value =>
    obtain ⟨⟨p,n⟩,hlive,hlow,hhigh,-,-⟩ := hok.1
    cases hheap
    exact ⟨bs,fl,write_layout hlayout hlive hlow hhigh,
      fun q hq => write_stale hlayout hlive hlow hhigh (hstale q hq)⟩
  | free ptr =>
    obtain ⟨⟨ptr,size⟩,hlive,rfl⟩ := mem_map.mp hok.1
    cases hheap
    obtain ⟨-,xs,ms,ys,fl',a,d,b,rfl,howner,hr⟩ := free_releases hlayout hlive
    have hb : b ∈ xs ++ ms ++ ys := by simp [hr.mem]
    obtain ⟨hnext,hoffset⟩ := hok.2
    unfold behind at hnext
    rw [usrblockat_owned hlayout hb howner] at hnext hoffset
    rw [blockat_behind hlayout hb] at hnext
    refine ⟨_,fl',hr.layout,?_⟩
    intro q hq
    rcases mem_cons.mp hq with rfl | hq
    · exact Releases.stale_new hlayout hr howner hnext hoffset
    · exact Releases.stale_keep hlayout hr (hstale q hq)

/-- A pointer that was freed and is freed again before the next allocation is
rejected, and the heap is as it was. -/
theorem double_free_rejected (c : Setup) (mem : ℕ → ℕ) {fuel : ℕ} (hfuel : c.size ≤ fuel)
    {t : Trace}
    (h : Reach (traceStep fuel c.theheap) (TraceOk c.pgSize) ⟨heapInit c mem,[]⟩ t) :
    ∀ p ∈ t.freed, lwpHeapFree c.theheap p t.heap.mem = (false,t.heap.mem) := by
  have hinit : Remembers c ⟨heapInit c mem,[]⟩ :=
    ⟨_,_,init_layout c mem,fun p hp => absurd hp (not_mem_nil)⟩
  obtain ⟨bs,fl,hlayout,hstale⟩ : Remembers c t :=
    reach_invariant hinit (fun a t t' ht hok hs => step_remembers hfuel ht hok hs) h
  intro p hp
  obtain ⟨f,hf,a,d,hi⟩ := hstale p hp
  exact stale_rejected hlayout hf hi

theorem double_free_rejected_pair : ∃ t, Reach (traceStep 1024 0) (TraceOk 32)
    ⟨heapInit smallHeap (fun _ => 0),[]⟩ t ∧ t.freed = [896, 768] ∧
      lwpHeapFree 0 896 t.heap.mem = (false,t.heap.mem) := by
  have hrun : (runChecked (traceStep 1024 0) (fun a t => decide (HeapOk 32 a t.heap) &&
      decide (Apart a t.heap)) [.allocate 10, .allocate 80, .allocate 80, .free 768, .free 896,
      .allocate 2000]
      ⟨heapInit smallHeap (fun _ => 0),[]⟩).any (fun t => decide (t.freed = [896, 768])) =
        true := by
    decide +kernel
  obtain ⟨t,hreach,hfreed⟩ :=
    run_reaches (check_and (fun _ _ => of_decide_eq_true) fun _ _ => of_decide_eq_true) hrun
  refine ⟨t,hreach,hfreed,double_free_rejected smallHeap _ (Nat.le_refl _) hreach 896 ?_⟩
  rw [hfreed]
  exact mem_cons_self ..

/-- A block is freed between two free ones. Freed again, it is taken, and the
size of the free block at the start of the heap grows by what it already has. -/
theorem double_free_taken : ∃ t, Reach (traceStep 1024 0) (fun a t => HeapOk 32 a t.heap)
    ⟨heapInit smallHeap (fun _ => 0),[]⟩ t ∧ 768 ∈ t.freed ∧
      (lwpHeapFree 0 768 t.heap.mem).1 = true ∧ t.heap.mem (frontFlag 64) = 944 ∧
      (lwpHeapFree 0 768 t.heap.mem).2 (frontFlag 64) = 1216 := by
  have hrun : (runChecked (traceStep 1024 0) (fun a t => decide (HeapOk 32 a t.heap))
      [.allocate 10, .allocate 80, .allocate 80, .free 896, .free 768]
      ⟨heapInit smallHeap (fun _ => 0),[]⟩).any (fun t => decide (768 ∈ t.freed ∧
        (lwpHeapFree 0 768 t.heap.mem).1 = true ∧ t.heap.mem (frontFlag 64) = 944 ∧
        (lwpHeapFree 0 768 t.heap.mem).2 (frontFlag 64) = 1216)) = true := by
    decide +kernel
  exact run_reaches (fun _ _ h => of_decide_eq_true h) hrun

end Libogc.HeapDoubleFree
