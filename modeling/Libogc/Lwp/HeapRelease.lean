import Libogc.Lwp.HeapAllocate

/-!
# Release keeps the layout

A block that is freed is joined with the free block before it, with the one
behind it, with both, or is put in front of the free list.
-/

set_option autoImplicit false

namespace Libogc.HeapRelease
open List Heap HeapLayout HeapAllocate DoublyLinked RangeTiling Option

variable {us vs : List ℕ} {a t w : ℕ}

section Release

variable {c : Setup} {s : HeapState} {xs ms ys : List Block} {b d : Block} {fl : List ℕ}

abbrev dropLive (ptr : ℕ) (live : List (ℕ × ℕ)) : List (ℕ × ℕ) :=
  live.eraseP (fun p => decide (p.1 = ptr))

theorem owner_ptr_inj (h : Layout c s ms fl) (hb : b ∈ ms) (hd : d ∈ ms) {p m n : ℕ}
    (hbp : b.owner = some (p,m)) (hdp : d.owner = some (p,n)) : b = d := by
  have hb' := (h.blocks b hb).owned p m hbp
  have hd' := (h.blocks d hd).owned p n hdp
  have := hb'.above
  have := hb'.below
  have := hd'.above
  have := hd'.below
  rcases h.eq_or_apart hb hd with hsame | hlt | hlt
  · exact hsame
  · omega
  · omega

theorem erase_live (h : Layout c s (xs ++ ms ++ ys) fl) {ptr size : ℕ}
    (hms : owners ms = [(ptr,size)]) :
    (dropLive ptr s.live).Perm (owners xs ++ owners ys) := by
  have hlive : s.live.Perm ((ptr,size)::(owners xs ++ owners ys)) := by
    refine h.live.trans ?_
    rw [owners_append, owners_append, hms, append_assoc]
    exact perm_middle
  have hpair : ((ptr,size)::(owners xs ++ owners ys)).Pairwise (fun p q => p.1 ≠ q.1) := by
    refine (hlive.pairwise_iff (fun h => Ne.symm h)).mp ?_
    refine (h.live.pairwise_iff (fun h => Ne.symm h)).mpr ?_
    refine pairwise_filterMap.mpr (h.nodup.imp_of_mem ?_)
    rintro b d hb hd hne ⟨p,m⟩ hp ⟨q,n⟩ hq rfl
    exact hne (owner_ptr_inj h hb hd hp hq)
  have herase := Perm.eraseP (fun p => decide (p.1 = ptr)) ?_ hlive
  · rwa [eraseP_cons_of_pos (by simp)] at herase
  · refine ((hlive.pairwise_iff (fun h => Ne.symm h)).mpr hpair).imp ?_
    intro p q hne hp hq
    exact hne ((of_decide_eq_true hp).trans (of_decide_eq_true hq).symm)

variable {mem : ℕ → ℕ} {s' : HeapState} {bs' bs : List Block}

theorem free_blockOk {pgSize : ℕ} (ha : a % 8 = 0) (ht : t % 8 = 0) (hroom : 16 ≤ t)
    (hfront : mem (frontFlag a) = t) (hback : mem (backFlag (a+t)) = t) :
    BlockOk pgSize mem ⟨a,t,none⟩ := ⟨ha,ht,hroom,hfront,hback,by simp⟩

def Walled (xs ys : List Block) : Prop :=
  (∀ x ∈ xs.getLast?, x.isFree = false) ∧ ∀ y ∈ ys.head?, y.isFree = false

theorem merged_free (h : Merged (xs ++ ms ++ ys)) (hne : ms ≠ []) (hwall : Walled xs ys)
    (a t : ℕ) : Merged (xs ++ [⟨a,t,none⟩] ++ ys) := by
  obtain ⟨hxs,-,hys,-,-⟩ := (merged_append hne).mp h
  refine (merged_append (by simp)).mpr ⟨hxs,.singleton _,hys,?_,?_⟩
  · exact fun x hx _ _ => .inl (hwall.1 x hx)
  · exact fun _ _ y hy => .inr (hwall.2 y hy)

/-! The blocks `ms`, from `b` at `a` to `d`, become one free block. -/

def joinStores (a t u v : ℕ) (mem : ℕ → ℕ) : ℕ → ℕ :=
  store (nextOf u) v (store (prevOf v) u (store (backFlag (a+t)) t (store (frontFlag a) t mem)))

def enterStores (a t u v : ℕ) (mem : ℕ → ℕ) : ℕ → ℕ :=
  store (prevOf v) a (store (nextOf u) a (store (prevOf a) u (store (nextOf a) v
    (store (backFlag (a+t)) t (store (frontFlag a) t mem)))))

theorem edges_mem (u v : ℕ) (us ks vs : List ℕ) :
    us.getLastD u ∈ u::(us ++ (ks ++ vs)) ∧ vs.headD v ∈ us ++ (ks ++ vs) ++ [v] :=
  ⟨Sublist.subset (by simp) (getLastD_mem u us),Sublist.subset (by simp) (headD_mem vs v)⟩

theorem nextblock_stored (ht : t % 8 = 0) (hlt : a+t < 4294967296) :
    lwpHeapNextblock (store (frontFlag a) t mem) a = a+t := by
  unfold lwpHeapNextblock withoutUsed
  rw [store_same, show t/2*2 = t by omega, u32_of_lt hlt]

section Freed

variable {a t ptr size : ℕ} (h : Layout c s (xs ++ ms ++ ys) fl) (hb : b ∈ ms) (hd : d ∈ ms)
  (hba : b.addr = a) (hdz : d.addr+d.size = a+t)
include h hb hd hba hdz

theorem link_flags (hw : LinkWord c (xs ++ ms ++ ys) w) : w ≠ frontFlag a ∧ w ≠ backFlag (a+t) := by
  have hwb := (h.link_ne hw (b := b) (by simp [hb])).1
  have hwd := (h.link_ne hw (b := d) (by simp [hd])).2.1
  rw [hba] at hwb
  rw [hdz] at hwd
  exact ⟨hwb,hwd⟩

variable (hne : ms ≠ []) (hms : Tiles Block.addr Block.size a ms (a+t)) (ht : t % 8 = 0)
  (howners : owners ms = [(ptr,size)]) (hwall : Walled xs ys)
include hms

omit hd hdz in
theorem freed_room : a % 8 = 0 ∧ 16 ≤ t := by
  have hok := h.blocks b (by simp [hb])
  have hroom := hok.room
  have haddr := hok.addrAligned
  have hbound := tiles_mem hms hb
  omega

include hne ht howners hwall

omit hd hdz in
theorem freed_layout {mem' : ℕ → ℕ} {fl' : List ℕ} (hfront : mem' (frontFlag a) = t)
    (hback : mem' (backFlag (a+t)) = t)
    (hframe : ∀ w, ¬(a+4 ≤ w ∧ w ≤ a+t) → ¬LinkWord c (xs ++ ms ++ ys) w → mem' w = s.mem w)
    (hlisted : Listed (fun n => mem' (nextOf n)) (fun n => mem' (prevOf n))
      c.head c.tail fl')
    (hfree : fl'.Perm (freeAddrs xs ++ [a] ++ freeAddrs ys)) :
    Layout c ⟨mem',dropLive ptr s.live⟩ (xs ++ [⟨a,t,none⟩] ++ ys) fl' := by
  obtain ⟨haddr,hroom⟩ := freed_room h hb hba hms
  refine h.replace hms hne ⟨rfl,rfl⟩ hframe ?_ (merged_free h.merged hne hwall a t) hlisted ?_ ?_
  · intro e he
    rw [mem_singleton.mp he]
    exact free_blockOk haddr ht hroom hfront hback
  · rw [freeAddrs_append, freeAddrs_append]
    exact hfree
  · rw [owners_append, owners_append]
    change Perm _ (owners xs ++ [] ++ owners ys)
    rw [append_nil]
    exact erase_live h howners

theorem grown_layout (hfree : freeAddrs ms = [a]) :
    Layout c ⟨store (frontFlag a) t (store (backFlag (a+t)) t s.mem),
      dropLive ptr s.live⟩ (xs ++ [⟨a,t,none⟩] ++ ys) fl := by
  have hroom := freed_room h hb hba hms
  refine freed_layout h hb hba hne hms ht howners hwall (store_same _ _ _) ?_ ?_ ?_ ?_
  · rw [store_ne _ _ (by unfold frontFlag backFlag; omega), store_same]
  · intro w hw _
    rw [store_ne _ _ (by unfold frontFlag; omega), store_ne _ _ (by unfold backFlag; omega)]
  · apply h.listed_keep
    intro w hw
    obtain ⟨hwf,hwb⟩ := link_flags h hb hd hba hdz hw
    rw [store_ne _ _ hwf, store_ne _ _ hwb]
  · rw [← hfree, ← freeAddrs_append, ← freeAddrs_append]
    exact h.free

theorem joined_layout {k : ℕ} {us vs : List ℕ} (hfl : fl = us ++ k::vs)
    (hfree : freeAddrs ms = [a, k]) :
      Layout c ⟨joinStores a t (us.getLastD c.head) (vs.headD c.tail) s.mem,
      dropLive ptr s.live⟩ (xs ++ [⟨a,t,none⟩] ++ ys) (us ++ vs) := by
  subst hfl
  have hroom := freed_room h hb hba hms
  have hnear := h.neighbours
  generalize hu : us.getLastD c.head = u at *
  generalize hv : vs.headD c.tail = v at *
  have hcross := h.next_ne_prev hnear.left_mem hnear.right_mem
  have hflags : ∀ w, LinkWord c (xs ++ ms ++ ys) w → w ≠ a+4 ∧ w ≠ a+t :=
    fun w => link_flags h hb hd hba hdz
  have hleft := hflags _ (h.next_link hnear.left_mem)
  have hright := hflags _ (h.prev_link hnear.right_mem)
  generalize hmem : joinStores a t u v s.mem = mem'
  have hwords : mem' (frontFlag a) = t ∧ mem' (backFlag (a+t)) = t ∧ mem' (nextOf u) = v ∧
      mem' (prevOf v) = u := by
    simp (disch := omega) only [← hmem, joinStores, frontFlag, backFlag, store_ne, store_same,
      and_self]
  have hout : ∀ w, w ≠ nextOf u → w ≠ prevOf v → w ≠ a+4 ∧ w ≠ a+t → mem' w = s.mem w := by
    intro w hwu hwv hwf
    simp (disch := omega) only [← hmem, joinStores, frontFlag, backFlag, store_ne]
  refine freed_layout h hb hba hne hms ht howners hwall hwords.1 hwords.2.1 ?_
    (@Layout.relinked c s _ mem' us [k] [] vs u v h hu hv (isChain_pair.mpr hwords.2.2) ?_) ?_
  · intro w hw hlink
    refine hout w ?_ ?_ (by omega)
    · exact fun he => hlink (he ▸ h.next_link hnear.left_mem)
    · exact fun he => hlink (he ▸ h.prev_link hnear.right_mem)
  · exact fun w hw hwu hwv _ => hout w hwu hwv (hflags w hw)
  · have hold := h.free
    rw [freeAddrs_append, freeAddrs_append, hfree] at hold
    refine (@perm_mid [k] us vs _ _).mp (hold.trans ?_)
    rw [show [a, k] = [a] ++ [k] from rfl, ← append_assoc]

theorem entered_layout {us ks vs : List ℕ} (hfl : fl = us ++ (ks ++ vs)) (hused : b.isFree = false)
    (hfree : freeAddrs ms = ks) :
      Layout c ⟨enterStores a t (us.getLastD c.head) (vs.headD c.tail) s.mem,
      dropLive ptr s.live⟩ (xs ++ [⟨a,t,none⟩] ++ ys)
      (us ++ ([a] ++ vs)) := by
  subst hfl
  have hb' : b ∈ xs ++ ms ++ ys := by simp [hb]
  have hroom := (h.blocks b hb').room
  have hbound := tiles_mem hms hb
  obtain ⟨hmemU,hmemV⟩ := edges_mem c.head c.tail us ks vs
  generalize hu : us.getLastD c.head = u at *
  generalize hv : vs.headD c.tail = v at *
  have hcross := h.next_ne_prev hmemU hmemV
  have hflags : ∀ w, LinkWord c (xs ++ ms ++ ys) w →
      (w < a+4 ∨ a+b.size < w) ∧ w ≠ a+t := by
    intro w hw
    have hwb := h.link_apart hw hb'
    rw [hused, hba] at hwb
    simp only [Bool.false_eq_true, false_and, or_false] at hwb
    exact ⟨hwb,(link_flags h hb hd hba hdz hw).2⟩
  have hleft := hflags _ (h.next_link hmemU)
  have hright := hflags _ (h.prev_link hmemV)
  have hnext : nextOf a = a+8 := rfl
  have hprev : prevOf a = a+12 := rfl
  generalize hmem : enterStores a t u v s.mem = mem'
  have hwords : (mem' (frontFlag a) = t ∧ mem' (backFlag (a+t)) = t) ∧
      (mem' (nextOf u) = a ∧ mem' (prevOf a) = u) ∧ mem' (nextOf a) = v ∧ mem' (prevOf v) = a := by
    simp (disch := omega) only [← hmem, enterStores, frontFlag, backFlag, hnext, hprev, store_ne,
      store_same, and_self]
  have hout : ∀ w, w ≠ nextOf u → w ≠ prevOf v → (w < a+4 ∨ a+b.size < w) ∧ w ≠ a+t →
      mem' w = s.mem w := by
    intro w hwu hwv hwb
    simp (disch := omega) only [← hmem, enterStores, frontFlag, backFlag, hnext, hprev, store_ne]
  refine freed_layout h hb hba hne hms ht howners hwall hwords.1.1 hwords.1.2 ?_
    (@Layout.relinked c s _ mem' us ks [a] vs u v h hu hv
      (isChain_cons_cons.mpr ⟨hwords.2.1,isChain_pair.mpr hwords.2.2⟩) ?_) ?_
  · intro w hw hlink
    refine hout w ?_ ?_ (by omega)
    · exact fun he => hlink (he ▸ h.next_link hmemU)
    · exact fun he => hlink (he ▸ h.prev_link hmemV)
  · exact fun w hw hwu hwv _ => hout w hwu hwv (hflags w hw)
  · have hold := h.free
    rw [freeAddrs_append, freeAddrs_append, hfree] at hold
    exact perm_mid.mpr (perm_mid.mp hold)

end Freed

/-! What the function finds. -/

theorem usrblockat_owned (h : Layout c s ms fl) (hb : b ∈ ms) {ptr size : ℕ}
    (howner : b.owner = some (ptr,size)) : lwpHeapUsrblockat s.mem ptr = b.addr := by
  have hown := (h.blocks b hb).owned ptr size howner
  have habove := hown.above
  have hbelow := hown.below
  have hbounds := h.bounds hb
  have hspace := c.final_le
  have hword : u32 (ptr+4294967292) = ptr-4 := by
    unfold u32
    omega
  unfold lwpHeapUsrblockat lwpHeapBlockat heapBlockUsedOverhead
  rw [hword, hown.offset]
  unfold u32
  omega

theorem blockat_behind (h : Layout c s ms fl) (hb : b ∈ ms) :
    lwpHeapBlockat b.addr (lwpHeapBlocksize s.mem b.addr) = b.addr+b.size := by
  have hok := h.blocks b hb
  have hbounds := h.bounds hb
  have hspace := c.final_le
  unfold lwpHeapBlockat lwpHeapBlocksize
  rw [hok.front, withoutUsed_tag b hok.sizeAligned, u32_of_lt (by omega)]

theorem blockin_bounds (h : Layout c s ms fl) (hlow : c.start ≤ a) (hhigh : a ≤ c.final) :
    lwpHeapBlockin s.mem c.theheap a = true := by
  unfold lwpHeapBlockin
  rw [h.startWord, h.finalWord, decide_eq_true hlow, decide_eq_true hhigh]
  rfl

theorem free_eq_release (h : Layout c s ms fl) (hb : b ∈ ms) {ptr size : ℕ}
    (howner : b.owner = some (ptr,size)) : lwpHeapFree c.theheap ptr s.mem =
      lwpHeapRelease c.theheap b.addr b.size (b.addr+b.size) s.mem := by
  have hok := h.blocks b hb
  have hbounds := h.bounds hb
  have hused : b.isFree = false := by simp [Block.isFree, howner]
  have htag := tag_used hused
  have hsize := hok.sizeAligned
  have hnotfree : lwpHeapBlockfree s.mem b.addr = false := by
    unfold lwpHeapBlockfree
    rw [hok.front]
    exact decide_eq_false (by omega)
  unfold lwpHeapFree
  rw [usrblockat_owned h hb howner]
  dsimp only
  rw [blockin_bounds h hbounds.1 (by omega), hnotfree, if_neg (by simp), blockat_behind h hb,
    blockin_bounds h (by omega) hbounds.2, hok.front, hok.back, if_neg (by simp)]
  unfold lwpHeapBlocksize
  rw [hok.front, withoutUsed_tag b hsize]

theorem next_used (h : Layout c s (xs ++ [b] ++ ys) fl) (hys : ∀ y ∈ ys.head?, y.isFree = false) :
    lwpHeapBlockfree s.mem (b.addr+b.size) = false := by
  obtain ⟨m,hxb,hrest⟩ := tiles_append.mp h.tiles
  obtain ⟨k,-,hk,hm⟩ := tiles_append.mp hxb
  unfold lwpHeapBlockfree
  cases ys with
  | nil =>
    have hend : b.addr+b.size = c.final := by
      rw [hk]
      exact hm.trans hrest
    rw [hend, h.lastTag]
    rfl
  | cons y ys =>
    have hend : b.addr+b.size = y.addr := by
      rw [hk]
      exact hm.trans hrest.1.symm
    have hok := h.blocks y (by simp)
    have hsize := hok.sizeAligned
    rw [hend, hok.front, tag_used (hys y rfl)]
    exact decide_eq_false (by omega)

theorem prev_used (h : Layout c s (xs ++ [b] ++ ys) fl)
    (hxs : ∀ x ∈ xs.getLast?, x.isFree = false) : lwpHeapPrevBlockfree s.mem b.addr = false := by
  obtain ⟨m,hxb,-⟩ := tiles_append.mp h.tiles
  obtain ⟨k,hk,hkb,-⟩ := tiles_append.mp hxb
  unfold lwpHeapPrevBlockfree
  rcases eq_nil_or_concat xs with rfl | ⟨xs,x,rfl⟩
  · have hstart : b.addr = c.start := hkb.trans hk.symm
    rw [hstart, h.firstTag]
    rfl
  · rw [concat_eq_append] at *
    obtain ⟨j,-,hj,hjk⟩ := tiles_append.mp hk
    have hend : b.addr = x.addr+x.size := by
      rw [hkb, hj]
      exact hjk.symm
    have hok := h.blocks x (by simp)
    have hsize := hok.sizeAligned
    rw [hend, hok.back, tag_used (hxs x (by simp))]
    exact decide_eq_false (by omega)

/-! The four ways of a release. -/

variable {p n : Block} {ptr size : ℕ}

theorem parts_tile (h : Layout c s (xs ++ ms ++ ys) fl) :
    ∃ a z, Tiles Block.addr Block.size a ms z := by
  obtain ⟨z,hxm,-⟩ := tiles_append.mp h.tiles
  obtain ⟨a,-,hm⟩ := tiles_append.mp hxm
  exact ⟨a,z,hm⟩

theorem blockfree_free (h : Layout c s ms fl) (hn : n ∈ ms) (hfree : n.isFree = true) :
    lwpHeapBlockfree s.mem n.addr = true := by
  have hok := h.blocks n hn
  have hsize := hok.sizeAligned
  unfold lwpHeapBlockfree
  rw [front_free hok hfree]
  exact decide_eq_true (by omega)

theorem prev_found (h : Layout c s ms fl) (hp : p ∈ ms) (hfree : p.isFree = true)
    (ha : p.addr+p.size = a) : lwpHeapPrevBlockfree s.mem a = true ∧
      lwpHeapPrevblock s.mem a = p.addr ∧ lwpHeapBlockin s.mem c.theheap p.addr = true := by
  have hok := h.blocks p hp
  have hsize := hok.sizeAligned
  have hbounds := h.bounds hp
  have hspace := c.final_le
  have hback : s.mem (backFlag a) = p.size := by rw [← ha, hok.back, tag_free hfree]
  refine ⟨?_,?_,?_⟩
  · unfold lwpHeapPrevBlockfree
    rw [hback]
    exact decide_eq_true (by omega)
  · unfold lwpHeapPrevblock withoutUsed u32
    omega
  · unfold lwpHeapBlockin
    rw [h.startWord, h.finalWord, decide_eq_true hbounds.1, decide_eq_true (by omega)]
    rfl

theorem release_joins (h : Layout c s (xs ++ [p, b, n] ++ ys) (us ++ n.addr::vs))
    (hp : p.isFree = true) (hn : n.isFree = true) :
    lwpHeapRelease c.theheap b.addr b.size (b.addr+b.size) s.mem =
      (true,joinStores p.addr (p.size+(n.size+b.size)) (us.getLastD c.head)
        (vs.headD c.tail) s.mem) := by
  obtain ⟨a,z,hpa,hba,hna,hz⟩ := parts_tile h
  have hp' : p ∈ xs ++ [p, b, n] ++ ys := by simp
  have hn' : n ∈ xs ++ [p, b, n] ++ ys := by simp
  have hpok := h.blocks p hp'
  have hnok := h.blocks n hn'
  have hbok := h.blocks b (by simp)
  have hpsize := hpok.sizeAligned
  have hnsize := hnok.sizeAligned
  have hbsize := hbok.sizeAligned
  have hbounds := h.bounds hn'
  have hspace := c.final_le
  have hnext : b.addr+b.size = n.addr := by omega
  obtain ⟨hfree,hprev,hin⟩ := prev_found h hp' hp (show p.addr+p.size = b.addr by omega)
  have hfrontP := front_free hpok hp
  have hfrontN := front_free hnok hn
  have hnear := h.neighbours
  have hnode : n.addr ∈ us ++ n.addr::vs := by simp
  have hcross := h.next_ne_prev (mem_cons_of_mem c.head hnode) hnear.right_mem
  generalize vs.headD c.tail = v at *
  have hself : prevOf n.addr ≠ prevOf v := fun he => hnear.right_ne (Nat.add_right_cancel he).symm
  have hsum : u32 (p.size+(n.size+b.size)) = p.size+(n.size+b.size) := u32_of_lt (by omega)
  generalize ht : p.size+(n.size+b.size) = t at *
  have hflags : ∀ w, LinkWord c (xs ++ [p, b, n] ++ ys) w →
      w ≠ frontFlag p.addr ∧ w ≠ backFlag (p.addr+t) :=
    fun w => link_flags (b := p) (d := n) h (by simp) (by simp) rfl (by omega)
  have hnextWord := hflags _ (h.next_link (mem_cons_of_mem c.head hnode))
  have hprevWord := hflags _ (h.prev_link (mem_append_left [c.tail] hnode))
  unfold lwpHeapRelease
  rw [if_pos hfree, hprev, hnext]
  dsimp only
  rw [hin, if_pos (blockfree_free h hn' hn), hfrontP, hfrontN, ht, hsum,
    nextblock_stored (by omega) (by omega)]
  simp only [store_same, store_ne, ne_eq, hnextWord, hprevWord, hself, hcross, not_false_eq_true,
    hnear.next, hnear.prev]
  rfl

theorem release_grows (h : Layout c s (xs ++ [p, b] ++ ys) fl) (hp : p.isFree = true)
    (hys : ∀ y ∈ ys.head?, y.isFree = false) :
    lwpHeapRelease c.theheap b.addr b.size (b.addr+b.size) s.mem =
      (true,store (frontFlag p.addr) (p.size+b.size)
        (store (backFlag (p.addr+(p.size+b.size))) (p.size+b.size) s.mem)) := by
  obtain ⟨a,z,hpa,hba,hz⟩ := parts_tile h
  have hp' : p ∈ xs ++ [p, b] ++ ys := by simp
  have hb' : b ∈ xs ++ [p, b] ++ ys := by simp
  have hpok := h.blocks p hp'
  have hbounds := h.bounds hb'
  have hspace := c.final_le
  have hnext : b.addr+b.size = p.addr+(p.size+b.size) := by omega
  obtain ⟨hfree,hprev,hin⟩ := prev_found h hp' hp (show p.addr+p.size = b.addr by omega)
  have hfrontP := front_free hpok hp
  have h' : Layout c s (xs ++ [p] ++ [b] ++ ys) fl := by
    rwa [append_assoc xs]
  have hnotfree := next_used h' hys
  rw [hnext] at hnotfree ⊢
  unfold lwpHeapRelease
  rw [if_pos hfree, hprev]
  dsimp only
  rw [hin, if_neg (by simp), hnotfree, if_neg (by simp), hfrontP, u32_of_lt (by omega), store_same]

theorem first_node (h : Layout c s ms fl) :
    s.mem (firstOf c.theheap) = fl.headD c.tail ∧ s.mem (prevOf (fl.headD c.tail)) = c.head :=
  (isChain_cons_cons.mp ((@listed_split _ _ _ _ _ [] [] fl).mp h.listed).2.1).1

theorem used_apart (h : Layout c s ms fl) (hb : b ∈ ms) (hused : b.isFree = false)
    (hw : LinkWord c ms w) : w ≠ frontFlag b.addr ∧ w ≠ nextOf b.addr ∧ w ≠ prevOf b.addr := by
  have hside := h.link_apart hw hb
  have hroom := (h.blocks b hb).room
  rw [hused] at hside
  simp only [Bool.false_eq_true, false_and, or_false] at hside
  unfold frontFlag nextOf prevOf
  omega

theorem release_replaces (h : Layout c s (xs ++ [b, n] ++ ys) (us ++ n.addr::vs))
    (hb : b.isFree = false) (hn : n.isFree = true) (hxs : ∀ x ∈ xs.getLast?, x.isFree = false) :
    lwpHeapRelease c.theheap b.addr b.size (b.addr+b.size) s.mem =
      (true,enterStores b.addr (b.size+n.size) (us.getLastD c.head) (vs.headD c.tail) s.mem) := by
  obtain ⟨a,z,hba,hna,hz⟩ := parts_tile h
  have hb' : b ∈ xs ++ [b, n] ++ ys := by simp
  have hn' : n ∈ xs ++ [b, n] ++ ys := by simp
  have hnok := h.blocks n hn'
  have hnsize := hnok.sizeAligned
  have hbsize := (h.blocks b hb').sizeAligned
  have hbroom := (h.blocks b hb').room
  have hbounds := h.bounds hn'
  have hspace := c.final_le
  have hnext : b.addr+b.size = n.addr := by omega
  have hfrontN := front_free hnok hn
  have h' : Layout c s (xs ++ [b] ++ (n::ys)) (us ++ n.addr::vs) := by
    rw [append_assoc] at h ⊢
    exact h
  have hprev := prev_used h' hxs
  have hnear := h.neighbours
  have hfirst := first_node h
  have hnode : n.addr ∈ us ++ n.addr::vs := by simp
  have hheadV : firstOf c.theheap ≠ prevOf (vs.headD c.tail) :=
    h.next_ne_prev (mem_cons_self ..) hnear.right_mem
  generalize us.getLastD c.head = u at *
  generalize vs.headD c.tail = v at *
  have hself : nextOf n.addr ≠ nextOf u := fun he => hnear.left_ne (Nat.add_right_cancel he).symm
  have hsum : u32 (b.size+n.size) = b.size+n.size := u32_of_lt (by omega)
  generalize ht : b.size+n.size = t at *
  have hflags : ∀ w, LinkWord c (xs ++ [b, n] ++ ys) w → (w ≠ frontFlag b.addr ∧
      w ≠ backFlag (b.addr+t)) ∧ w ≠ nextOf b.addr ∧ w ≠ prevOf b.addr := fun w hw =>
    ⟨link_flags (b := b) (d := n) h (by simp) (by simp) rfl
      (by omega) hw,(used_apart h hb' hb hw).2⟩
  have hnextWord := hflags _ (h.next_link (mem_cons_of_mem c.head hnode))
  have hprevWord := hflags _ (h.prev_link (mem_append_left [c.tail] hnode))
  have hhead := hflags (firstOf c.theheap) (.inl rfl)
  have hlast : enterStores b.addr t u v s.mem (firstOf c.theheap) ≠ n.addr := by
    unfold enterStores
    rw [store_ne _ _ hheadV]
    by_cases hu : u = c.head
    · rw [hu, show nextOf c.head = firstOf c.theheap from rfl, store_same]
      omega
    · have hne : firstOf c.theheap ≠ nextOf u := fun he => hu (Nat.add_right_cancel he).symm
      simp only [store_ne, ne_eq, hne, hhead, not_false_eq_true, hfirst.1]
      intro he
      have hprevN := hfirst.2
      rw [he, hnear.prev] at hprevN
      exact hu hprevN
  unfold lwpHeapRelease
  rw [hprev, if_neg (by simp), hnext, if_pos (blockfree_free h hn' hn)]
  dsimp only
  rw [hfrontN, ht, hsum, nextblock_stored (by omega) (by omega)]
  simp only [store_same, store_ne, ne_eq, hnextWord, hprevWord, hself, not_false_eq_true,
    hnear.next,
    hnear.prev]
  exact congrArg (Prod.mk true) (if_neg hlast)

theorem release_enters (h : Layout c s (xs ++ [b] ++ ys) fl) (hb : b.isFree = false)
    (hwall : Walled xs ys) : lwpHeapRelease c.theheap b.addr b.size (b.addr+b.size) s.mem =
      (true,enterStores b.addr b.size c.head (fl.headD c.tail) s.mem) := by
  have hb' : b ∈ xs ++ [b] ++ ys := by simp
  have hhead : LinkWord c (xs ++ [b] ++ ys) (firstOf c.theheap) := .inl rfl
  have happart := used_apart h hb' hb hhead
  have hbehind := (h.link_ne hhead hb').2.1
  have hcomm : ∀ (v : ℕ) (mem : ℕ → ℕ), store (nextOf b.addr) v
      (store (prevOf b.addr) c.head mem) =
        store (prevOf b.addr) c.head (store (nextOf b.addr) v mem) :=
    fun v mem => Function.update_comm (by unfold nextOf prevOf; omega) _ _ mem
  unfold lwpHeapRelease
  rw [prev_used h hwall.1, if_neg (by simp), next_used h hwall.2, if_neg (by simp)]
  dsimp only
  rw [store_same, store_ne _ _ happart.2.2, store_ne _ _ hbehind, store_ne _ _ happart.1,
    (first_node h).1, store_ne _ _ (Ne.symm happart.2.1), store_same, hcomm]
  rfl

theorem left_wall (h : Layout c s (xs ++ ms ++ ys) fl) (hp : p ∈ ms.head?) (hfree : p.isFree = true)
    (x : Block) (hx : x ∈ xs.getLast?) : x.isFree = false :=
  (((merged_append (ne_nil_of_mem (mem_of_mem_head? hp))).mp h.merged).2.2.2.1 x hx p
    hp).resolve_right (by simp [hfree])

theorem right_wall (h : Layout c s (xs ++ ms ++ ys) fl) (hn : n ∈ ms.getLast?)
    (hfree : n.isFree = true) (y : Block) (hy : y ∈ ys.head?) : y.isFree = false :=
  (((merged_append (ne_nil_of_mem (mem_of_mem_getLast? hn))).mp h.merged).2.2.2.2 n hn y
    hy).resolve_left (by simp [hfree])

/-! What a release leaves alone. -/

/-- One free block at `a` is made of the blocks `ms`, of which `b` was in use.
Only its flags and links of the free list are stored. -/
structure Releases (c : Setup) (s s' : HeapState) (b : Block) (xs ms ys : List Block)
    (fl' : List ℕ) (a t : ℕ) : Prop where
  range : Tiles Block.addr Block.size a ms (a+t)
  mem : b ∈ ms
  layout : Layout c s' (xs ++ [⟨a,t,none⟩] ++ ys) fl'
  left : (a = b.addr ∧ lwpHeapPrevBlockfree s.mem b.addr = false) ∨
    (a+16 ≤ b.addr ∧ lwpHeapPrevBlockfree s.mem b.addr = true)
  right : a+t = b.addr+b.size ∨ lwpHeapBlockfree s.mem (b.addr+b.size) = true
  frame : ∀ w, w ≠ frontFlag a → w ≠ backFlag (a+t) →
    ¬LinkWord c (xs ++ [⟨a,t,none⟩] ++ ys) w → s'.mem w = s.mem w

theorem joinStores_frame (h : Layout c s' bs' (us ++ vs))
    (hfront : w ≠ frontFlag a) (hback : w ≠ backFlag (a+t)) (hlink : ¬LinkWord c bs' w)
    (mem : ℕ → ℕ) :
    joinStores a t (us.getLastD c.head) (vs.headD c.tail) mem w = mem w := by
  obtain ⟨hu,hv⟩ := edges_mem c.head c.tail us [] vs
  have hne : ∀ x, LinkWord c bs' x → w ≠ x := fun x hx he => hlink (he ▸ hx)
  rw [joinStores, store_ne _ _ (hne _ (h.next_link hu)), store_ne _ _ (hne _ (h.prev_link hv)),
    store_ne _ _ hback, store_ne _ _ hfront]

theorem enterStores_frame (h : Layout c s' bs' (us ++ ([a] ++ vs))) (hfront : w ≠ frontFlag a)
    (hback : w ≠ backFlag (a+t)) (hlink : ¬LinkWord c bs' w) (mem : ℕ → ℕ) :
    enterStores a t (us.getLastD c.head) (vs.headD c.tail) mem w = mem w := by
  obtain ⟨hu,hv⟩ := edges_mem c.head c.tail us [a] vs
  have ha : a ∈ us ++ ([a] ++ vs) := by simp
  have hne : ∀ x, LinkWord c bs' x → w ≠ x := fun x hx he => hlink (he ▸ hx)
  rw [enterStores, store_ne _ _ (hne _ (h.prev_link hv)), store_ne _ _ (hne _ (h.next_link hu)),
    store_ne _ _ (hne _ (h.prev_link (mem_append_left _ ha))),
    store_ne _ _ (hne _ (h.next_link (mem_cons_of_mem _ ha))), store_ne _ _ hback,
    store_ne _ _ hfront]

theorem free_releases (h : Layout c s bs fl) (hlive : (ptr,size) ∈ s.live) :
    (lwpHeapFree c.theheap ptr s.mem).1 = true ∧
      ∃ xs ms ys fl' a t b, bs = xs ++ ms ++ ys ∧ b.owner = some (ptr,size) ∧ Releases c s
        ⟨(lwpHeapFree c.theheap ptr s.mem).2,dropLive ptr s.live⟩
        b xs ms ys fl' a t := by
  obtain ⟨b,hb,howner⟩ := mem_filterMap.mp (h.live.mem_iff.mp hlive)
  have hused : b.isFree = false := by simp [Block.isFree, howner]
  have hown : owners [b] = [(ptr,size)] := by simp [owners, howner]
  rw [free_eq_release h hb howner]
  obtain ⟨xs,ys,rfl⟩ := append_of_mem hb
  have hsize := (h.blocks b hb).sizeAligned
  have hmiddle : xs ++ b::ys = xs ++ [b] ++ ys := by simp
  rw [hmiddle] at h
  have hbefore : (∀ x ∈ xs.getLast?, x.isFree = false) ∨
      ∃ xs' p, xs = xs' ++ [p] ∧ p.isFree = true := by
    rcases eq_nil_or_concat xs with rfl | ⟨xs',p,rfl⟩
    · simp
    · cases hp : p.isFree
      · simp [hp]
      · exact .inr ⟨xs',p,by simp,hp⟩
  have hbehind : (∀ y ∈ ys.head?, y.isFree = false) ∨ ∃ n ys', ys = n::ys' ∧ n.isFree = true := by
    cases ys with
    | nil => simp
    | cons n ys' =>
      cases hn : n.isFree
      · simp [hn]
      · exact .inr ⟨n,ys',rfl,hn⟩
  rcases hbefore with hxs | ⟨xs,p,rfl,hp⟩
  · rcases hbehind with hys | ⟨n,ys,rfl,hn⟩
    · rw [release_enters h hused ⟨hxs,hys⟩]
      have hnofree : freeAddrs [b] = [] := by simp [freeAddrs, hused]
      have hnew := @entered_layout c s xs [b] ys b b fl b.addr b.size ptr size h (by simp) (by simp)
        rfl rfl (by simp) ⟨rfl,rfl⟩ hsize hown ⟨hxs,hys⟩ [] [] fl rfl hused hnofree
      exact ⟨rfl,xs,[b],ys,_,b.addr,b.size,b,hmiddle,howner,⟨rfl,rfl⟩,by simp,hnew,
        .inl ⟨rfl,prev_used h hxs⟩,.inl rfl,
        fun w hfront hback hlink => enterStores_frame hnew hfront hback hlink s.mem⟩
    · have h' : Layout c s (xs ++ [b, n] ++ ys) fl := by
        rw [append_assoc] at h ⊢
        exact h
      obtain ⟨a,z,hba,hna,hz⟩ := parts_tile h'
      have hnsize := (h'.blocks n (by simp)).sizeAligned
      obtain ⟨us,vs,rfl⟩ := append_of_mem (h'.free_listed (by simp) hn)
      rw [release_replaces h' hused hn hxs]
      have hwall : Walled xs ys := ⟨hxs,right_wall h' rfl hn⟩
      have hrange : Tiles Block.addr Block.size b.addr [b, n] (b.addr+(b.size+n.size)) :=
        ⟨rfl,by omega,Nat.add_assoc ..⟩
      have howners : owners [b, n] = [(ptr,size)] := by
        simp [owners, howner, isNone_iff_eq_none.mp hn]
      have hnew := @entered_layout c s xs [b, n] ys b n _ b.addr _ ptr size h' (by simp) (by simp)
        rfl (by omega) (by simp) hrange (by omega) howners hwall us [n.addr] vs rfl hused
        (by simp [freeAddrs, hused, hn])
      have hfound := blockfree_free h' (by simp) hn
      rw [show n.addr = b.addr+b.size by omega] at hfound
      exact ⟨rfl,xs,[b, n],ys,_,b.addr,b.size+n.size,b,by simp,howner,hrange,by simp,hnew,
        .inl ⟨rfl,prev_used h hxs⟩,.inr hfound,
        fun w hfront hback hlink => enterStores_frame hnew hfront hback hlink s.mem⟩
  · rcases hbehind with hys | ⟨n,ys,rfl,hn⟩
    · have h' : Layout c s (xs ++ [p, b] ++ ys) fl := by
        simpa using h
      obtain ⟨a,z,hpa,hba,hz⟩ := parts_tile h'
      have hpsize := (h'.blocks p (by simp)).sizeAligned
      have hproom := (h'.blocks p (by simp)).room
      rw [release_grows h' hp hys]
      have hrange : Tiles Block.addr Block.size p.addr [p, b] (p.addr+(p.size+b.size)) :=
        ⟨rfl,by omega,Nat.add_assoc ..⟩
      have howners : owners [p, b] = [(ptr,size)] := by
        simp [owners, howner, isNone_iff_eq_none.mp hp]
      have hnew := @grown_layout c s xs [p, b] ys p b fl p.addr (p.size+b.size) ptr size h'
        (by simp) (by simp) rfl (by omega) (by simp) hrange (by omega) howners
        ⟨left_wall h' rfl hp,hys⟩
        (by simp [freeAddrs, hused, hp])
      have hfound := prev_found h' (by simp) hp (show p.addr+p.size = b.addr by omega)
      exact ⟨rfl,xs,[p, b],ys,_,p.addr,p.size+b.size,b,by simp,howner,hrange,by simp,hnew,
        .inr ⟨by omega,hfound.1⟩,.inl (by omega),
        fun w hfront hback _ => (store_ne _ _ hfront).trans (store_ne _ _ hback)⟩
    · have h' : Layout c s (xs ++ [p, b, n] ++ ys) fl := by
        simpa using h
      obtain ⟨a,z,hpa,hba,hna,hz⟩ := parts_tile h'
      have hpsize := (h'.blocks p (by simp)).sizeAligned
      have hproom := (h'.blocks p (by simp)).room
      have hnsize := (h'.blocks n (by simp)).sizeAligned
      obtain ⟨us,vs,rfl⟩ := append_of_mem (h'.free_listed (by simp) hn)
      rw [release_joins h' hp hn]
      have hwall : Walled xs ys := ⟨left_wall h' rfl hp,right_wall h' rfl hn⟩
      have hend : p.addr+p.size+b.size+n.size = p.addr+(p.size+(n.size+b.size)) := by omega
      have hrange :
        Tiles Block.addr Block.size p.addr [p, b, n] (p.addr+(p.size+(n.size+b.size))) :=
        ⟨rfl,by omega,by omega,hend⟩
      have howners : owners [p, b, n] = [(ptr,size)] := by
        simp [owners, howner, isNone_iff_eq_none.mp hp, isNone_iff_eq_none.mp hn]
      have hnew := @joined_layout c s xs [p, b, n] ys p n _ p.addr (p.size+(n.size+b.size)) ptr size
        h' (by simp) (by simp) rfl (by omega) (by simp) hrange (by omega) howners hwall n.addr us vs
        rfl (by simp [freeAddrs, hused, hp, hn])
      have hfound := prev_found h' (show p ∈ _ by simp) hp (show p.addr+p.size = b.addr by omega)
      have hnext := blockfree_free h' (by simp) hn
      rw [show n.addr = b.addr+b.size by omega] at hnext
      exact ⟨rfl,xs,[p, b, n],ys,_,p.addr,p.size+(n.size+b.size),b,by simp,howner,hrange,by simp,
        hnew,.inr ⟨by omega,hfound.1⟩,.inr hnext,
        fun w hfront hback hlink => joinStores_frame hnew hfront hback hlink s.mem⟩

theorem free_layout (h : Layout c s bs fl) (hlive : (ptr,size) ∈ s.live) :
    (lwpHeapFree c.theheap ptr s.mem).1 = true ∧ ∃ bs' fl', Layout c
      ⟨(lwpHeapFree c.theheap ptr s.mem).2,dropLive ptr s.live⟩
      bs' fl' := by
  obtain ⟨hfreed,xs,ms,ys,fl',a,t,b,-,-,hr⟩ := free_releases h hlive
  exact ⟨hfreed,_,_,hr.layout⟩

end Release

end Libogc.HeapRelease
