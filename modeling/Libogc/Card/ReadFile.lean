import Libogc.Card.Access

/-!
# Reading a file

A call of `CARD_Read` whose transfers all succeed: what stands in the buffer
when the callback has been called.
-/

set_option autoImplicit false

namespace Libogc.CardReadFile
open ByteStore CardLayout CardControl CardCallbacks CardCalls CardSystem CardTransfer
  CardRounds List Nat
open CardFatLoops CardTables CardConsistency CardAccess RestingRun

variable {s t : Card} {now : ℕ} {l : List ℕ}

def fileByte (g : Geometry) (flash : Bytes) (l : List ℕ) (o : ℕ) : UInt8 :=
  flash (l.getD (o/g.sector) 0*g.sector+o%g.sector)

def portion (g : Geometry) (o n : ℕ) : ℕ := min n (g.sector-o%g.sector)

abbrev sectorEnd (g : Geometry) (o : ℕ) : ℕ := (o/g.sector+1)*g.sector

theorem toBoundary_eq (g : Geometry) (o : ℕ) : toBoundary g.sector o = g.sector-o%g.sector := by
  have hS := g.sector_ge
  have h := div_add_mod o g.sector
  rw [toBoundary, add_div_right o (by omega), succ_mul, Nat.mul_comm]
  omega

theorem next_sector (g : Geometry) (o : ℕ) : o+(g.sector-o%g.sector) = sectorEnd g o := by
  have hS := g.sector_ge
  have h := div_add_mod o g.sector
  have hm := mod_lt o (show 0 < g.sector by omega)
  rw [sectorEnd, succ_mul, Nat.mul_comm]
  omega

variable {flash : Bytes} {v : Card} {g : Geometry} {A b k m n o : ℕ}

theorem fileByte_sector {q x : ℕ} (h : l[q]? = some b) (hx : x < g.sector) :
    fileByte g flash l (q*g.sector+x) = flash (b*g.sector+x) := by
  have h1 : (q*g.sector+x)/g.sector = q := by
    rw [Nat.mul_comm, mul_add_div (by omega), div_eq_of_lt hx, Nat.add_zero]
  have h2 : (q*g.sector+x)%g.sector = x := by
    rw [Nat.mul_comm, mul_add_mod, mod_eq_of_lt hx]
  rw [fileByte, h1, h2, getD_eq_getElem?_getD, h, Option.getD_some]

/-- A sector is read, and `__read_callback` is due for a handle at `o` with
`n` bytes still to be counted, those of this sector among them. -/
structure Reading (v : Card) (l : List ℕ) (o n A : ℕ) : Prop where
  quiet : Quiet v
  offset : (v.file v.currFile).offset = o
  len : (v.file v.currFile).len = n
  block : l[o/v.geo.sector]? = some (v.file v.currFile).iblock
  buffer : v.cmdUsrBuf = .user A
  some : 0 < n
  segments : n%512 = 0 ∧ o%512 = 0
  room : o+n ≤ l.length*v.geo.sector

def movedOn (o m b : ℕ) (v : Card) : Card :=
  setFile v.currFile { v.file v.currFile with len := m, offset := o, iblock := b } v

theorem movedOn_file (o m b : ℕ) (v : Card) : (movedOn o m b v).file v.currFile =
    { v.file v.currFile with len := m, offset := o, iblock := b } :=
  Function.update_self _ _ _

theorem portion_aligned (g : Geometry) (hn : 0 < n) (h : n%512 = 0 ∧ o%512 = 0) :
    ∃ k, portion g o n = 512*(k+1) := by
  have hS := g.sector_ge
  have hpages := g.sector_pages
  have hmod := mod_lt o (show 0 < g.sector by omega)
  have h512 : o%g.sector%512 = 0 := by
    rw [mod_mod_of_dvd o (dvd_of_mod_eq_zero (by omega))]
    exact h.2
  exact ⟨portion g o n/512-1,by unfold portion; omega⟩

theorem readCallback_more (h : Reading v l o n A) (hl : Linked v.geo (fat v) l)
    (hm : m+(v.geo.sector-o%v.geo.sector) = n) (hm0 : 0 < m) (hk : portion v.geo 0 m = 512*(k+1))
    (hb : l[o/v.geo.sector+1]? = some b) :
    readCallback (fine now) 0 v = segmenting (k+1) (b*v.geo.sector) A .read
      (movedOn (sectorEnd v.geo o) m b v) := by
  have hsize := hl.size
  have hroom := h.room
  have hp : portion v.geo 0 m = min m v.geo.sector := by rw [portion, zero_mod, Nat.sub_zero]
  have hlen : s32 ((n : ℤ)-(v.geo.sector-o%v.geo.sector : ℕ)) = (m : ℤ) := by
    rw [s32_id (by omega) (by omega)]
    omega
  have hoff : s32 ((o : ℤ)+(v.geo.sector-o%v.geo.sector : ℕ)) =
      ((sectorEnd v.geo o : ℕ) : ℤ) := by
    rw [← next_sector v.geo o, s32_id (by omega) (by omega)]
    exact (Int.natCast_add _ _).symm
  have hw : fatWord (fat v) (v.file v.currFile).iblock = b := hl.next _ _ _ h.block hb
  have hq : Quiet (movedOn (sectorEnd v.geo o) m b v) := h.quiet.same rfl
  have hout : ¬outside (movedOn (sectorEnd v.geo o) m b v) b := hl.inside hb
  have hdiv : min m v.geo.sector/512 = k+1 := by
    rw [← hp, hk, Nat.mul_div_cancel_left _ (by decide)]
  have hread := cardRead_quiet now hq (b*v.geo.sector) (min m v.geo.sector) A .read
  rw [hdiv] at hread
  rw [readCallback, if_neg (by decide)]
  dsimp only
  rw [h.len, h.offset, if_neg (by omega), u32_id (by omega), toBoundary_eq, hlen,
    if_neg (by omega), hoff, hw]
  change (if outside (movedOn (sectorEnd v.geo o) m b v) b then _ else
    orElse (cardRead (b*v.geo.sector) (min m v.geo.sector) v.cmdUsrBuf .read (fine now)
      (movedOn (sectorEnd v.geo o) m b v)) _) = _
  rw [if_neg hout, h.buffer, hread]
  rfl

theorem movedOn_512 (h : Reading v l o n A) (hm : m+(v.geo.sector-o%v.geo.sector) = n) :
    m%512 = 0 := by
  have hpages := v.geo.sector_pages
  have hseg := h.segments
  have h512 : o%v.geo.sector%512 = 0 := by
    rw [mod_mod_of_dvd o (dvd_of_mod_eq_zero (by omega))]
    exact hseg.2
  omega

theorem movedOn_reading (h : Reading v l o n A) (hm : m+(v.geo.sector-o%v.geo.sector) = n)
    (hm0 : 0 < m) (hk : portion v.geo 0 m = 512*(k+1)) (hb : l[o/v.geo.sector+1]? = some b) :
    Reading (blockFetched (k+1) (b*v.geo.sector) A
      (movedOn (sectorEnd v.geo o) m b v)) l (sectorEnd v.geo o) m
      (A+portion v.geo 0 m) := by
  have hS := v.geo.sector_ge
  have hpages := v.geo.sector_pages
  have hroom := h.room
  have hnext := next_sector v.geo o
  have hfile := movedOn_file (sectorEnd v.geo o) m b v
  have h512 : sectorEnd v.geo o%512 = 0 :=
    mod_eq_zero_of_dvd (Nat.dvd_mul_left_of_dvd (dvd_of_mod_eq_zero (by omega)) _)
  constructor
  · exact h.quiet.same rfl
  · exact congrArg CardFile.offset hfile
  · exact congrArg CardFile.len hfile
  · change l[sectorEnd v.geo o/v.geo.sector]? =
      some ((movedOn (sectorEnd v.geo o) m b v).file v.currFile).iblock
    rw [hfile, Nat.mul_div_cancel _ (by omega), hb]
  · rw [hk]
    rfl
  · exact hm0
  · exact ⟨movedOn_512 h hm,h512⟩
  · change sectorEnd v.geo o+m ≤ l.length*v.geo.sector
    omega

def Filled (g : Geometry) (flash mem mem' : Bytes) (l : List ℕ) (o A n : ℕ) : Prop :=
  ∀ i, mem' i = if A ≤ i ∧ i < A+n then fileByte g flash l (o+(i-A)) else mem i

theorem Filled.trans {m0 m1 m2 : Bytes} {x y : ℕ} (h : Filled g flash m0 m1 l o A x)
    (h' : Filled g flash m1 m2 l (o+x) (A+x) y) : Filled g flash m0 m2 l o A (x+y) := by
  intro i
  rw [h' i, h i]
  by_cases h1 : A+x ≤ i ∧ i < A+x+y
  · rw [if_pos h1, if_pos (by omega)]
    congr 1
    omega
  · rw [if_neg h1]
    by_cases h2 : A ≤ i ∧ i < A+x
    · rw [if_pos h2, if_pos (by omega)]
    · rw [if_neg h2, if_neg (by omega)]

theorem blit_filled {mem : Bytes} {q : ℕ} (hb : l[q]? = some b) (hn : n ≤ g.sector) :
    Filled g flash mem (blit flash (b*g.sector) A n mem) l (q*g.sector) A n := by
  intro i
  by_cases h : A ≤ i ∧ i < A+n
  · rw [if_pos h, blit_in h, fileByte_sector hb (by omega)]
  · rw [if_neg h, blit_out (by omega)]

structure ReadEnd (v w : Card) : Prop where
  quiet : Quiet w
  flash : w.flash = v.flash
  geo : w.geo = v.geo
  result : w.result = errorReady

theorem readCallback_last (now : ℕ) (h : Reading v l o n A) (hl : Linked v.geo (fat v) l)
    (hn : n ≤ v.geo.sector-o%v.geo.sector) :
    ∃ w, Goes (advance now) (readCallback (fine now) 0 v) (resume now v.apiCb w) ∧ ReadEnd v w ∧
      w.mem = v.mem := by
  have hsize := hl.size
  have hroom := h.room
  have hlen : s32 ((n : ℤ)-(v.geo.sector-o%v.geo.sector : ℕ)) ≤ 0 := by
    have hmax := v.geo.sector_le
    rw [s32_id (by omega) (by omega)]
    omega
  let p : CardFile := { v.file v.currFile with
    len := s32 ((n : ℤ)-(v.geo.sector-o%v.geo.sector : ℕ)), offset := o }
  have hq : Quiet { setFile v.currFile p v with apiCb := none, result := errorReady } :=
    h.quiet.same rfl
  have hcb : readCallback (fine now) 0 v =
      later v.apiCb 0 { setFile v.currFile p v with apiCb := none, result := errorReady } := by
    rw [readCallback]
    dsimp only
    rw [h.len, h.offset, u32_id (by omega), toBoundary_eq, if_pos hlen]
    simp only [setFile, h.quiet.attached]
    rfl
  refine ⟨_,?_,⟨hq,rfl,rfl,rfl⟩,rfl⟩
  rw [hcb]
  exact later_goes hq v.apiCb

theorem filled_none {m0 m1 : Bytes} : Filled g flash m0 m1 l o A 0 ↔ m1 = m0 := by
  constructor
  · intro h
    funext i
    rw [h i, if_neg (by omega)]
  · rintro rfl i
    rw [if_neg (by omega)]

theorem read_goes (now : ℕ) (n : ℕ) (h : Reading v l o n A) (hl : Linked v.geo (fat v) l) :
    ∃ w, Goes (advance now) (readCallback (fine now) 0 v) (resume now v.apiCb w) ∧ ReadEnd v w ∧
      Filled v.geo v.flash v.mem w.mem l (sectorEnd v.geo o) A
        (n-(v.geo.sector-o%v.geo.sector)) := by
  induction n using Nat.strong_induction_on generalizing v o A with
  | _ n ih =>
  have hS := v.geo.sector_ge
  have hroom := h.room
  have hnext := next_sector v.geo o
  have hmod := mod_lt o (show 0 < v.geo.sector by omega)
  by_cases hn : n ≤ v.geo.sector-o%v.geo.sector
  · obtain ⟨w,hgo,hend,hmem⟩ := readCallback_last now h hl hn
    rw [Nat.sub_eq_zero_of_le hn]
    exact ⟨w,hgo,hend,filled_none.mpr hmem⟩
  obtain ⟨m,hm⟩ : ∃ m, m+(v.geo.sector-o%v.geo.sector) = n :=
    ⟨n-(v.geo.sector-o%v.geo.sector),by omega⟩
  have hm0 : 0 < m := by omega
  obtain ⟨k,hk⟩ := portion_aligned v.geo hm0 ⟨movedOn_512 h hm,zero_mod 512⟩
  have hidx : o/v.geo.sector+1 < l.length :=
    Nat.lt_of_mul_lt_mul_right (show sectorEnd v.geo o < l.length*v.geo.sector by omega)
  obtain ⟨b,hb⟩ : ∃ b, l[o/v.geo.sector+1]? = some b := ⟨_,getElem?_eq_getElem hidx⟩
  have hbl := v.geo.block_end (hl.area b (mem_of_getElem? hb)).2
  have hp : portion v.geo 0 m = min m v.geo.sector := by rw [portion, zero_mod, Nat.sub_zero]
  have hq : Quiet (movedOn (sectorEnd v.geo o) m b v) := h.quiet.same rfl
  have hle : 512*(k+1) ≤ v.geo.sector := by
    rw [← hk]
    exact Nat.min_le_right _ _
  have hgo1 := segments_goes now k (b*v.geo.sector) A .read hq
    ((Nat.add_le_add_left hle _).trans hbl)
  rw [← readCallback_more h hl hm hm0 hk hb] at hgo1
  obtain ⟨w,hgo2,hend,hfill⟩ := ih m (by omega) (movedOn_reading h hm hm0 hk hb) hl
  refine ⟨w,goes_trans hgo1 hgo2,⟨hend.quiet,hend.flash,hend.geo,hend.result⟩,?_⟩
  have hfirst : Filled v.geo v.flash v.mem (blit v.flash (b*v.geo.sector) A (512*(k+1)) v.mem) l
      (sectorEnd v.geo o) A (512*(k+1)) := blit_filled hb hle
  change Filled v.geo v.flash (blit v.flash (b*v.geo.sector) A (512*(k+1)) v.mem) w.mem l
    ((sectorEnd v.geo o/v.geo.sector+1)*v.geo.sector) (A+portion v.geo 0 m)
    (m-(v.geo.sector-sectorEnd v.geo o%v.geo.sector)) at hfill
  rw [mul_mod_left, Nat.sub_zero, Nat.mul_div_cancel _ (by omega), hk] at hfill
  rw [show n-(v.geo.sector-o%v.geo.sector) = 512*(k+1)+(m-v.geo.sector) by omega]
  by_cases hms : m ≤ v.geo.sector
  · rw [Nat.sub_eq_zero_of_le hms] at hfill ⊢
    exact hfirst.trans (filled_none.mpr (filled_none.mp hfill))
  · rw [show (o/v.geo.sector+1+1)*v.geo.sector =
      sectorEnd v.geo o+512*(k+1) by rw [succ_mul, ← hk, hp, sectorEnd]; omega] at hfill
    exact hfirst.trans hfill

/-! The call. -/

def readCall (a n o b : ℕ) (s : Card) : Card := { sought a n o b s with apiCb := some .sync }

variable {a i : ℕ} {c : ℕ → List ℕ}

theorem readAsync_found (now : ℕ) (hg : Good s) (hr : s.result ≠ errorBusy)
    (hc : Owned s.geo (dir s) (fat s) c) (hi : isFile (dir s) i) (ho : OpenFile s a i (c i))
    {len offset : UInt32} (hn : len.toNat = n) (ho' : offset.toNat = o)
    (hlen : 0 < n ∧ n%512 = 0 ∧ o%512 = 0)
    (hin : o+n ≤ (c i).length*s.geo.sector)
    (hb : (c i)[o/s.geo.sector]? = some b)
    (hk : portion s.geo o n = 512*(k+1)) (buffer : ℕ) :
    readAsync a buffer len offset (some .sync) (fine now) s = some (errorReady,
      segmenting (k+1) (b*s.geo.sector) buffer .read (readCall a n o b s)) := by
  have hsize := (Owned.linked hc hi).size
  have hq : Quiet (readCall a n o b s) := hg.quiet.same rfl
  have hfile : (sought a n o b s).file a =
      { s.file a with len := n, offset := o, iblock := b } := sought_file _ _ _ _ _
  have hs := seek_found hg.quiet.attached hr hc hi ho hin hb
  have hread := cardRead_quiet now hq (b*s.geo.sector)
    (portion s.geo o n) buffer .read
  have hport : (if s.geo.sector-o%s.geo.sector ≤ n then
      s.geo.sector-o%s.geo.sector else n) =
      portion s.geo o n := by
    unfold portion
    split <;> omega
  have hdiv : portion s.geo o n/512 = k+1 := by
    rw [hk, Nat.mul_div_cancel_left _ (by decide)]
  rw [readAsync, hn, ho', if_neg (by omega), s32_id (by omega) (by omega),
    s32_id (by omega) (by omega), hs]
  dsimp only
  rw [if_neg (by decide), hfile]
  dsimp only
  rw [u32_id (by omega)]
  change some (orPut (cardRead (b*s.geo.sector) (if s.geo.sector-o%s.geo.sector ≤
    n then s.geo.sector-o%s.geo.sector else n) (.user buffer) .read
    (fine now) (readCall a n o b s))) = _
  rw [hport, hread, hdiv]
  rfl

theorem readCall_reading (hg : Good s) (hn : 0 < n ∧ n%512 = 0 ∧ o%512 = 0)
    (hin : o+n ≤ (c i).length*s.geo.sector) (hb : (c i)[o/s.geo.sector]? = some b)
    (hk : portion s.geo o n = 512*(k+1)) :
    Reading (blockFetched (k+1) (b*s.geo.sector) A (readCall a n o b s)) (c i) o n
      (A+portion s.geo o n) := by
  have hfile : (readCall a n o b s).file a =
      { s.file a with len := n, offset := o, iblock := b } := sought_file _ _ _ _ _
  constructor
  · exact hg.quiet.same rfl
  · exact congrArg CardFile.offset hfile
  · exact congrArg CardFile.len hfile
  · exact hb.trans (congrArg some (congrArg CardFile.iblock hfile).symm)
  · rw [hk]
    rfl
  · exact hn.1
  · exact hn.2
  · exact hin

/-- A request of `n` bytes at `o`: what comes first into the buffer is the
beginning of the sector of `o`. -/
theorem readAsync_goes (now : ℕ) (hg : Good s) (hr : s.result ≠ errorBusy)
    (hc : Owned s.geo (dir s) (fat s) c) (hi : isFile (dir s) i) (ho : OpenFile s a i (c i))
    {len offset : UInt32} (hn : len.toNat = n) (ho' : offset.toNat = o)
    (hlen : 0 < n ∧ n%512 = 0 ∧ o%512 = 0)
    (hin : o+n ≤ (c i).length*s.geo.sector) (buffer : ℕ) :
    ∃ u t m, readAsync a buffer len offset (some .sync) (fine now) s = some (errorReady,u) ∧
      Rests (advance now) u t ∧ t.result = errorReady ∧ t.flash = s.flash ∧
      Filled s.geo s.flash s.mem m (c i) (o/s.geo.sector*s.geo.sector) buffer
        (portion s.geo o n) ∧ Filled s.geo s.flash m t.mem (c i)
        (o+portion s.geo o n)
        (buffer+portion s.geo o n)
        (n-portion s.geo o n) := by
  have hS := s.geo.sector_ge
  have hl := Owned.linked hc hi
  have hidx : o/s.geo.sector < (c i).length :=
    (div_lt_iff_lt_mul (by omega)).mpr (by omega)
  obtain ⟨b,hb⟩ : ∃ b, (c i)[o/s.geo.sector]? = some b :=
    ⟨_,getElem?_eq_getElem hidx⟩
  obtain ⟨k,hk⟩ := portion_aligned s.geo hlen.1 hlen.2
  have hbl := s.geo.block_end (hl.area b (mem_of_getElem? hb)).2
  have hle : 512*(k+1) ≤ s.geo.sector := by
    rw [← hk]
    exact (Nat.min_le_right _ _).trans (sub_le _ _)
  have hq : Quiet (readCall a n o b s) := hg.quiet.same rfl
  have hcall := readAsync_found now hg hr hc hi ho hn ho' hlen hin hb hk buffer
  have hgo1 := segments_goes now k (b*s.geo.sector) buffer .read hq
    ((Nat.add_le_add_left hle _).trans hbl)
  obtain ⟨w,hgo2,hend,hfill⟩ := read_goes now _
    (readCall_reading hg hlen hin hb hk) hl
  refine ⟨_,w,blit s.flash (b*s.geo.sector) buffer (512*(k+1)) s.mem,hcall,
    ⟨goes_trans hgo1 hgo2,quiet_rests hend.quiet⟩,hend.result,hend.flash,?_,?_⟩
  · rw [hk]
    exact blit_filled hb hle
  change Filled s.geo s.flash (blit s.flash (b*s.geo.sector) buffer (512*(k+1)) s.mem) w.mem (c i)
    (sectorEnd s.geo o) (buffer+portion s.geo o n)
    (n-(s.geo.sector-o%s.geo.sector)) at hfill
  by_cases hshort : n ≤ s.geo.sector-o%s.geo.sector
  · rw [Nat.sub_eq_zero_of_le hshort] at hfill
    rw [show n-portion s.geo o n = 0 by unfold portion; omega]
    exact filled_none.mpr (filled_none.mp hfill)
  · rw [show portion s.geo o n = s.geo.sector-o%s.geo.sector by
      unfold portion; omega] at hfill ⊢
    rw [next_sector]
    exact hfill

/-- `CARD_Read` fills the buffer with the bytes of the file at the offset
exactly when the beginning of the first sector cannot be told from what stands
at the offset, as at the beginning of a sector. -/
theorem read_returns_iff (now : ℕ) (hg : Good s) (hr : s.result ≠ errorBusy)
    (hc : Owned s.geo (dir s) (fat s) c) (hi : isFile (dir s) i) (ho : OpenFile s a i (c i))
    (len offset : UInt32) (hlen : 0 < len.toNat ∧ len.toNat%512 = 0 ∧ offset.toNat%512 = 0)
    (hin : offset.toNat+len.toNat ≤ (c i).length*s.geo.sector) (buffer : ℕ) :
    ∃ u t, readAsync a buffer len offset (some .sync) (fine now) s = some (errorReady,u) ∧
      Rests (advance now) u t ∧ t.result = errorReady ∧
      ((∀ j < len.toNat, t.mem (buffer+j) = fileByte s.geo s.flash (c i) (offset.toNat+j)) ↔
        ∀ j < min len.toNat (s.geo.sector-offset.toNat%s.geo.sector),
          fileByte s.geo s.flash (c i) (offset.toNat-offset.toNat%s.geo.sector+j) =
            fileByte s.geo s.flash (c i) (offset.toNat+j)) := by
  generalize hn : len.toNat = n at *
  generalize ho' : offset.toNat = o at *
  obtain ⟨u,t,m,hcall,hrest,hres,-,hfirst,hlater⟩ :=
    readAsync_goes now hg hr hc hi ho hn ho' hlen hin buffer
  refine ⟨u,t,hcall,hrest,hres,?_⟩
  have hstart : o/s.geo.sector*s.geo.sector = o-o%s.geo.sector := by
    have := div_add_mod o s.geo.sector
    rw [Nat.mul_comm] at this
    omega
  rw [hstart] at hfirst
  change _ ↔ ∀ j < portion s.geo o n, _
  have hle : portion s.geo o n ≤ n := Nat.min_le_left _ _
  generalize portion s.geo o n = x at *
  -- the bytes of the first sector, and those of the sectors behind it
  have hx : ∀ j < x, t.mem (buffer+j) =
      fileByte s.geo s.flash (c i) (o-o%s.geo.sector+j) := by
    intro j hj
    rw [hlater, if_neg (by omega), hfirst, if_pos (by omega), Nat.add_sub_cancel_left]
  constructor
  · intro h j hj
    rw [← hx j hj]
    exact h j (by omega)
  · intro h j hj
    by_cases hjx : j < x
    · rw [hx j hjx]
      exact h j hjx
    · rw [hlater, if_pos (by omega)]
      congr 1
      omega

theorem read_returns_aligned : ∃ c, Owned twoBlockCard.geo (dir twoBlockCard) (fat twoBlockCard) c ∧
    ∃ u t, readAsync 0 4096 8192 0 (some .sync) (fine 7) twoBlockCard = some (errorReady,u) ∧
      Rests (advance 7) u t ∧ ∀ j < 8192, t.mem (4096+j) =
        fileByte twoBlockCard.geo twoBlockCard.flash (c 0) j := by
  obtain ⟨c,hc⟩ := twoBlockCard_good.consistent.owned
  obtain ⟨ho,h2,h0⟩ := twoBlockCard_open hc
  have hin : (0 : UInt32).toNat+(8192 : UInt32).toNat ≤ (c 0).length*twoBlockCard.geo.sector := by
    rw [h2]
    decide
  obtain ⟨u,t,hcall,hrest,-,hiff⟩ := read_returns_iff 7 twoBlockCard_good (by decide) hc
    twoBlockCard_file ho 8192 0 (by decide) hin 4096
  refine ⟨c,hc,u,t,hcall,hrest,fun j hj => ?_⟩
  have := hiff.mpr (fun j _ => rfl) j hj
  rwa [show (0 : UInt32).toNat = 0 from rfl, Nat.zero_add] at this

/-- The byte at 512 is not the one that is read there. -/
theorem read_unaligned_wrong : ∃ c, Owned twoBlockCard.geo (dir twoBlockCard) (fat twoBlockCard) c ∧
    ∃ u t, readAsync 0 4096 512 512 (some .sync) (fine 7) twoBlockCard = some (errorReady,u) ∧
      Rests (advance 7) u t ∧ t.result = errorReady ∧
      t.mem 4096 ≠ fileByte twoBlockCard.geo twoBlockCard.flash (c 0) 512 := by
  obtain ⟨c,hc⟩ := twoBlockCard_good.consistent.owned
  obtain ⟨ho,h2,h0⟩ := twoBlockCard_open hc
  have hin : (512 : UInt32).toNat+(512 : UInt32).toNat ≤ (c 0).length*twoBlockCard.geo.sector := by
    rw [h2]
    decide
  obtain ⟨u,t,m,hcall,hrest,hres,-,hfirst,hlater⟩ := readAsync_goes 7 twoBlockCard_good
    (by decide) hc twoBlockCard_file ho rfl rfl (by decide) hin 4096
  refine ⟨c,hc,u,t,hcall,hrest,hres,?_⟩
  have h1 : fileByte twoBlockCard.geo twoBlockCard.flash (c 0) 512 = 1 := by
    rw [fileByte, show 512/twoBlockCard.geo.sector = 0 by decide, getD_eq_getElem?_getD, h0]
    rfl
  have h3 : t.mem 4096 = fileByte twoBlockCard.geo twoBlockCard.flash (c 0) 0 := by
    rw [hlater, if_neg (by decide), hfirst, if_pos (by decide)]
    rfl
  have h4 : fileByte twoBlockCard.geo twoBlockCard.flash (c 0) 0 = 0 := by
    rw [fileByte, show 0/twoBlockCard.geo.sector = 0 by decide, getD_eq_getElem?_getD, h0]
    rfl
  rw [h3, h4, h1]
  decide

end Libogc.CardReadFile
