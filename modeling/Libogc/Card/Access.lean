import Libogc.Card.Consistency

/-!
# Positions in a file

A file handle stands in the block of the chain that belongs to its offset.
`CARD_Open` puts it there, and `__card_seek` moves it to the block of the
offset that is asked for.
-/

set_option autoImplicit false

namespace Libogc.CardAccess
open List Nat Option Function Prod
open ByteStore CardLayout CardControl CardCallbacks CardCalls CardFatLoops CardTables LinkedChain
open CardConsistency CardTransfer CardEntries

variable {s : Card} {f : Bytes} {l : List ℕ}

variable {g : Geometry} {b o : ℕ}

theorem chain_next {o : Option ℕ} (h : Chain (fatNext f) o l) {j b' : ℕ} (hb : l[j]? = some b)
    (hb' : l[j+1]? = some b') : fatWord f b = b' := by
  induction h generalizing j with
  | nil => exact absurd hb (by simp)
  | @cons a l h ih =>
    cases j with
    | zero =>
      obtain rfl : a = b := by simpa using hb
      have hf := h.first_eq
      rw [show l.head? = some b' by simpa [List.head?_eq_getElem?] using hb', fatNext, nextOf] at hf
      split at hf
      · exact absurd hf (by simp)
      · exact some.inj hf
    | succ j => exact ih (by simpa using hb) (by simpa using hb')

/-- A list of blocks in the order of the links. -/
structure Linked (g : Geometry) (f : Bytes) (l : List ℕ) : Prop where
  next : ∀ j b b', l[j]? = some b → l[j+1]? = some b' → fatWord f b = b'
  area : ∀ k ∈ l, inArea g.blocks k
  nodup : l.Nodup

theorem Owned.linked {d : Bytes} {c : ℕ → List ℕ} (h : Owned g d f c) {i : ℕ} (hi : isFile d i) :
    Linked g f (c i) :=
  ⟨fun _ _ _ => chain_next (h.chain i hi),h.area i hi,h.nodup i hi⟩

theorem Linked.size (h : Linked g f l) : l.length*g.sector ≤ 16777216 := by
  have hsub : l ⊆ List.range' sysArea (g.blocks-sysArea) := fun j hj => mem_area.mpr (h.area j hj)
  have hle := (subperm_of_subset h.nodup hsub).length_le
  rw [length_range'] at hle
  exact (mul_le_mul_right _ (hle.trans (sub_le _ _))).trans g.blocks_sector_le

theorem Linked.inside (h : Linked s.geo f l) {j : ℕ} (hb : l[j]? = some b) : ¬outside s b := by
  have ha := h.area b (mem_of_getElem? hb)
  unfold outside
  have := ha.1
  have := ha.2
  omega

/-- The handle `a` is that of the file `i` with the blocks `l`. -/
structure OpenFile (s : Card) (a i : ℕ) (l : List ℕ) : Prop where
  chn : chnOk (s.file a).chn = true
  num : (s.file a).filenum = i
  offset : 0 ≤ (s.file a).offset
  block : l[(s.file a).offset.toNat/s.geo.sector]? = some (s.file a).iblock

theorem seekLoop_finds (h : Linked g f l) {t : ℕ} (n : ℕ) (p : CardFile) (hn : t-o/g.sector ≤ n)
    (hq : o/g.sector ≤ t) (ht : l[t]? = some b) (ho : p.offset = o)
    (hp : l[o/g.sector]? = some p.iblock) : ∃ o', seekLoop g.blocks g.sector (t*g.sector) f n p =
      ({ p with offset := o', iblock := b },true) := by
  have hS := g.sector_ge
  have htl : t < l.length := (List.getElem?_eq_some_iff.mp ht).1
  have htS : t*g.sector+g.sector ≤ 16777216 :=
    ((succ_mul t g.sector).symm.le.trans (mul_le_mul_right _ htl)).trans h.size
  -- the loop ends in the block of `t`
  have stop : o/g.sector = t → ({ p with offset := p.offset, iblock := b } : CardFile) = p := by
    intro he
    rw [he] at hp
    rw [← mem_unique hp ht]
  induction n generalizing o p with
  | zero => exact ⟨p.offset,by rw [seekLoop, stop (by omega)]⟩
  | succ n ih =>
    have hlt32 : o < (t+1)*g.sector := (div_lt_iff_lt_mul (by omega)).mp (by omega)
    rw [succ_mul] at hlt32
    have hin := (h.area _ (mem_of_getElem? hp)).2
    rw [seekLoop, ho, u32_id (by omega)]
    by_cases hlt : o < t*g.sector
    · have hq' : o/g.sector < t := (div_lt_iff_lt_mul (by omega)).mpr hlt
      have hnext : (o+g.sector)/g.sector = o/g.sector+1 := add_div_right o (by omega)
      obtain ⟨b',hb'⟩ : ∃ b', l[o/g.sector+1]? = some b' :=
        ⟨_,List.getElem?_eq_getElem (by omega)⟩
      have ha := h.area _ (mem_of_getElem? hb')
      have hoff : s32 ((o : ℤ)+g.sector) = ((o+g.sector : ℕ) : ℤ) := by
        rw [s32_id (by omega) (by omega)]
        omega
      rw [if_pos ⟨hin,hlt⟩]
      dsimp only
      rw [h.next _ _ _ hp hb', if_neg (by have := ha.1; have := ha.2; omega), hoff]
      have hp' : l[(o+g.sector)/g.sector]? = some b' := by rw [hnext, hb']
      refine ih { p with offset := ((o+g.sector : ℕ) : ℤ), iblock := b' }
        (by omega) (by omega) rfl hp' ?_
      intro he
      rw [he] at hp'
      rw [← mem_unique hp' ht]
    · have he : o/g.sector = t :=
        Nat.le_antisymm hq ((le_div_iff_mul_le (by omega)).mpr (by omega))
      exact ⟨p.offset,by rw [if_neg (by omega), stop he]⟩

def sought (a : ℕ) (len offset : ℤ) (b : ℕ) (s : Card) : Card :=
  setFile a { s.file a with len := len, offset := offset, iblock := b }
    { taken s with currFile := a }

theorem sought_file (a : ℕ) (len offset : ℤ) (b : ℕ) (s : Card) :
    (sought a len offset b s).file a =
      { s.file a with len := len, offset := offset, iblock := b } :=
  update_self _ _ _

theorem setFile_setFile (a : ℕ) (p q : CardFile) (s : Card) :
    setFile a p (setFile a q s) = setFile a p s := by
  simp only [setFile, update_idem]

variable {a i : ℕ} {c : ℕ → List ℕ}

theorem Owned.first {d : Bytes} (h : Owned g d f c) (hi : isFile d i) :
    (c i)[0]? = some (entryBlock d i) := by
  rw [← List.head?_eq_getElem?, ← (h.chain i hi).first_eq]

section

variable (hc : Owned s.geo (dir s) (fat s) c) (hi : isFile (dir s) i) (ho : OpenFile s a i (c i))
include hc hi ho

theorem seekEntry_length : s32 (entryLength (dir s) (s.file a).filenum.toNat*s.geo.sector : ℤ) =
      ((c i).length*s.geo.sector : ℕ) := by
  have hsize := (Owned.linked hc hi).size
  rw [ho.num, Int.toNat_natCast, ← hc.length i hi, s32_id (by omega) (by omega)]
  push_cast
  rfl

theorem seekEntry_found {n : ℤ} (hsum : s32 ((o : ℤ)+n) ≤ ((c i).length*s.geo.sector : ℕ))
    (hb : (c i)[o/s.geo.sector]? = some b) : seekEntry a n o s = (errorReady,true,setFile a
      { s.file a with len := n, offset := o, iblock := b } { s with currFile := a }) := by
  have hl : Linked s.geo (fat s) (c i) := Owned.linked hc hi
  have hsize := hl.size
  have hS := s.geo.sector_ge
  have hin : o < (c i).length*s.geo.sector :=
    (div_lt_iff_lt_mul (by omega)).mp (List.getElem?_eq_some_iff.mp hb).1
  unfold seekEntry
  dsimp only
  rw [seekEntry_length hc hi ho, if_neg (by omega)]
  -- the handle after it has been turned back, and the index of its block
  obtain ⟨q,hq,hqo,hqb⟩ : ∃ q : ℕ, (rewound (dir s) o { s.file a with len := n }).offset = q ∧
      q/s.geo.sector ≤ o/s.geo.sector ∧ (c i)[q/s.geo.sector]? =
        some (rewound (dir s) o { s.file a with len := n }).iblock := by
    unfold rewound
    have h0 := ho.offset
    dsimp only
    split
    · refine ⟨0,rfl,by simp,?_⟩
      rw [Nat.zero_div, Owned.first hc hi, ho.num, Int.toNat_natCast]
    · rename_i hle
      exact ⟨(s.file a).offset.toNat,(Int.toNat_of_nonneg h0).symm,
        Nat.div_le_div_right (by omega),ho.block⟩
  have hrest : ∀ o', ({ (rewound (dir s) o { s.file a with len := n }) with
      offset := o', iblock := b } : CardFile) =
        { s.file a with len := n, offset := o', iblock := b } := by
    intro o'
    unfold rewound
    split <;> rfl
  generalize rewound (dir s) o { s.file a with len := n } = p at *
  have hout : ¬outside (setFile a p { s with currFile := a }) p.iblock := hl.inside hqb
  rw [if_neg hout, u32_id (by omega)]
  have hdiv : o/s.geo.sector*s.geo.sector/s.geo.sector = o/s.geo.sector :=
    Nat.mul_div_cancel _ (by omega)
  obtain ⟨o',hloop⟩ := seekLoop_finds hl (o/s.geo.sector) p (sub_le _ _) hqo hb hq hqb
  have hfound : ∀ t : Card, t.geo = s.geo → fat t = fat s →
      seekLoop t.geo.blocks t.geo.sector (o/t.geo.sector*t.geo.sector) (fat t)
        (o/t.geo.sector*t.geo.sector/t.geo.sector) p =
          ({ p with offset := o', iblock := b },true) := by
    intro t hg hf
    rw [hg, hf, hdiv]
    exact hloop
  rw [hfound (setFile a p { s with currFile := a }) rfl rfl]
  dsimp only
  rw [setFile_setFile, hrest]

end

section

variable (hat : s.attached = true) (hr : s.result ≠ errorBusy) (hc : Owned s.geo (dir s) (fat s) c)
include hat hr hc

theorem seek_entry (hi : isFile (dir s) i) (ho : OpenFile s a i (c i))
    (n o : ℤ) : seek a n o s = seekEntry a n o (taken s) := by
  have hl : Linked s.geo (fat s) (c i) := Owned.linked hc hi
  have hmax := hi.1
  have hout : ¬outside (taken s) (s.file a).iblock := hl.inside ho.block
  unfold seek
  dsimp only
  rw [ho.num, if_neg (by omega), getCntrlBlock_taken ho.chn hat hr]
  have hu : used (dir (taken s)) (i : ℤ).toNat = true := hi.2
  dsimp only
  rw [if_neg (by decide), if_neg hout, hu, if_neg (by decide)]

theorem seek_finds (hi : isFile (dir s) i) (ho : OpenFile s a i (c i))
    {n : ℤ} (hsum : s32 ((o : ℤ)+n) ≤ ((c i).length*s.geo.sector : ℕ))
    (hb : (c i)[o/s.geo.sector]? = some b) : seek a n o s = (errorReady,true,sought a n o b s) :=
  (seek_entry hat hr hc hi ho n o).trans
    (seekEntry_found (s := taken s) hc hi ⟨ho.chn,ho.num,ho.offset,ho.block⟩ hsum hb)

theorem seek_found (hi : isFile (dir s) i) (ho : OpenFile s a i (c i))
    {n : ℕ} (hon : o+n ≤ (c i).length*s.geo.sector) (hb : (c i)[o/s.geo.sector]? = some b) :
    seek a n o s = (errorReady,true,sought a n o b s) := by
  have hsize := (Owned.linked hc hi).size
  refine seek_finds hat hr hc hi ho ?_ hb
  rw [s32_id (by omega) (by omega)]
  omega

end

/-! Offsets that the file does not have. -/

theorem seekLoop_off {n q : ℕ} (p : CardFile) (hc : Chain (fatNext f) (some p.iblock) l)
    (ha : ∀ k ∈ l, inArea g.blocks k) (ho : p.offset = o) (ht : o+l.length*g.sector ≤ q)
    (h31 : o+l.length*g.sector < 2147483648) (hn : l.length ≤ n) :
    (seekLoop g.blocks g.sector q f n p).2 = false := by
  have hS := g.sector_ge
  have hb := g.blocks_le
  induction l generalizing n o p with
  | nil => exact absurd hc.first_eq nofun
  | cons b l ih =>
    obtain rfl : p.iblock = b := by simpa using hc.first_eq
    obtain ⟨n,rfl⟩ : ∃ m, n = m+1 := ⟨n-1,by simp at hn; omega⟩
    rw [length_cons, succ_mul] at ht h31
    have hin := ha p.iblock mem_cons_self
    have htail := hc.tail
    have hoff : s32 (p.offset+g.sector) = ((o+g.sector : ℕ) : ℤ) := by
      rw [s32_id (by omega) (by omega)]
      omega
    rw [seekLoop, if_pos ⟨hin.2,by rw [ho, u32_id (by omega)]; omega⟩]
    dsimp only
    split
    · rfl
    rename_i hword
    refine ih _ ?_ (fun k hk => ha k (mem_cons_of_mem _ hk)) hoff (by omega)
      (by omega) (by simpa using hn)
    rw [fatNext, nextOf, if_neg (by omega)] at htail
    exact htail

section

variable (hc : Owned s.geo (dir s) (fat s) c) (hi : isFile (dir s) i) (ho : OpenFile s a i (c i))
include hc hi ho

theorem seekEntry_negative (n : ℤ) {o : ℤ} (h0 : -2147483648 ≤ o) (h1 : o < 0) :
    (seekEntry a n o s).1 ≠ errorReady := by
  have hl : Linked s.geo (fat s) (c i) := Owned.linked hc hi
  have hsize := hl.size
  have hS := s.geo.sector_ge
  have hS' := s.geo.sector_le
  have hoff := ho.offset
  unfold seekEntry
  dsimp only
  split
  · exact show errorLimit ≠ errorReady by decide
  have hrew : rewound (dir s) o { s.file a with len := n } =
      { s.file a with len := n, offset := 0, iblock := entryBlock (dir s) i } := by
    rw [rewound, if_pos (show o < (s.file a).offset by omega)]
    dsimp only
    rw [ho.num, Int.toNat_natCast]
  rw [hrew]
  split
  · exact show errorBroken ≠ errorReady by decide
  have htarget : (c i).length ≤ u32 o/s.geo.sector := by
    rw [le_div_iff_mul_le (by omega)]
    unfold u32
    omega
  have hfalse := seekLoop_off (o := 0)
    (q := u32 o/s.geo.sector*s.geo.sector)
    { s.file a with len := n, offset := 0, iblock := entryBlock (dir s) i } (hc.chain i hi)
    (hc.area i hi) rfl (by rw [Nat.zero_add]; exact mul_le_mul_right _ htarget) (by omega) htarget
  have hloop : ∀ t : Card, t.geo = s.geo → fat t = fat s →
      (seekLoop t.geo.blocks t.geo.sector (u32 o/t.geo.sector*t.geo.sector) (fat t)
        (u32 o/t.geo.sector*t.geo.sector/t.geo.sector)
        { s.file a with len := n, offset := 0, iblock := entryBlock (dir s) i }).2 = false := by
    intro t hg hf
    rw [hg, hf, Nat.mul_div_cancel _ (by omega)]
    exact hfalse
  have hend := hloop
    (setFile a { s.file a with len := n, offset := 0, iblock := entryBlock (dir s) i }
    { s with currFile := a }) rfl rfl
  generalize seekLoop _ _ _ _ _ _ = r at hend
  obtain ⟨q,ok⟩ := r
  subst hend
  exact show errorBroken ≠ errorReady by decide

theorem seekEntry_beyond (n : ℤ) {o : ℤ}
    (h : ((c i).length*s.geo.sector : ℕ) ≤ o ∨ ((c i).length*s.geo.sector : ℕ) < s32 (o+n)) :
    (seekEntry a n o s).1 ≠ errorReady := by
  unfold seekEntry
  dsimp only
  rw [seekEntry_length hc hi ho, if_pos h]
  exact show errorLimit ≠ errorReady by decide

end

theorem seek_refused (hi : isFile (dir s) i) (ho : OpenFile s a i l) (n o : ℤ)
    (h : s.attached = false ∨ s.result = errorBusy) : (seek a n o s).1 ≠ errorReady := by
  have hmax := hi.1
  have hg : ∃ ret < 0, getCntrlBlock (s.file a).chn s = (ret,s) := by
    obtain hg | ⟨-,ha,hr,-⟩ := getCntrlBlock_cases (s.file a).chn s
    · exact hg
    · obtain h | h := h
      · exact absurd (ha.symm.trans h) nofun
      · exact absurd h hr
  obtain ⟨ret,hret,hg⟩ := hg
  unfold seek
  dsimp only
  rw [ho.num, if_neg (by omega), hg]
  rw [if_pos hret]
  exact Int.ne_of_lt hret

/-- The numbers are 32 bits wide, and `__card_seek` takes them as signed ones. -/
theorem seek_exact (hc : Owned s.geo (dir s) (fat s) c) (hi : isFile (dir s) i)
    (ho : OpenFile s a i (c i)) (len offset : UInt32) :
    (∀ set t, seek a (s32 len.toNat) (s32 offset.toNat) s = (errorReady,set,t) →
        offset.toNat+len.toNat ≤ entryLength (dir s) i*s.geo.sector ∧
        (c i)[offset.toNat/s.geo.sector]? = some (t.file a).iblock ∧
        (t.file a).offset = offset.toNat ∧ OpenFile t a i (c i)) ↔
      s.attached = false ∨ s.result = errorBusy ∨
        entryLength (dir s) i*s.geo.sector ≤ offset.toNat ∨ offset.toNat+len.toNat <
          2147483648 := by
  have hsize := (Owned.linked hc hi).size
  have hS := s.geo.sector_ge
  have hl32 := len.toNat_lt
  have ho32 := offset.toNat_lt
  rw [← hc.length i hi]
  -- what a free card does with an offset that the file has
  have hfound : s.attached = true → s.result ≠ errorBusy →
      offset.toNat < (c i).length*s.geo.sector →
      s32 ((offset.toNat : ℤ)+s32 len.toNat) ≤ ((c i).length*s.geo.sector : ℕ) →
      ∃ b, (c i)[offset.toNat/s.geo.sector]? = some b ∧
        seek a (s32 len.toNat) (s32 offset.toNat) s =
          (errorReady,true,sought a (s32 len.toNat) offset.toNat b s) := by
    intro hat hr hin hsum
    have hj : offset.toNat/s.geo.sector < (c i).length := (div_lt_iff_lt_mul (by omega)).mpr hin
    have hb := List.getElem?_eq_getElem hj
    refine ⟨_,hb,?_⟩
    rw [s32_id (x := (offset.toNat : ℤ)) (by omega) (by omega)]
    exact seek_finds hat hr hc hi ho hsum hb
  constructor
  · intro h
    by_contra hcon
    obtain ⟨hat,hr,hin,hbig⟩ : s.attached = true ∧ s.result ≠ errorBusy ∧
        offset.toNat < (c i).length*s.geo.sector ∧ 2147483648 ≤ offset.toNat+len.toNat := by
      simpa only [not_or, Bool.not_eq_false, Nat.not_le, Nat.not_lt, ne_eq] using hcon
    obtain ⟨b,hb,hs⟩ := hfound hat hr hin (by unfold s32; omega)
    have := (h _ _ hs).1
    omega
  · intro h set t hs
    have hne : (seek a (s32 len.toNat) (s32 offset.toNat) s).1 = errorReady := by rw [hs]
    by_cases hav : s.attached = false ∨ s.result = errorBusy
    · exact absurd hne (seek_refused hi ho _ _ hav)
    obtain ⟨hat,hr⟩ : s.attached = true ∧ s.result ≠ errorBusy := by simpa using hav
    have hent := seek_entry hat hr hc hi ho (s32 len.toNat) (s32 offset.toNat)
    have ho' : OpenFile (taken s) a i (c i) := ⟨ho.chn,ho.num,ho.offset,ho.block⟩
    rw [hent] at hne
    have hin : offset.toNat < (c i).length*s.geo.sector := by
      by_contra hout
      by_cases hneg : offset.toNat < 2147483648
      · refine seekEntry_beyond (s := taken s) hc hi ho' _ (.inl ?_) hne
        rw [s32_id (by omega) (by omega)]
        exact Int.ofNat_le.mpr (Nat.not_lt.mp hout)
      · refine seekEntry_negative (s := taken s) hc hi ho' _ ?_ ?_ hne <;> unfold s32 <;> omega
    have hsum : offset.toNat+len.toNat < 2147483648 := by
      obtain h | h | h | h := h
      · exact absurd (hat.symm.trans h) nofun
      · exact absurd h hr
      · omega
      · exact h
    have hoff : s32 offset.toNat = offset.toNat := s32_id (by omega) (by omega)
    have hlen : s32 ((offset.toNat : ℤ)+s32 len.toNat) = (offset.toNat+len.toNat : ℕ) := by
      rw [s32_id (x := (len.toNat : ℤ)) (by omega) (by omega), s32_id (by omega) (by omega)]
      push_cast
      rfl
    have hle : offset.toNat+len.toNat ≤ (c i).length*s.geo.sector := by
      by_contra hout
      refine seekEntry_beyond (s := taken s) hc hi ho' _ (.inr ?_) hne
      rw [hoff, hlen]
      exact Int.ofNat_lt.mpr (Nat.not_le.mp hout)
    obtain ⟨b,hb,hs'⟩ := hfound hat hr hin (hlen ▸ Int.ofNat_le.mpr hle)
    have ht : t = sought a (s32 len.toNat) offset.toNat b s :=
      congrArg (fun r => r.2.2) (hs.symm.trans hs')
    have hfile := sought_file a (s32 len.toNat) offset.toNat b s
    rw [ht]
    refine ⟨hle,by rw [hfile]; exact hb,by rw [hfile],?_⟩
    constructor <;> rw [hfile]
    · exact ho.chn
    · exact ho.num
    · exact Int.natCast_nonneg _
    · exact hb

/-! Opening a file. -/

theorem putCntrlBlock_file (ret : ℤ) (s : Card) : (putCntrlBlock ret s).file = s.file := by
  unfold putCntrlBlock
  split
  · rfl
  · split <;> rfl

theorem putCntrlBlock_geo (ret : ℤ) (s : Card) : (putCntrlBlock ret s).geo = s.geo :=
  congrArg fst (putCntrlBlock_same ret s).2

/-- A file that is found is opened and stands at its first block. -/
theorem openWith_open {chn : ℤ} {name gamecode company : Bytes}
    (hc : Owned s.geo (dir s) (fat s) c) (hchn : chnOk chn = true) (hat : s.attached = true)
    (hr : s.result ≠ errorBusy) (hfile : getFileNum (dir s) name gamecode company = some i) :
    ∃ t, openWith chn name gamecode company a s = (errorReady,t) ∧ tables t = tables s ∧
      OpenFile t a i (c i) := by
  have hi : isFile (dir s) i := getFileNum_some hfile
  have hfirst := Owned.first hc hi
  have hin := hc.area i hi _ (mem_of_getElem? hfirst)
  have hg : getCntrlBlock chn (setFile a { s.file a with filenum := -1 } s) =
      (errorReady,taken (setFile a { s.file a with filenum := -1 } s)) :=
    getCntrlBlock_taken hchn hat hr
  have hout : ¬outside (taken (setFile a { s.file a with filenum := -1 } s))
      (entryBlock (dir s) i) := not_or.mpr ⟨Nat.not_lt.mpr hin.1,Nat.not_le.mpr hin.2⟩
  refine ⟨putCntrlBlock errorReady (setFile a
    ⟨chn,i,0,s32 (entryLength (dir s) i*s.geo.sector),entryBlock (dir s) i⟩
      (taken (setFile a { s.file a with filenum := -1 } s))),?_,(putCntrlBlock_same _ _).2,?_⟩
  · have hdir : dir (taken (setFile a { s.file a with filenum := -1 } s)) = dir s := rfl
    rw [openWith, if_neg (by simp [hchn]), hg]
    dsimp only
    rw [if_neg (by decide), hdir, hfile]
    dsimp only
    rw [if_neg hout]
    rfl
  constructor <;> rw [putCntrlBlock_file]
  · simpa [setFile] using hchn
  · simp [setFile]
  · simp [setFile]
  · rw [putCntrlBlock_geo]
    simp only [setFile, update_self, Int.toNat_zero, Nat.zero_div]
    exact hfirst

/-! A card with one file of two blocks, which is open. -/

def twoBlockDir : Bytes :=
  newDir (createdEntry (fun _ => 255) (fun _ => 255) 5 0 (entry 0)
    (namedEntry shortName 2 0 blankDir))

def twoBlockFat : Bytes := newFat (allocated [5,6] 6 (blankFat plainCard.geo 1))

def twoBlockCard : Card :=
  { plainCard with
    work := fun k => if k = 1 then twoBlockDir else twoBlockFat,
    file := fun _ => ⟨0,0,0,0,5⟩,
    flash := fun o => if o = 41472 then 1 else 0 }

theorem twoBlockCard_quiet : Quiet twoBlockCard := plainCard_quiet.same rfl

theorem twoBlockCard_dir : dir twoBlockCard = twoBlockDir := by
  simp [dir, twoBlockCard, plainCard]

theorem twoBlockCard_fat : fat twoBlockCard = twoBlockFat := by
  simp [fat, twoBlockCard, plainCard]

theorem twoBlock_consistent : Consistent plainCard.geo twoBlockDir twoBlockFat := by
  refine consistent_created (blank_consistent plainCard.geo 1) (l := [5,6])
    (fun _ => 255) (fun _ => 255) (by decide) (blankDir_used (by decide)) (by decide) rfl
      (by decide)
    ?_ (by decide) ?_ ?_
  · rw [blankFat_free]
    decide
  · intro k hk
    simp only [mem_cons, not_mem_nil, or_false] at hk
    obtain rfl | rfl := hk
    · exact ⟨by decide,by decide⟩
    · exact ⟨by decide,by decide⟩
  · intro k hk
    simp only [mem_cons, not_mem_nil, or_false] at hk
    obtain rfl | rfl := hk
    · exact blankFat_word _ _ (by decide)
    · exact blankFat_word _ _ (by decide)

theorem twoBlockCard_good : Good twoBlockCard :=
  ⟨twoBlockCard_quiet,⟨.inl rfl,.inl rfl⟩,by
    rw [ConsistentCard, twoBlockCard_dir, twoBlockCard_fat]
    exact twoBlock_consistent⟩

theorem twoBlockDir_entry : used twoBlockDir 0 = true ∧ entryBlock twoBlockDir 0 = 5 ∧
    entryLength twoBlockDir 0 = 2 := by
  obtain ⟨h1,h2,h3⟩ := newDir_sameEntry (createdEntry (fun _ => 255) (fun _ => 255) 5 0 (entry 0)
    (namedEntry shortName 2 0 blankDir)) (i := 0) (by decide)
  refine ⟨h1.trans (createdEntry_used _ _ _ _ _),
    h2.trans (createdEntry_block _ _ _ _ _ (by decide)),
    h3.trans ((createdEntry_length _ _ _ _ _).trans
      (namedEntry_length _ _ _ (by decide) (by decide)))⟩

theorem twoBlockCard_file : isFile (dir twoBlockCard) 0 := by
  exact ⟨by decide,twoBlockDir_entry.1⟩

theorem twoBlockCard_open (hc : Owned twoBlockCard.geo (dir twoBlockCard) (fat twoBlockCard) c) :
    OpenFile twoBlockCard a 0 (c 0) ∧ (c 0).length = 2 ∧ (c 0)[0]? = some 5 := by
  have h0 := Owned.first hc twoBlockCard_file
  have h2 := hc.length 0 twoBlockCard_file
  refine ⟨⟨rfl,rfl,Int.le_refl 0,?_⟩,h2,h0⟩
  rw [show (twoBlockCard.file a).offset.toNat/twoBlockCard.geo.sector = 0 from Nat.zero_div _]
  exact h0

theorem seek_exact_second : ∃ c, Owned twoBlockCard.geo (dir twoBlockCard) (fat twoBlockCard) c ∧
    ∃ t, seek 0 (s32 (512 : UInt32).toNat) (s32 (8192 : UInt32).toNat) twoBlockCard =
      (errorReady,true,t) ∧ (c 0)[1]? = some (t.file 0).iblock ∧ (t.file 0).offset = 8192 := by
  obtain ⟨c,hc⟩ := twoBlockCard_good.consistent.owned
  obtain ⟨ho,h2,-⟩ := twoBlockCard_open hc
  have hb : (c 0)[8192/twoBlockCard.geo.sector]? = some ((c 0)[1]) := getElem?_eq_getElem _
  have hs := seek_finds (n := s32 (512 : UInt32).toNat) (o := 8192) rfl (by decide)
    hc twoBlockCard_file ho (by rw [h2]; decide) hb
  have hoff : s32 (8192 : UInt32).toNat = (8192 : ℕ) := by decide
  rw [← hoff] at hs
  obtain ⟨-,hblock,hfile,-⟩ := (seek_exact hc twoBlockCard_file ho 512 8192).mpr
    (.inr (.inr (.inr (by decide)))) _ _ hs
  exact ⟨c,hc,_,hs,hblock,hfile.trans (by decide)⟩

/-- A length with its sign bit set passes the check of the end. -/
theorem seek_past_end : entryLength (dir twoBlockCard) 0*twoBlockCard.geo.sector = 16384 ∧
    (seek 0 (s32 (2147483648 : UInt32).toNat) (s32 (0 : UInt32).toNat) twoBlockCard).1 =
      errorReady := by
  obtain ⟨c,hc⟩ := twoBlockCard_good.consistent.owned
  obtain ⟨ho,h2,h0⟩ := twoBlockCard_open hc
  refine ⟨by rw [twoBlockCard_dir]; rfl,?_⟩
  have hs := seek_finds (n := s32 (2147483648 : UInt32).toNat) (o := 0) rfl (by decide)
    hc twoBlockCard_file ho (by rw [h2]; decide) (by rw [Nat.zero_div]; exact h0)
  have hz : s32 (0 : UInt32).toNat = (0 : ℕ) := by decide
  rw [hz, hs]

end Libogc.CardAccess
