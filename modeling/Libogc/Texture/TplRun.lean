import Libogc.Texture.Tpl
import Libogc.Library.GuardedReach
import Mathlib.Data.List.Perm.Basic

/-!
# Requests and the blocks of a TPL file

As long as no header is requested twice, each object holds the bytes of the
file, and the blocks in use are the descriptors, the headers and the data that has
been loaded. Closing the file frees what the `data` fields hold; these are
blocks only if all of them have been loaded.
-/

set_option autoImplicit false

namespace Libogc.TplRun
open List ByteStore Tpl GuardedReach Nat Option Function Prod

/-- The bytes of one level of an image: its tiles have 8x8, 8x4 or 4x4 texels. -/
def levelSize (fmt width height : ℕ) : ℕ :=
  if fmt = 0 ∨ fmt = 8 ∨ fmt = 14 then (width+7)/8*((height+7)/8)*32
  else if fmt = 1 ∨ fmt = 2 ∨ fmt = 9 then (width+7)/8*((height+3)/4)*32
  else if fmt = 6 then (width+3)/4*((height+3)/4)*64
  else (width+3)/4*((height+3)/4)*32

def levelsSize (fmt : ℕ) : ℕ → ℕ → ℕ → ℕ
  | 0, width, height => levelSize fmt width height
  | n+1, width, height => levelSize fmt width height+
      levelsSize fmt n (max 1 (width/2)) (max 1 (height/2))

def dataSize (h : ImgHeader) : ℕ := levelsSize h.fmt h.maxlod h.width h.height

def firstLevel (h : ImgHeader) : ℕ := levelSize h.fmt h.width h.height

theorem firstLevel_le (h : ImgHeader) : firstLevel h ≤ dataSize h := by
  unfold firstLevel dataSize
  cases h.maxlod with
  | zero => exact Nat.le_refl _
  | succ n => exact le_add_right _ _

def Known (fmt : ℕ) : Prop := fmt ≤ 6 ∨ fmt = 8 ∨ fmt = 9 ∨ fmt = 10 ∨ fmt = 14

def imgOf (f : File) (c : ℕ) : ImgHeader := imgHeader f.bytes (descriptor f c).1

def palOf (f : File) (c : ℕ) : Option PalHeader :=
  if (descriptor f c).2 = 0 then none else some (palHeader f.bytes (descriptor f c).2)

/-- All headers and data that the file names lie in it. -/
structure WellFormed (f : File) : Prop where
  length : f.length < 2147483648
  table : 12+8*ntextures f ≤ f.length
  heads : ∀ c < ntextures f, (descriptor f c).1+36 ≤ f.length ∧
    ((descriptor f c).2 = 0 ∨ (descriptor f c).2+12 ≤ f.length)
  image : ∀ c < ntextures f, Known (imgOf f c).fmt ∧
    (imgOf f c).data+dataSize (imgOf f c) ≤ f.length
  palette : ∀ c < ntextures f, ∀ p ∈ palOf f c, p.data+p.nitems*2 ≤ f.length

theorem level_le_size {width height fmt : ℕ} (hk : Known fmt) (hw : width < 65536)
    (hs : levelSize fmt width height < 2147483648) :
    levelSize fmt width height ≤ getTextureSize width height fmt := by
  unfold levelSize getTextureSize at *
  split_ifs at * with h4 h8 h16 h32
  · exact Nat.le_of_eq (mod_eq_of_lt (by omega)).symm
  · have hle : (height+3)/4 ≤ (height+7)/4 := Nat.div_le_div_right (by omega)
    have hmul := mul_le_mul_left ((width+7)/8) hle
    have hup : (width+7)/8*((height+7)/4) ≤ (width+7)/8*((height+3)/4)+(width+7)/8 := by
      rw [← mul_succ]
      exact mul_le_mul_left _ (by omega)
    omega
  · omega
  · rw [mod_eq_of_lt (by omega)]
    omega
  · exact Nat.le_of_eq (mod_eq_of_lt (by omega)).symm
  · unfold Known at hk
    omega

def dataBlocks (loaded : Bool) (data : ℕ) : List ℕ := if loaded ∧ data ≠ 0 then [data] else []

def palBlocks : Option (Held PalHeader) → List ℕ
  | none => []
  | some p => dataBlocks p.loaded p.head.data++[p.block]

def blocks (t : Texture) : List ℕ :=
  dataBlocks t.img.loaded t.img.head.data++t.img.block::palBlocks t.pal

def fileBytes (f : File) (pos size i : ℕ) : Option UInt8 :=
  if i < size ∧ pos+i < f.length then some (f.bytes (pos+i)) else none

structure Heads (f : File) (c : ℕ) (t : Texture) : Prop where
  img : { t.img.head with data := (imgOf f c).data } = imgOf f c
  imgData : t.img.loaded = false → t.img.head = imgOf f c
  pal : ∀ p, t.pal = some p → ∃ h, palOf f c = some h ∧ { p.head with data := h.data } = h ∧
    (p.loaded = false → p.head = h)

structure Given (f : File) (s : State) (o : Object) : Prop where
  id : o.id < ntextures f
  tex : o.tex = { texObj (imgOf f o.id) o.tex.tlut with data := o.tex.data }
  live : o.tex.data ∈ s.live
  image : s.contents o.tex.data = fileBytes f (imgOf f o.id).data
    (getTextureSize (imgOf f o.id).width (imgOf f o.id).height (imgOf f o.id).fmt)
  tlut : ∀ l, o.tlut = some l → ∃ h, palOf f o.id = some h ∧ l = ⟨l.data,h.fmt,h.nitems⟩ ∧
    l.data ∈ s.live ∧ s.contents l.data = fileBytes f h.data (h.nitems*2)

structure Inv (f : File) (s : State) : Prop where
  file : s.file = f
  count : s.textures.length = ntextures f
  heads : ∀ c t, s.textures[c]? = some t → Heads f c t
  blocks : s.allocated.Perm (s.texdesc::s.textures.flatMap blocks)
  live : s.live = s.allocated
  nodup : s.allocated.Nodup
  freed : s.freed = []
  objects : ∀ o ∈ s.objects, Given f s o

variable {f : File} {s' : State} {t : Texture} {o : Object} {l : List Texture} {c a b pos : ℕ}
  {t' : Texture} {answers : List (Option ℕ)}

theorem Given.frame {s : State} (h : Given f s o) (hl : ∀ a ∈ s.live, a ∈ s'.live)
    (hc : ∀ a ∈ s.live, s'.contents a = s.contents a) : Given f s' o where
  id := h.id
  tex := h.tex
  live := hl _ h.live
  image := by rw [hc _ h.live, h.image]
  tlut := by
    intro l hl'
    obtain ⟨p,hp,he,hm,hb⟩ := h.tlut l hl'
    exact ⟨p,hp,he,hl _ hm,by rw [hc _ hm, hb]⟩

theorem flatMap_set {extra : List ℕ}
    (ht : l[c]? = some t) (hb : (blocks t').Perm (extra++blocks t)) :
    ((l.set c t').flatMap blocks).Perm (extra++l.flatMap blocks) := by
  induction l generalizing c with
  | nil => simp at ht
  | cons u l ih =>
    cases c with
    | zero =>
      obtain rfl : u = t := by simpa using ht
      simp only [flatMap_cons, ← append_assoc]
      exact hb.append_right _
    | succ c =>
      have h := ih (by simpa using ht)
      simp only [flatMap_cons]
      exact (h.append_left _).trans (perm_append_comm_assoc _ _ _)

theorem request_inv {s : State} {x : List ℕ} (h : Inv f s)
    (ht : s.textures[c]? = some t) (hfile : s'.file = s.file) (hdesc : s'.texdesc = s.texdesc)
    (htex : s'.textures = s.textures.set c t') (hlive : s'.live = x++s.live)
    (halloc : s'.allocated = x++s.allocated) (hfreed : s'.freed = s.freed)
    (hcont : ∀ a ∈ s.live, s'.contents a = s.contents a) (hnew : x.Nodup ∧ ∀ a ∈ x, a ∉ s.live)
    (hb : (blocks t').Perm (x++blocks t)) (hheads : Heads f c t')
    (hobj : ∀ o ∈ s'.objects, o ∈ s.objects ∨ Given f s' o) : Inv f s' where
  file := hfile.trans h.file
  count := by rw [htex, length_set, h.count]
  heads := by
    intro i u hu
    rw [htex] at hu
    by_cases hi : c = i
    · obtain rfl : t' = u := by
        have hlt : c < s.textures.length := (List.getElem?_eq_some_iff.mp ht).1
        rw [← hi, List.getElem?_set_self hlt] at hu
        exact some.inj hu
      exact hi ▸ hheads
    · rw [List.getElem?_set_ne hi] at hu
      exact h.heads i u hu
  blocks := by
    rw [halloc, hdesc, htex]
    have hp : (x++s.allocated).Perm (x++(s.texdesc::s.textures.flatMap blocks)) :=
      h.blocks.append_left _
    exact hp.trans (perm_middle.trans ((flatMap_set ht hb).symm.cons _))
  live := by rw [hlive, halloc, h.live]
  nodup := by
    rw [halloc]
    exact nodup_append.mpr ⟨hnew.1,h.nodup,fun a ha b hb' hab => hnew.2 a ha (by
      rw [h.live, hab]
      exact hb')⟩
  freed := hfreed.trans h.freed
  objects := by
    intro o ho
    rcases hobj o ho with ho | ho
    · exact (h.objects o ho).frame (fun a ha => by rw [hlive]; simp [ha]) hcont
    · exact ho

@[simp] theorem load_frame (a pos size : ℕ) (s : State) :
    (load a pos size s).file = s.file ∧ (load a pos size s).texdesc = s.texdesc ∧
    (load a pos size s).textures = s.textures ∧ (load a pos size s).live = a::s.live ∧
    (load a pos size s).allocated = a::s.allocated ∧ (load a pos size s).freed = s.freed ∧
    (load a pos size s).objects = s.objects := by
  simp only [load, fread, fseek, alloc]
  split <;> simp

theorem load_contents_ne (pos size : ℕ) (s : State) (h : b ≠ a) :
    (load a pos size s).contents b = s.contents b := by
  simp only [load, fseek]
  split <;> exact update_of_ne h _ _

theorem load_contents (size : ℕ) (s : State) (hp : pos < 2147483648) :
    (load a pos size s).contents a = fileBytes s.file pos size := by
  simp only [load, fread, fseek, if_pos hp, update_self]
  rfl

def Supplied : Event → State → Prop
  | .getTexture _ a, s => ∀ x ∈ a, x ≠ 0 ∧ x ∉ s.live
  | .getTextureCI _ a b _, s => (∀ x ∈ a, x ≠ 0 ∧ x ∉ s.live ∧ x ∉ b) ∧ ∀ x ∈ b, x ≠ 0 ∧ x ∉ s.live

/-- The headers that a call loads have not been loaded before; and if there is memory for
the image there is also some for the palette. -/
def FirstRequest : Event → State → Prop
  | .getTexture id _, s => ∀ t, 0 ≤ id → s.textures[id.toNat]? = some t → t.img.loaded = false
  | .getTextureCI id a b _, s => ∀ t p, 0 ≤ id → s.textures[id.toNat]? = some t → t.pal = some p →
      t.img.loaded = false ∧ p.loaded = false ∧ (a.isSome → b.isSome)

section Requests

variable {f : File} {s : State} {id : ℕ} {t : Texture} {p : Held PalHeader}

theorem heads_withImage (h : Heads f id t) (data : ℕ) : Heads f id (withImage t data) where
  img := h.img
  imgData := fun hf => absurd hf (by simp [withImage])
  pal := h.pal

theorem heads_withPalette (h : Heads f id t) (hp : t.pal = some p) (data : ℕ) :
    Heads f id { t with pal := some (withPalette p data) } where
  img := h.img
  imgData := h.imgData
  pal := by
    intro q hq
    obtain rfl : withPalette p data = q := some.inj hq
    obtain ⟨head,hh,he,-⟩ := h.pal p hp
    exact ⟨head,hh,he,fun hf => absurd hf (by simp [withPalette])⟩

theorem blocks_image (hl : t.img.loaded = false) (a : ℕ) :
    blocks (withImage t a) = (if a = 0 then [] else [a])++blocks t := by
  by_cases ha : a = 0 <;> simp [blocks, withImage, dataBlocks, hl]

theorem blocks_both (hl : t.img.loaded = false) (hp : t.pal = some p) (hpl : p.loaded = false)
    (ha : a ≠ 0) (hb : b ≠ 0) :
    (blocks { withImage t a with pal := some (withPalette p b) }).Perm ([b,a]++blocks t) := by
  have hnew : blocks { withImage t a with pal := some (withPalette p b) } =
      [a,t.img.block]++b::[p.block] := by
    simp [blocks, withImage, withPalette, palBlocks, dataBlocks, ha, hb]
  have hold : [b,a]++blocks t = b::([a,t.img.block]++[p.block]) := by
    simp [blocks, palBlocks, dataBlocks, hp, hl, hpl]
  rw [hnew, hold]
  exact perm_middle

theorem pos_lt (hf : WellFormed f) (hid : id < ntextures f) : (imgOf f id).data < 2147483648 := by
  have h1 := hf.length
  have h2 := (hf.image id hid).2
  omega

theorem lost_inv (h : Inv f s) (ht : s.textures[id]? = some t) (hl : t.img.loaded = false) :
    Inv f (setTexture id (withImage t 0) s) :=
  request_inv (x := []) h ht rfl rfl rfl rfl rfl rfl (fun _ _ => rfl) (by simp)
    (by rw [blocks_image hl]; simp) (heads_withImage (h.heads id t ht) 0) (fun o ho => .inl ho)

theorem getImage_inv (hf : WellFormed f) (h : Inv f s) (ht : s.textures[id]? = some t)
    (hl : t.img.loaded = false) {a : Option ℕ} (ha : ∀ x ∈ a, x ≠ 0 ∧ x ∉ s.live) :
    Inv f (getImage id t a s) := by
  cases a with
  | none => exact lost_inv h ht hl
  | some a =>
    obtain ⟨hz,hnew⟩ := ha a rfl
    have hid : id < ntextures f := h.count ▸ (List.getElem?_eq_some_iff.mp ht).1
    have hhead := (h.heads id t ht).imgData hl
    refine request_inv (x := [a]) h ht ?file ?desc ?tex ?live ?alloc ?freed ?cont ?new ?blocks
      (heads_withImage (h.heads id t ht) a) ?obj
    case file | desc | tex | live | alloc | freed => simp [getImage, give, setTexture]
    case cont => exact fun b hb => load_contents_ne _ _ _ (fun e => hnew (e ▸ hb))
    case new => exact ⟨by simp,by simpa using hnew⟩
    case blocks => rw [blocks_image hl, if_neg hz]
    case obj =>
      intro o ho
      simp only [getImage, give, setTexture, load_frame, mem_cons] at ho
      rcases ho with rfl | ho
      · right
        exact {
          id := hid
          tex := by simp [texObj, withImage, hhead]
          live := by simp [getImage, give, setTexture, texObj, withImage]
          image := by
            simp only [getImage, give, setTexture, texObj, withImage, hhead, imageSize]
            rw [load_contents _ _ (pos_lt hf hid), h.file]
          tlut := by simp }
      · exact .inl ho

theorem getImageCI_inv (hf : WellFormed f) (h : Inv f s) (ht : s.textures[id]? = some t)
    (hp : t.pal = some p) (hl : t.img.loaded = false) (hpl : p.loaded = false) {a b : Option ℕ}
    (hab : a.isSome → b.isSome) (ha : ∀ x ∈ a, x ≠ 0 ∧ x ∉ s.live ∧ x ∉ b)
    (hb : ∀ x ∈ b, x ≠ 0 ∧ x ∉ s.live) (tluts : ℕ) : Inv f (getImageCI id t p a b tluts s) := by
  cases a with
  | none => exact lost_inv h ht hl
  | some a =>
    cases b with
    | none => exact absurd (hab rfl) (by simp)
    | some b =>
      obtain ⟨hz,hnew,hne⟩ := ha a rfl
      obtain ⟨hz',hnew'⟩ := hb b rfl
      have hne' : b ≠ a := by simpa using hne
      have hid : id < ntextures f := h.count ▸ (List.getElem?_eq_some_iff.mp ht).1
      have hhead := (h.heads id t ht).imgData hl
      obtain ⟨head,hpal,-,hphead⟩ := (h.heads id t ht).pal p hp
      have hpl' : p.head = head := hphead hpl
      have hpos : p.head.data < 2147483648 := by
        have h1 := hf.length
        have h2 := hf.palette id hid head hpal
        rw [hpl']
        omega
      refine request_inv h ht ?file ?desc ?tex ?live ?alloc ?freed ?cont ?new
        (blocks_both hl hp hpl hz hz')
          (heads_withPalette (heads_withImage (h.heads id t ht) a) hp b) ?obj
      case file | desc | tex | live | alloc | freed => simp [getImageCI, give, setTexture]
      case cont =>
        intro x hx
        have hxa : x ≠ a := fun e => hnew (e ▸ hx)
        have hxb : x ≠ b := fun e => hnew' (e ▸ hx)
        exact (load_contents_ne _ _ _ hxb).trans (load_contents_ne _ _ _ hxa)
      case new =>
        refine ⟨by simpa using hne',fun x hx => ?_⟩
        rcases mem_cons.mp hx with rfl | hx
        · exact hnew'
        · exact mem_singleton.mp hx ▸ hnew
      case obj =>
        intro o ho
        simp only [getImageCI, give, setTexture, load_frame, mem_cons] at ho
        rcases ho with rfl | ho
        · right
          exact {
            id := hid
            tex := by simp [texObj, withImage, hhead]
            live := by simp [getImageCI, give, setTexture, texObj, withImage]
            image := by
              simp only [getImageCI, give, setTexture, texObj, withImage, hhead, imageSize]
              rw [load_contents_ne _ _ _ (Ne.symm hne'), load_contents _ _ (pos_lt hf hid), h.file]
            tlut := by
              intro l hl'
              obtain rfl := (some.inj hl').symm
              refine ⟨head,hpal,by rw [hpl'],by simp [getImageCI, give, setTexture],?_⟩
              simp only [getImageCI, give, setTexture]
              rw [load_contents _ _ hpos, (load_frame _ _ _ _).1, h.file, hpl'] }
        · exact .inl ho

end Requests

theorem step_inv (hf : WellFormed f) (e : Event) (s s' : State) (h : Inv f s)
    (ho : Supplied e s ∧ FirstRequest e s) (hs : step e s = some s') : Inv f s' := by
  obtain ⟨hsup,hfirst⟩ := ho
  cases e with
  | getTexture id a =>
    obtain rfl : getTexture id a s = s' := some.inj hs
    unfold getTexture
    split
    · exact h
    · split
      · exact h
      · exact getImage_inv hf h ‹_› (hfirst _ (by omega) ‹_›) hsup
  | getTextureCI id a b tluts =>
    obtain rfl : getTextureCI id a b tluts s = s' := some.inj hs
    unfold getTextureCI
    split
    · exact h
    · split
      · exact h
      · split
        · exact h
        · rename_i t ht _ p hp
          obtain ⟨hl,hpl,hab⟩ := hfirst t p (by omega) ht hp
          exact getImageCI_inv hf h ht hp hl hpl hab hsup.1 hsup.2 tluts

structure Opening (f : File) (s : State) (answers : List (Option ℕ)) : Prop where
  file : s.file = f
  heads : ∀ c t, s.textures[c]? = some t → Heads f c t
  blocks : s.allocated.Perm (s.texdesc::s.textures.flatMap blocks)
  live : s.live = s.allocated
  nodup : (s.allocated++answers.filterMap id).Nodup
  freed : s.freed = []
  objects : s.objects = []

theorem opening_add {s : State} {rest : List (Option ℕ)} (h : Opening f s answers)
    (hnew : answers.filterMap id = (blocks t)++rest.filterMap id) (hfile : s'.file = s.file)
    (hdesc : s'.texdesc = s.texdesc) (htex : s'.textures = s.textures++[t])
    (halloc : s'.allocated.Perm (blocks t++s.allocated)) (hlive : s'.live = s'.allocated)
    (hfreed : s'.freed = s.freed) (hobj : s'.objects = s.objects)
    (ht : Heads f s.textures.length t) : Opening f s' rest where
  file := hfile.trans h.file
  heads := by
    intro c u hu
    rw [htex] at hu
    by_cases hc : c < s.textures.length
    · rw [List.getElem?_append_left hc] at hu
      exact h.heads c u hu
    · rw [List.getElem?_append_right (by omega)] at hu
      have hc' : c = s.textures.length := by
        have := (List.getElem?_eq_some_iff.mp hu).1
        simp only [length_singleton] at this
        omega
      obtain rfl : t = u := by simpa [hc'] using hu
      exact hc' ▸ ht
  blocks := by
    rw [hdesc, htex, flatMap_append]
    simp only [flatMap_cons, flatMap_nil, append_nil]
    exact halloc.trans ((h.blocks.append_left _).trans perm_append_comm)
  live := hlive
  nodup := by
    have hn := h.nodup
    rw [hnew, ← append_assoc] at hn
    exact (((halloc.trans perm_append_comm).append_right _).nodup_iff).mpr hn
  freed := hfreed.trans h.freed
  objects := hobj.trans h.objects

theorem openLoop_opening (n c : ℕ) (answers : List (Option ℕ)) (s s' : State)
    (h : Opening f s answers) (hc : s.textures.length = c)
    (hs : openLoop ((List.range' c n).map (descriptor f)) answers s = (s',none)) :
    (∃ rest, Opening f s' rest) ∧ s'.textures.length = c+n := by
  induction n generalizing c answers s with
  | zero =>
    obtain rfl : s = s' := congrArg fst hs
    exact ⟨⟨_,h⟩,hc⟩
  | succ n ih =>
    rw [List.range'_succ] at hs
    cases answers with
    | nil => simp [openLoop] at hs
    | cons x answers =>
      cases x with
      | none => simp [openLoop] at hs
      | some a =>
        have hhead : imgHeader s.file.bytes (descriptor f c).1 = imgOf f c := by rw [h.file]; rfl
        by_cases hp : (descriptor f c).2 = 0
        · have hnext : Opening f { alloc a s with
              textures := s.textures++[⟨⟨a,imgHeader s.file.bytes (descriptor f c).1,false⟩,none⟩] }
              answers := by
            refine opening_add h rfl rfl rfl rfl (List.Perm.refl _) ?_ rfl rfl ?_
            · simp [alloc, h.live]
            · rw [hc, hhead]
              exact ⟨rfl,fun _ => rfl,by simp⟩
          have hr := ih (c+1) answers _ hnext (by simp [hc]) (by
            simpa [openLoop, hp, alloc] using hs)
          exact ⟨hr.1,by omega⟩
        · cases answers with
          | nil => simp [openLoop, hp] at hs
          | cons y answers =>
            cases y with
            | none => simp [openLoop, hp] at hs
            | some b =>
              have hnext : Opening f { alloc b (alloc a s) with
                  textures := s.textures++[⟨⟨a,imgHeader s.file.bytes (descriptor f c).1,false⟩,
                    some ⟨b,palHeader s.file.bytes (descriptor f c).2,false⟩⟩] } answers := by
                refine opening_add h rfl rfl rfl rfl (List.Perm.swap _ _ _) ?_ rfl rfl ?_
                · simp [alloc, h.live]
                · rw [hc, hhead]
                  refine ⟨rfl,fun _ => rfl,fun p hp' => ?_⟩
                  obtain rfl := (some.inj hp').symm
                  exact ⟨_,if_neg hp,by rw [h.file],fun _ => by rw [h.file]⟩
              have hr := ih (c+1) answers _ hnext (by simp [hc]) (by
                simpa [openLoop, hp, alloc] using hs)
              exact ⟨hr.1,by omega⟩

theorem open_inv {s : State} (hn : (answers.filterMap id).Nodup)
    (ho : openTPLFromFile f answers = (s,true)) : Inv f s := by
  cases answers with
  | nil => simp [openTPLFromFile] at ho
  | cons x answers =>
    cases x with
    | none => simp [openTPLFromFile] at ho
    | some d =>
      have hstart : Opening f { alloc d (fresh f) with texdesc := d } answers :=
        ⟨rfl,by simp [alloc, fresh],List.Perm.refl _,rfl,by simpa [alloc, fresh] using hn,rfl,rfl⟩
      rw [openTPLFromFile] at ho
      split at ho
      · rename_i hr
        obtain rfl := congrArg fst ho
        rw [range_eq_range'] at hr ⊢
        have he : openLoop ((List.range' 0 (ntextures f)).map (descriptor f)) answers
            { alloc d (fresh f) with texdesc := d } = (_,none) := Prod.ext rfl hr
        obtain ⟨⟨rest,hi⟩,hl⟩ := openLoop_opening (ntextures f) 0 answers _ _ hstart rfl he
        exact ⟨hi.file,by rw [hl, Nat.zero_add],hi.heads,hi.blocks,hi.live,
          (nodup_append.mp hi.nodup).1,hi.freed,by simp [hi.objects]⟩
      · exact absurd (congrArg snd ho) (by simp)

def closeFrees (t : Texture) : List ℕ :=
  dataBlocks true t.img.head.data++t.img.block::palBlocks
    (t.pal.map fun p => { p with loaded := true })

def Settled (t : Texture) : Prop :=
  (t.img.loaded = true ∨ t.img.head.data = 0) ∧ ∀ p ∈ t.pal, p.loaded = true ∨ p.head.data = 0

theorem dataBlocks_length (loaded : Bool) (data : ℕ) :
    (dataBlocks loaded data).length ≤ (dataBlocks true data).length ∧
      ((dataBlocks loaded data).length = (dataBlocks true data).length ↔ loaded = true ∨
        data = 0) := by
  by_cases hd : data = 0 <;> cases loaded <;> simp [dataBlocks, hd]

theorem blocks_length (t : Texture) : (blocks t).length ≤ (closeFrees t).length ∧
    ((blocks t).length = (closeFrees t).length ↔ Settled t) := by
  obtain ⟨h1,h2⟩ := dataBlocks_length t.img.loaded t.img.head.data
  cases hp : t.pal with
  | none =>
    simp only [blocks, closeFrees, Settled, hp, ← h2]
    simp
    omega
  | some p =>
    obtain ⟨h3,h4⟩ := dataBlocks_length p.loaded p.head.data
    simp only [blocks, closeFrees, Settled, hp, palBlocks, map_some, length_append,
      length_cons, ← h2, mem_def, some.injEq, forall_eq', ← h4]
    omega

theorem blocks_settled (h : Settled t) : blocks t = closeFrees t := by
  obtain ⟨hi,hp⟩ := h
  have hd : ∀ (loaded : Bool) (data : ℕ), loaded = true ∨ data = 0 →
      dataBlocks loaded data = dataBlocks true data := by
    rintro loaded data (rfl | rfl)
    · rfl
    · simp [dataBlocks]
  rw [blocks, closeFrees, hd _ _ hi]
  cases ht : t.pal with
  | none => rfl
  | some p => simp only [palBlocks, map_some, hd _ _ (hp p ht)]

theorem freeIf_freed (a : ℕ) (s : State) : (freeIf a s).freed = dataBlocks true a++s.freed := by
  unfold freeIf dataBlocks
  split <;> simp [*, free]

theorem closeTexture_freed (t : Texture) (s : State) :
    (closeTexture t s).freed.Perm (closeFrees t++s.freed) := by
  have himg : (free t.img.block (freeIf t.img.head.data s)).freed.Perm
      (dataBlocks true t.img.head.data++[t.img.block]++s.freed) := by
    simp only [free, freeIf_freed, append_assoc]
    exact perm_middle.symm
  cases hp : t.pal with
  | none => simpa [closeTexture, closeFrees, hp, palBlocks] using himg
  | some p =>
    have hpal : (closeTexture t s).freed.Perm
        (dataBlocks true p.head.data++[p.block]++(free t.img.block
          (freeIf t.img.head.data s)).freed) := by
      simp only [closeTexture, hp, append_assoc]
      rw [free, freeIf_freed]
      exact perm_middle.symm
    have hall : closeFrees t++s.freed = (dataBlocks true t.img.head.data++[t.img.block])++
        ((dataBlocks true p.head.data++[p.block])++s.freed) := by
      simp [closeFrees, hp, palBlocks]
    rw [hall]
    exact hpal.trans ((himg.append_left _).trans (perm_append_comm_assoc _ _ _))

theorem closeLoop_freed (l : List Texture) (s : State) :
    (l.foldl (fun s t => closeTexture t s) s).freed.Perm (l.flatMap closeFrees++s.freed) := by
  induction l generalizing s with
  | nil => exact List.Perm.refl _
  | cons t l ih =>
    have h := (ih (closeTexture t s)).trans ((closeTexture_freed t s).append_left _)
    rw [flatMap_cons]
    rw [append_assoc]
    exact h.trans (perm_append_comm_assoc _ _ _)

theorem flatMap_settled
    (h : (l.flatMap blocks).length = (l.flatMap closeFrees).length) : ∀ t ∈ l, Settled t := by
  have hle : ∀ l : List Texture, (l.flatMap blocks).length ≤ (l.flatMap closeFrees).length := by
    intro l
    induction l with
    | nil => simp
    | cons t l ih =>
      have ht := (blocks_length t).1
      simp only [flatMap_cons, length_append]
      omega
  induction l with
  | nil => simp
  | cons t l ih =>
    obtain ⟨ht,hiff⟩ := blocks_length t
    have hl := hle l
    simp only [flatMap_cons, length_append] at h
    intro u hu
    rcases mem_cons.mp hu with rfl | hu
    · exact hiff.mp (by omega)
    · exact ih (by omega) u hu

theorem close_iff {s : State} (h : Inv f s) :
    (closeTPLFile s).freed.Perm s.allocated ↔ ∀ t ∈ s.textures, Settled t := by
  have hfreed : (closeTPLFile s).freed.Perm (s.texdesc::s.textures.flatMap closeFrees) := by
    have hl := closeLoop_freed s.textures s
    rw [h.freed, append_nil] at hl
    exact hl.cons _
  constructor
  · intro hp
    have hlen := ((hfreed.symm.trans hp).trans h.blocks).length_eq
    exact flatMap_settled (by simpa using hlen.symm)
  · intro hs
    have he : s.textures.flatMap closeFrees = s.textures.flatMap blocks :=
      flatMap_congr fun t ht => (blocks_settled (hs t ht)).symm
    rw [he] at hfreed
    exact hfreed.trans h.blocks.symm

/-- The image and the palette of an object are those of the file. Of an image with
several levels the first one is loaded. -/
def Right (f : File) (s : State) (o : Object) : Prop :=
  (∀ i < firstLevel (imgOf f o.id),
    s.contents o.tex.data i = some (f.bytes ((imgOf f o.id).data+i))) ∧
  ((imgOf f o.id).maxlod = 0 → ∀ i < dataSize (imgOf f o.id),
    s.contents o.tex.data i = some (f.bytes ((imgOf f o.id).data+i))) ∧
  ∀ l ∈ o.tlut, ∃ h ∈ palOf f o.id, l.nitems = h.nitems ∧ ∀ i < h.nitems*2,
    s.contents l.data i = some (f.bytes (h.data+i))

theorem fileBytes_some {size i : ℕ} (hi : i < size) (hl : pos+i < f.length) :
    fileBytes f pos size i = some (f.bytes (pos+i)) := if_pos ⟨hi,hl⟩

theorem half_lt (b : Bytes) (o : ℕ) : half b o < 65536 := by
  have h1 := (b o).toNat_lt
  have h2 := (b (o+1)).toNat_lt
  unfold half
  omega

theorem given_right (hf : WellFormed f) {s : State} (h : Given f s o) : Right f s o := by
  have hfirst : ∀ i < firstLevel (imgOf f o.id),
      s.contents o.tex.data i = some (f.bytes ((imgOf f o.id).data+i)) := by
    intro i hi
    obtain ⟨hk,hend⟩ := hf.image o.id h.id
    have hlen := hf.length
    have hle := firstLevel_le (imgOf f o.id)
    have hsize : firstLevel (imgOf f o.id) ≤ getTextureSize (imgOf f o.id).width
        (imgOf f o.id).height (imgOf f o.id).fmt :=
      level_le_size hk (half_lt _ _) (by unfold firstLevel at hle; omega)
    rw [h.image, fileBytes_some (by omega) (by omega)]
  refine ⟨hfirst,?_,?_⟩
  · intro hm
    rw [dataSize, hm]
    exact hfirst
  · intro l hl
    obtain ⟨p,hp,he,-,hc⟩ := h.tlut l hl
    have hend := hf.palette o.id h.id p hp
    refine ⟨p,hp,by rw [he],fun i hi => ?_⟩
    rw [hc, fileBytes_some hi (by omega)]

/-- In every run of requests from the opened file in which no header is loaded twice, all
objects are right; and closing the file then frees what was allocated, each block once and
nothing else, if and only if no `data` field still holds a place in the file. -/
theorem tpl_requests {f : File} (hf : WellFormed f) {answers : List (Option ℕ)} {s₀ : State}
    (hn : (answers.filterMap id).Nodup) (ho : openTPLFromFile f answers = (s₀,true)) {s : State}
    (h : Reach step (fun e s => Supplied e s ∧ FirstRequest e s) s₀ s) :
    (∀ o ∈ s.objects, Right f s o) ∧
      ((closeTPLFile s).freed.Perm s.allocated ∧ s.allocated.Nodup ↔
        ∀ t ∈ s.textures, Settled t) := by
  have hi : Inv f s := reach_invariant (open_inv hn ho) (step_inv hf) h
  exact ⟨fun o ho => given_right hf (hi.objects o ho),
    ⟨fun hp => (close_iff hi).mp hp.1,fun hs => ⟨(close_iff hi).mpr hs,hi.nodup⟩⟩⟩

/-- A file with one texture of 8x8 indices, and its palette of one colour. -/
def sample : File where
  length := 102
  bytes := fun i =>
    if i = 7 ∨ i = 57 then 1 else if i = 15 then 20 else if i = 19 then 56
    else if i = 21 ∨ i = 23 ∨ i = 27 then 8 else if i = 31 then 68 else if i = 67 then 100
    else if 68 ≤ i then UInt8.ofNat i else 0

theorem sample_wellFormed : WellFormed sample where
  length := by decide
  table := by decide +kernel
  heads := by decide +kernel
  image := by unfold Known; decide +kernel
  palette := by
    have h : ∀ c < ntextures sample, (palHeader sample.bytes (descriptor sample c).2).data+
        (palHeader sample.bytes (descriptor sample c).2).nitems*2 ≤ 102 := by decide +kernel
    intro c hc p hp
    unfold palOf at hp
    split at hp
    · simp at hp
    · obtain rfl : palHeader sample.bytes (descriptor sample c).2 = p := by simpa using hp
      exact h c hc

def sampleAnswers : List (Option ℕ) := [some 2151677952,some 2151678016,some 2151678080]

theorem sampleAnswers_nodup : (sampleAnswers.filterMap id).Nodup := by decide

def opened : State := (openTPLFromFile sample sampleAnswers).1

def request (a b : ℕ) : Event := .getTextureCI 0 (some a) (some b) 0

theorem tpl_requests_once : ∃ s, Reach step (fun e s => Supplied e s ∧ FirstRequest e s) opened s ∧
    s.objects.length = 1 ∧ (∀ o ∈ s.objects, Right sample s o) ∧
    (closeTPLFile s).freed.Perm s.allocated ∧ s.allocated.length = 5 := by
  have hl : opened.live = [2151678080,2151678016,2151677952] := by decide +kernel
  have ht : opened.textures.map (fun t => (t.img.loaded,t.pal.map (·.loaded))) =
      [(false,some false)] := by decide +kernel
  have hr : Reach step (fun e s => Supplied e s ∧ FirstRequest e s) opened
      (getTextureCI 0 (some 2151678144) (some 2151678208) 0 opened) := by
    refine .step (a := request 2151678144 2151678208) .start ⟨?_,?_⟩ rfl
    · simp [Supplied, request, hl]
    · intro t p _ htx hp
      have hm := mem_map_of_mem (f := fun t : Texture => (t.img.loaded,t.pal.map (·.loaded)))
        (mem_of_getElem? htx)
      rw [ht] at hm
      simpa [hp] using hm
  have h := tpl_requests sample_wellFormed sampleAnswers_nodup rfl hr
  refine ⟨_,hr,by decide +kernel,h.1,(h.2.mpr ?_).1,by decide +kernel⟩
  have hs : (getTextureCI 0 (some 2151678144) (some 2151678208) 0 opened).textures.map
      (fun t => (t.img.loaded,t.pal.map (·.loaded))) = [(true,some true)] := by decide +kernel
  intro t htm
  have hm := mem_map_of_mem (f := fun t : Texture => (t.img.loaded,t.pal.map (·.loaded))) htm
  rw [hs] at hm
  have hm' : t.img.loaded = true ∧ t.pal.map (·.loaded) = some true := by simpa using hm
  refine ⟨.inl hm'.1,fun p hp => .inl ?_⟩
  rw [mem_def.mp hp] at hm'
  simpa using hm'.2

/-- A file that is closed at once gives places in the file to `free`; and a texture that is
requested a second time is read from a place in the file that is an address in memory. -/
theorem offsets_freed_and_read :
    (closeTPLFile opened).freed = [2151677952,2151678080,100,2151678016,68] ∧
    ¬ (closeTPLFile opened).freed.Perm opened.allocated ∧
    ∃ s, Reach step Supplied opened s ∧ s.objects.length = 2 ∧
      ∃ o ∈ s.objects, s.contents o.tex.data 0 = none ∧ ¬ Right sample s o := by
  have hf : (closeTPLFile opened).freed = [2151677952,2151678080,100,2151678016,68] := by
    decide +kernel
  have hl : opened.live = [2151678080,2151678016,2151677952] := by decide +kernel
  have hl' : (getTextureCI 0 (some 2151678144) (some 2151678208) 0 opened).live =
      [2151678208,2151678144,2151678080,2151678016,2151677952] := by decide +kernel
  have ho : (getTextureCI 0 (some 2151678272) (some 2151678336) 0
      (getTextureCI 0 (some 2151678144) (some 2151678208) 0 opened)).objects.map
        (fun o => (o.id,o.tex.data)) = [(0,2151678272),(0,2151678144)] := by decide +kernel
  have hc : (getTextureCI 0 (some 2151678272) (some 2151678336) 0
      (getTextureCI 0 (some 2151678144) (some 2151678208) 0 opened)).contents 2151678272 0 =
        none := by
    decide +kernel
  refine ⟨hf,?_,getTextureCI 0 (some 2151678272) (some 2151678336) 0
    (getTextureCI 0 (some 2151678144) (some 2151678208) 0 opened),?_,by decide +kernel,?_⟩
  · intro hp
    have hlen : (closeTPLFile opened).freed.length = opened.allocated.length := hp.length_eq
    exact absurd hlen (by decide +kernel)
  · refine .step (a := request 2151678272 2151678336)
      (.step (a := request 2151678144 2151678208) .start ?_ rfl) ?_ rfl
    · simp [Supplied, request, hl]
    · simp [Supplied, request, hl']
  · have hm := mem_of_mem_head? (congrArg List.head? ho)
    obtain ⟨o,hmem,he⟩ := mem_map.mp hm
    obtain ⟨hid,hdata⟩ := mk.inj he
    refine ⟨o,hmem,by rw [hdata, hc],fun hr => ?_⟩
    have h := hr.1
    rw [hid, hdata] at h
    have h0 := h 0 (by decide +kernel)
    rw [hc] at h0
    exact absurd h0 (by simp)

end Libogc.TplRun
