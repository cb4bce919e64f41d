import Libogc.Library.ByteStore
import Mathlib.Data.Int.Notation
import Mathlib.Logic.Function.Basic

/-!
# Texture palette library files

A TPL file holds the descriptors of its textures, each one with an image header
and perhaps a palette header. In a file that is read from disc the `data` field of
a header is a place in the file until the texture is requested, and a block of memory
afterwards. The blocks that the allocator hands out come with the calls.
-/

set_option autoImplicit false

namespace Libogc.Tpl
open ByteStore

structure File where
  length : ℕ
  bytes : Bytes

structure ImgHeader where
  height : ℕ
  width : ℕ
  fmt : ℕ
  data : ℕ
  wraps : ℕ
  wrapt : ℕ
  minfilter : ℕ
  magfilter : ℕ
  lodbias : ℕ
  edgelod : ℕ
  minlod : ℕ
  maxlod : ℕ
  deriving DecidableEq

structure PalHeader where
  nitems : ℕ
  fmt : ℕ
  data : ℕ
  deriving DecidableEq

def imgHeader (b : Bytes) (o : ℕ) : ImgHeader where
  height := half b o
  width := half b (o+2)
  fmt := word b (o+4)
  data := word b (o+8)
  wraps := word b (o+12)
  wrapt := word b (o+16)
  minfilter := word b (o+20)
  magfilter := word b (o+24)
  lodbias := word b (o+28)
  edgelod := (b (o+32)).toNat
  minlod := (b (o+33)).toNat
  maxlod := (b (o+34)).toNat

def palHeader (b : Bytes) (o : ℕ) : PalHeader where
  nitems := half b o
  fmt := word b (o+4)
  data := word b (o+8)

def getTextureSize (width height fmt : ℕ) : ℕ :=
  if fmt = 0 ∨ fmt = 8 ∨ fmt = 14 then (width+7)/8*((height+7)/8)*32%4294967296
  else if fmt = 1 ∨ fmt = 2 ∨ fmt = 9 then (width+7)/8*((height+7)/4)*32%4294967296
  else if fmt = 3 ∨ fmt = 10 ∨ fmt = 4 ∨ fmt = 5 then (width+3)/4*((height+3)/4)*32%4294967296
  else if fmt = 6 then (width+3)/4*((height+3)/4)*32*2%4294967296
  else 0

/-- A header in memory; `loaded` tells whether its `data` field has been replaced. -/
structure Held (α : Type) where
  block : ℕ
  head : α
  loaded : Bool

structure Texture where
  img : Held ImgHeader
  pal : Option (Held PalHeader)

structure Lod where
  minfilter : ℕ
  magfilter : ℕ
  minlod : ℕ
  maxlod : ℕ
  lodbias : ℕ
  biasclamp : Bool
  edgelod : ℕ
  deriving DecidableEq

structure TexObj where
  data : ℕ
  width : ℕ
  height : ℕ
  fmt : ℕ
  wraps : ℕ
  wrapt : ℕ
  tlut : Option ℕ
  lod : Option Lod
  deriving DecidableEq

structure TlutObj where
  data : ℕ
  fmt : ℕ
  nitems : ℕ
  deriving DecidableEq

structure Object where
  id : ℕ
  tex : TexObj
  tlut : Option TlutObj
  deriving DecidableEq

structure State where
  file : File
  fpos : ℕ
  texdesc : ℕ
  textures : List Texture
  live : List ℕ
  contents : ℕ → ℕ → Option UInt8
  allocated : List ℕ
  freed : List ℕ
  objects : List Object

def alloc (a : ℕ) (s : State) : State :=
  { s with live := a::s.live, allocated := a::s.allocated }

def free (a : ℕ) (s : State) : State :=
  { s with live := s.live.erase a, freed := a::s.freed }

def freeIf (a : ℕ) (s : State) : State := if a = 0 then s else free a s

/-- `fseek` takes a signed place; if it is negative the file stays where it is. -/
def fseek (pos : ℕ) (s : State) : State :=
  if pos < 2147483648 then { s with fpos := pos } else s

/-- `fread` of single bytes: what lies behind the end of the file is not read. -/
def fread (a size : ℕ) (s : State) : State :=
  { s with
    contents := Function.update s.contents a fun i =>
      if i < size ∧ s.fpos+i < s.file.length then some (s.file.bytes (s.fpos+i)) else none,
    fpos := s.fpos+min size (s.file.length-s.fpos) }

def load (a pos size : ℕ) (s : State) : State := fread a size (fseek pos (alloc a s))

def setTexture (id : ℕ) (t : Texture) (s : State) : State :=
  { s with textures := s.textures.set id t }

def withImage (t : Texture) (data : ℕ) : Texture :=
  { t with img := { t.img with head := { t.img.head with data := data }, loaded := true } }

def withPalette (p : Held PalHeader) (data : ℕ) : Held PalHeader :=
  { p with head := { p.head with data := data }, loaded := true }

/-- `lodbias > 0.0f` for the bits of a number. -/
def positive (bits : ℕ) : Bool := decide (0 < bits ∧ bits ≤ 2139095040)

def texObj (h : ImgHeader) (tlut : Option ℕ) : TexObj where
  data := h.data
  width := h.width
  height := h.height
  fmt := h.fmt
  wraps := h.wraps
  wrapt := h.wrapt
  tlut := tlut
  lod := if 0 < h.maxlod then
      some ⟨h.minfilter,h.magfilter,h.minlod,h.maxlod,h.lodbias,positive h.lodbias,h.edgelod⟩
    else none

def give (o : Object) (s : State) : State := { s with objects := o::s.objects }

def imageSize (t : Texture) : ℕ :=
  getTextureSize t.img.head.width t.img.head.height t.img.head.fmt

def getImage (id : ℕ) (t : Texture) (a : Option ℕ) (s : State) : State :=
  match a with
  | none => setTexture id (withImage t 0) s
  | some a =>
    let s := setTexture id (withImage t a) (load a t.img.head.data (imageSize t) s)
    give ⟨id,texObj (withImage t a).img.head none,none⟩ s

/-- `TPL_GetTexture`: `a` is what `memalign` returns. -/
def getTexture (id : ℤ) (a : Option ℕ) (s : State) : State :=
  if id < 0 then s
  else match s.textures[id.toNat]? with
    | none => s
    | some t => getImage id.toNat t a s

def getImageCI (id : ℕ) (t : Texture) (p : Held PalHeader) (a b : Option ℕ) (tluts : ℕ)
    (s : State) : State :=
  match a with
  | none => setTexture id (withImage t 0) s
  | some a =>
    let s := load a t.img.head.data (imageSize t) s
    match b with
    | none => setTexture id { withImage t a with pal := some (withPalette p 0) } (free a s)
    | some b =>
      let s := load b p.head.data (p.head.nitems*2) s
      let s := setTexture id { withImage t a with pal := some (withPalette p b) } s
      give ⟨id,texObj (withImage t a).img.head (some tluts),
        some ⟨b,p.head.fmt,p.head.nitems⟩⟩ s

/-- `TPL_GetTextureCI`: nothing is done for a texture that has no palette. -/
def getTextureCI (id : ℤ) (a b : Option ℕ) (tluts : ℕ) (s : State) : State :=
  if id < 0 then s
  else match s.textures[id.toNat]? with
    | none => s
    | some t =>
      match t.pal with
      | none => s
      | some p => getImageCI id.toNat t p a b tluts s

def closeTexture (t : Texture) (s : State) : State :=
  let s := free t.img.block (freeIf t.img.head.data s)
  match t.pal with
  | none => s
  | some p => free p.block (freeIf p.head.data s)

def closeTPLFile (s : State) : State :=
  { free s.texdesc (s.textures.foldl (fun s t => closeTexture t s) s) with textures := [] }

/-- The loop of `TPL_OpenTPLFromFile` over the places of the headers. The last part of
the result is the field that the way out frees. -/
def openLoop : List (ℕ × ℕ) → List (Option ℕ) → State → State × Option ℕ
  | [], _, s => (s,none)
  | (imghead,palhead)::rest, answers, s =>
    match answers with
    | some a::answers =>
      let s := alloc a s
      let img : Held ImgHeader := ⟨a,imgHeader s.file.bytes imghead,false⟩
      if palhead = 0 then openLoop rest answers { s with textures := s.textures++[⟨img,none⟩] }
      else match answers with
        | some b::answers =>
          openLoop rest answers { alloc b s with
            textures := s.textures++[⟨img,some ⟨b,palHeader s.file.bytes palhead,false⟩⟩] }
        | _ => (s,some 0)
    | _ => (s,some palhead)

def ntextures (f : File) : ℕ := word f.bytes 4

def descriptor (f : File) (c : ℕ) : ℕ × ℕ := (word f.bytes (12+8*c),word f.bytes (16+8*c))

def fresh (f : File) : State :=
  { file := f, fpos := 0, texdesc := 0, textures := [], live := [], contents := fun _ _ => none,
    allocated := [], freed := [], objects := [] }

/-- `TPL_OpenTPLFromFile` on a file that could be opened, with what `malloc` returns. -/
def openTPLFromFile (f : File) (answers : List (Option ℕ)) : State × Bool :=
  match answers with
  | some d::answers =>
    let r := openLoop ((List.range (ntextures f)).map (descriptor f)) answers
      { alloc d (fresh f) with texdesc := d }
    match r.2 with
    | none => (r.1,true)
    | some palhead => (freeIf palhead (free d r.1),false)
  | _ => (fresh f,false)

inductive Event
  | getTexture (id : ℤ) (a : Option ℕ)
  | getTextureCI (id : ℤ) (a b : Option ℕ) (tluts : ℕ)

def step : Event → State → Option State
  | .getTexture id a, s => some (getTexture id a s)
  | .getTextureCI id a b tluts, s => some (getTextureCI id a b tluts s)

end Libogc.Tpl
