import Libogc.Card.Callbacks

/-!
# Calls

The functions that an application calls. A call that goes through a pointer
which was never set has no outcome.
-/

set_option autoImplicit false

namespace Libogc.CardCalls
open ByteStore CardLayout CardControl CardCallbacks

def isApp : Option Cb → Bool
  | none => true
  | some .sync => true
  | some (.user _) => true
  | _ => false

def seekLoop (blocks sector target : ℕ) (fat : Bytes) : ℕ → CardFile → CardFile × Bool
  | 0, f => (f, true)
  | n+1, f =>
    if f.iblock < blocks ∧ u32 f.offset < target then
      let f := { f with offset := s32 (f.offset+sector), iblock := fatWord fat f.iblock }
      if f.iblock < sysArea ∨ blocks ≤ f.iblock then (f, false)
      else seekLoop blocks sector target fat n f
    else (f, true)

def rewound (d : Bytes) (offset : ℤ) (f : CardFile) : CardFile :=
  if offset < f.offset then { f with offset := 0, iblock := entryBlock d f.filenum.toNat } else f

def seekEntry (a : ℕ) (len offset : ℤ) (s : Card) : ℤ × Bool × Card :=
  let f := s.file a
  let entryLen := s32 (entryLength (dir s) f.filenum.toNat*s.geo.sector)
  if entryLen ≤ offset ∨ entryLen < s32 (offset+len) then
    (errorLimit, false, putCntrlBlock errorLimit s)
  else
    let f := rewound (dir s) offset { f with len := len }
    let s := setFile a f { s with currFile := a }
    if outside s f.iblock then (errorBroken, false, putCntrlBlock errorBroken s)
    else
      let target := u32 offset/s.geo.sector*s.geo.sector
      match seekLoop s.geo.blocks s.geo.sector target (fat s) (target/s.geo.sector) f with
      | (f, false) => (errorBroken, false, putCntrlBlock errorBroken (setFile a f s))
      | (f, true) => (errorReady, true, setFile a { f with offset := offset } s)

/-- `__card_seek`: the code, and whether `*rcard` has been set. -/
def seek (a : ℕ) (len offset : ℤ) (s : Card) : ℤ × Bool × Card :=
  let f := s.file a
  if f.filenum < 0 ∨ maxFiles ≤ f.filenum then (errorFatal, false, s)
  else
    match getCntrlBlock f.chn s with
    | (ret, s) =>
      if ret < 0 then (ret, false, s)
      else if outside s f.iblock then (errorFatal, false, putCntrlBlock errorFatal s)
      else if !used (dir s) f.filenum.toNat then (errorReady, false, s)
      else seekEntry a len offset s

def orPut (r : ℤ × Card) : ℤ × Card :=
  if 0 ≤ r.1 then r else (r.1, putCntrlBlock r.1 r.2)

def readAsync (a buffer : ℕ) (len offset : UInt32) (cb : Option Cb) (e : Env) (s : Card) :
    Option (ℤ × Card) :=
  if len.toNat = 0 ∨ len.toNat%512 ≠ 0 ∨ 0 < offset.toNat ∧ offset.toNat%512 ≠ 0 then
    some (errorFatal, s)
  else
    match seek a (s32 len.toNat) (s32 offset.toNat) s with
    | (ret, set, s) =>
      if ret < 0 then some (ret, s)
      else if !set then none
      else
        let f := s.file a
        let rest := s.geo.sector-u32 f.offset%s.geo.sector
        some (orPut (cardRead (f.iblock*s.geo.sector) (if rest ≤ len.toNat then rest else len.toNat)
          (.user buffer) .read e { s with apiCb := some (cb.getD .default) }))

def writeAsync (a buffer : ℕ) (len offset : UInt32) (cb : Option Cb) (e : Env) (s : Card) :
    Option (ℤ × Card) :=
  match seek a (s32 len.toNat) (s32 offset.toNat) s with
  | (ret, set, s) =>
    if ret < 0 then some (ret, s)
    else if !set then none
    else if len.toNat%s.geo.sector ≠ 0 ∨ 0 < offset.toNat ∧ offset.toNat%s.geo.sector ≠ 0 then
      some (errorFatal, putCntrlBlock errorFatal s)
    else
      some (orPut (sectorErase ((s.file a).iblock*s.geo.sector) .erase e
        { s with apiCb := some (cb.getD .default), cmdUsrBuf := .user buffer }))

def freeEntry (d : Bytes) (clash : ℕ → Bool) : Except ℤ ℕ :=
  if (List.range maxFiles).any fun i => used d i && clash i then .error errorExist
  else
    match (List.range maxFiles).find? fun i => !used d i with
    | none => .error errorNoEnt
    | some i => .ok i

def namedEntry (name : CStr) (length i : ℕ) (d : Bytes) : Bytes :=
  blit name.byte 0 (entry i+8) (name.len+1) (fill (entry i+8) fileNameLen 0
    (setHalf (entry i+56) length d))

def createWith (chn : ℤ) (name : CStr) (size : ℕ) (clash : Bytes → ℕ → Bool) (a : ℕ)
    (cb : Option Cb) (e : Env) (s : Card) : ℤ × Card :=
  if fileNameLen < name.len then (errorNameTooLong, s)
  else
    match getCntrlBlock chn s with
    | (ret, s) =>
      if ret < 0 then (ret, s)
      -- the control block is not given back here
      else if size = 0 ∨ size%s.geo.sector ≠ 0 then (errorFatal, s)
      else
        match freeEntry (dir s) (clash (dir s)) with
        | .error ret => (ret, putCntrlBlock ret s)
        | .ok i =>
          if freeBlocks (fat s)*s.geo.sector%4294967296 < size then
            (errorInsSpace, putCntrlBlock errorInsSpace s)
          else
            let s := setDir (namedEntry name (size/s.geo.sector) i (dir s))
              { s with apiCb := some (cb.getD .default), currFile := a }
            let s := setFile a { s.file a with chn := chn, filenum := i } s
            match orPut (allocBlock (size/s.geo.sector) .createFat e s) with
            | (ret, s) => if ret < 0 then (ret, s) else (0, s)

/-- The entry has the name and the codes; codes that begin with 255 are not
compared. -/
def sameFile (name : CStr) (gamecode company d : Bytes) (i : ℕ) : Bool :=
  sameBytes (bytesAt d (entry i+8)) name.byte fileNameLen &&
  ((gamecode 0 == 255 || company 0 == 255) ||
    (gamecode 0 != 255 && sameBytes (bytesAt d (entry i)) gamecode 4 &&
      (company 0 != 255 && sameBytes (bytesAt d (entry i+4)) company 2)))

def createAsync (chn : ℤ) (name : CStr) (size : UInt32) (a : ℕ) (cb : Option Cb) (e : Env)
    (s : Card) : ℤ × Card :=
  createWith chn name size.toNat (sameFile name s.gamecode s.company) a cb e s

structure CardDir where
  chn : ℤ
  fileno : ℕ
  filelen : UInt32
  filename : CStr
  gamecode : Bytes
  company : Bytes

/-- Here the game code and company that are compared are those of the first
entry of the directory. -/
def createEntryAsync (chn : ℤ) (direntry : CardDir) (a : ℕ) (cb : Option Cb) (e : Env)
    (s : Card) : ℤ × Card :=
  createWith chn direntry.filename direntry.filelen.toNat (fun d =>
    sameFile direntry.filename (bytesAt d (entry 0)) (bytesAt d (entry 0+4)) d) a cb e s

def getFileNum (d name gamecode company : Bytes) : Option ℕ :=
  (List.range maxFiles).find? fun i =>
    used d i && sameText name (bytesAt d (entry i+8)) 0 fileNameLen &&
      !((gamecode 0 != 255 && !sameBytes (bytesAt d (entry i)) gamecode 4) ||
        (company 0 != 255 && !sameBytes (bytesAt d (entry i+4)) company 2))

def openWith (chn : ℤ) (name gamecode company : Bytes) (a : ℕ) (s : Card) : ℤ × Card :=
  if !chnOk chn then (errorNoCard, s)
  else
    match getCntrlBlock chn (setFile a { s.file a with filenum := -1 } s) with
    | (ret, s) =>
      if ret < 0 then (ret, s)
      else
        match getFileNum (dir s) name gamecode company with
        | none => (errorNoFile, putCntrlBlock errorNoFile s)
        | some i =>
          if outside s (entryBlock (dir s) i) then (errorBroken, putCntrlBlock errorBroken s)
          else
            (errorReady, putCntrlBlock errorReady (setFile a
              ⟨chn,i,0,s32 (entryLength (dir s) i*s.geo.sector),entryBlock (dir s) i⟩ s))

def open_ (chn : ℤ) (name : CStr) (a : ℕ) (s : Card) : ℤ × Card :=
  openWith chn name.byte s.gamecode s.company a s

def openEntry (chn : ℤ) (entry : CardDir) (a : ℕ) (s : Card) : ℤ × Card :=
  openWith chn entry.filename.byte entry.gamecode entry.company a s

def close (a : ℕ) (s : Card) : ℤ × Card :=
  let f := s.file a
  if !chnOk f.chn then (errorNoCard, s)
  else if f.filenum < 0 ∨ maxFiles ≤ f.filenum then (errorNoFile, s)
  else
    match getCntrlBlock f.chn s with
    | (ret, s) =>
      if ret < 0 then (ret, s)
      else (errorReady, putCntrlBlock errorReady (setFile a { f with chn := -1 } s))

def deleteWith (chn : ℤ) (name gamecode company : Bytes) (cb : Option Cb) (e : Env) (s : Card) :
    ℤ × Card :=
  match getCntrlBlock chn s with
  | (ret, s) =>
    if ret < 0 then (ret, s)
    else
      match getFileNum (dir s) name gamecode company with
      | none => (errorNoFile, putCntrlBlock errorNoFile s)
      | some i =>
        orPut (updateDir (some .delete) e (setDir (fill (entry i) 64 255 (dir s))
          { s with currFileblock := entryBlock (dir s) i, apiCb := some (cb.getD .default) }))

def deleteAsync (chn : ℤ) (name : CStr) (cb : Option Cb) (e : Env) (s : Card) : ℤ × Card :=
  deleteWith chn name.byte s.gamecode s.company cb e s

def deleteEntryAsync (chn : ℤ) (entry : CardDir) (cb : Option Cb) (e : Env) (s : Card) : ℤ × Card :=
  deleteWith chn entry.filename.byte entry.gamecode entry.company cb e s

def blankDir : Bytes := signDir (fun _ => 255)

def blankFat (g : Geometry) (updated : ℕ) : Bytes :=
  signFat (setHalf 8 4 (setHalf 6 (g.blocks-sysArea) (setHalf 4 updated (fun _ => 0))))

/-- `__card_formatregion`. The header block is not looked at by any function
here and is supplied. -/
def formatAsync (chn : ℤ) (header : Bytes) (cb : Option Cb) (e : Env) (s : Card) : ℤ × Card :=
  if !chnOk chn then (errorNoCard, s)
  else
    match getCntrlBlock chn s with
    | (ret, s) =>
      if ret < 0 then (ret, s)
      else
        let s := setWork 2 blankDir (setWork 1 blankDir (setWork 0 header s))
        let s := setWork 4 (blankFat s.geo 1) (setWork 3 (blankFat s.geo 0) s)
        orPut (sectorErase 0 .format e
          { s with apiCb := some (cb.getD .default), formatStep := 0 })

end Libogc.CardCalls
