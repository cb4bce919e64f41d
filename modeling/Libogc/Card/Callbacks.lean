import Libogc.Card.Control

/-!
# Callbacks

The functions that continue an operation when the card has answered, with the
table updates they share with the calls.
-/

set_option autoImplicit false

namespace Libogc.CardCallbacks
open ByteStore CardLayout CardControl

def setFile (a : ℕ) (f : CardFile) (s : Card) : Card :=
  { s with file := Function.update s.file a f }

/-- `--x` on 32 bits. -/
def dec32 (n : ℕ) : ℕ := (n+4294967295)%4294967296

def finishApi (ret : ℤ) (s : Card) : Card :=
  later s.apiCb ret (putCntrlBlock ret { s with apiCb := none })

def putUnlessApi (ret : ℤ) (s : Card) : Card :=
  if s.apiCb.isNone then putCntrlBlock ret s else s

def finishXfer (ret : ℤ) (s : Card) : Card :=
  let s := putUnlessApi ret s
  later s.xferCb ret { s with xferCb := none }

def finishErase (ret : ℤ) (s : Card) : Card :=
  let s := putUnlessApi ret s
  later s.eraseCb ret { s with eraseCb := none }

def orElse (r : ℤ × Card) (stop : ℤ → Card → Card) : Card :=
  if 0 ≤ r.1 then r.2 else stop r.1 r.2

def newFat (f : Bytes) : Bytes := signFat (setHalf 4 ((fatUpdated f+1)%65536) f)

def newDir (d : Bytes) : Bytes := signDir (setHalf 8186 ((dirUpdated d+1)%65536) d)

def updateFat (cb : Option Cb) (e : Env) (s : Card) : ℤ × Card :=
  if !s.attached then (errorNoCard, s)
  else sectorErase (s.currFat*s.geo.sector) .fatErase e
    { setFat (newFat (fat s)) s with eraseCb := cb }

def updateDir (cb : Option Cb) (e : Env) (s : Card) : ℤ × Card :=
  if !s.attached then (errorNoCard, s)
  else sectorErase (s.currDir*s.geo.sector) .dirErase e
    { setDir (newDir (dir s)) s with eraseCb := cb }

def nextBlock (blocks k : ℕ) : ℕ :=
  let k := (k+1)%65536
  if k < sysArea ∨ blocks ≤ k then sysArea else k

/-- The loop of `__card_allocblock`: blocks that may still be tried, blocks
that are still needed, `currblock`, `block` and `prevblock`. -/
def allocLoop (blocks : ℕ) : ℕ → ℕ → ℕ → ℕ → ℕ → Bytes → Bytes × Option (ℕ × ℕ)
  | _, 0, curr, block, _, f => (f, some (block,curr))
  | 0, _+1, _, _, _, f => (f, none)
  | left+1, i+1, curr, block, prev, f =>
    let c := nextBlock blocks curr
    if fatWord f c = 0 then
      if block ≠ 65535 then
        allocLoop blocks left i c block c (setFatWord c 65535 (setFatWord prev c f))
      else allocLoop blocks left i c c c (setFatWord c 65535 f)
    else allocLoop blocks left (i+1) c block prev f

def allocBlock (n : ℕ) (cb : Cb) (e : Env) (s : Card) : ℤ × Card :=
  if !s.attached then (errorNoCard, s)
  else if freeBlocks (fat s) < n then (errorInsSpace, s)
  else
    match allocLoop s.geo.blocks (s.geo.blocks-sysArea) n (lastAlloc (fat s)) 65535 0 (fat s) with
    | (f, none) => (errorBroken, setFat f s)
    | (f, some (block,curr)) =>
      updateFat (some cb) e { setFat
        (setHalf 8 curr (setHalf 6 ((freeBlocks f+65536-n%65536)%65536) f)) s with
        currFileblock := block }

def clearWord (k : ℕ) (f : Bytes) : Bytes :=
  let f := setFatWord k 0 f
  setHalf 6 ((freeBlocks f+1)%65536) f

/-- The loop of `__card_freeblock`. It clears a word in every turn and stops
at a cleared one, so as many turns as there are blocks are enough. -/
def freeLoop (blocks : ℕ) : ℕ → ℕ → Bytes → Bytes × Bool
  | 0, _, f => (f, false)
  | n+1, next, f =>
    if next = 65535 then (f, true)
    else if next < sysArea ∨ blocks ≤ next then (f, false)
    else freeLoop blocks n (fatWord f next) (clearWord next f)

def freeBlock (block : ℕ) (cb : Option Cb) (e : Env) (s : Card) : ℤ × Card :=
  if !s.attached then (errorNoCard, s)
  else
    match freeLoop s.geo.blocks s.geo.blocks (fatWord (fat s) block) (clearWord block (fat s)) with
    | (f, false) => (errorBroken, setFat f s)
    | (f, true) => updateFat cb e (setFat f s)

def outside (s : Card) (k : ℕ) : Prop := k < sysArea ∨ s.geo.blocks ≤ k

instance (s : Card) (k : ℕ) : Decidable (outside s k) := inferInstanceAs (Decidable (_ ∨ _))

def writeCallback (e : Env) (ret : ℤ) (s : Card) : Card :=
  if ret < 0 then finishApi ret s
  else
    let f := s.file s.currFile
    if f.len < 0 then finishApi errorCanceled s
    else
      let f := { f with len := s32 (s.geo.sector-f.len) }
      if f.len ≤ 0 then
        let s := setFile s.currFile f s
        let s := setDir (setWord (entry f.filenum.toNat+40) e.now (dir s)) s
        orElse (updateDir s.apiCb e { s with apiCb := none }) finishApi
      else
        let f := { f with
          offset := s32 (f.offset+s.geo.sector), iblock := fatWord (fat s) f.iblock }
        let s := setFile s.currFile f s
        if outside s f.iblock then finishApi errorBroken s
        else orElse (sectorErase (f.iblock*s.geo.sector) .erase e s) finishApi

def eraseCallback (e : Env) (ret : ℤ) (s : Card) : Card :=
  if ret < 0 then finishApi ret s
  else orElse (cardWrite ((s.file s.currFile).iblock*s.geo.sector) s.geo.sector s.cmdUsrBuf
    .write e s) finishApi

/-- `((offset+sector_size)&~(sector_size-1))-offset`. -/
def toBoundary (sector offset : ℕ) : ℕ := (offset+sector)/sector*sector-offset

def readCallback (e : Env) (ret : ℤ) (s : Card) : Card :=
  if ret < 0 then finishApi ret s
  else
    let f := s.file s.currFile
    if f.len < 0 then finishApi errorCanceled s
    else
      let n := toBoundary s.geo.sector (u32 f.offset)
      let f := { f with len := s32 (f.len-n) }
      if f.len ≤ 0 then finishApi ret (setFile s.currFile f s)
      else
        let f := { f with offset := s32 (f.offset+n), iblock := fatWord (fat s) f.iblock }
        let s := setFile s.currFile f s
        if outside s f.iblock then finishApi errorBroken s
        else
          -- a refused start leaves `ret` as it is
          orElse (cardRead (f.iblock*s.geo.sector) (min f.len.toNat s.geo.sector) s.cmdUsrBuf
            .read e s) (fun _ => finishApi ret)

def deleteCallback (e : Env) (ret : ℤ) (s : Card) : Card :=
  let cb := s.apiCb
  let s := { s with apiCb := none }
  if ret < 0 then later cb ret (putCntrlBlock ret s)
  else orElse (freeBlock s.currFileblock cb e s) (fun ret s => later cb ret (putCntrlBlock ret s))

def formatCallback (e : Env) (ret : ℤ) (s : Card) : Card :=
  if ret < 0 then finishApi ret s
  else
    let s := { s with formatStep := s.formatStep+1 }
    if s.formatStep < sysArea then
      orElse (sectorErase (s.formatStep*s.geo.sector) .format e s) finishApi
    else if s.formatStep < 10 then
      orElse (cardWrite ((s.formatStep-sysArea)*s.geo.sector) 8192 (.work (s.formatStep-sysArea) 0)
        .format e s) finishApi
    else
      finishApi ret { setWork 3 (s.work 4) (setWork 1 (s.work 2) s) with
        currDir := 1,
        currFat := 3 }

def blockWriteCallback (e : Env) (ret : ℤ) (s : Card) : Card :=
  if ret < 0 then finishXfer ret s
  else
    let s := { s with
      cmdSectorAddr := s.cmdSectorAddr+128, cmdUsrBuf := s.cmdUsrBuf.add 128,
      cmdBlckCnt := dec32 s.cmdBlckCnt }
    if 0 < s.cmdBlckCnt then orElse (writePage .blockWrite e s) finishXfer else finishXfer ret s

def blockReadCallback (e : Env) (ret : ℤ) (s : Card) : Card :=
  if ret < 0 then finishXfer ret s
  else
    let s := { s with
      cmdSectorAddr := s.cmdSectorAddr+readSize, cmdUsrBuf := s.cmdUsrBuf.add readSize,
      cmdBlckCnt := dec32 s.cmdBlckCnt }
    if 0 < s.cmdBlckCnt then orElse (readSegment .blockRead e s) finishXfer else finishXfer ret s

def commandLost (ret : ℤ) (s : Card) : Card :=
  match s.cmd.op with
  | .none => s
  | .segment => later s.txCb ret { s with txCb := none, failed := true }
  | .erase => later s.exiCb ret { s with exiCb := none, failed := true }
  | .page => later s.exiCb ret { s with exiCb := none, failed := true }

def unlockedCallback (e : Env) (ret : ℤ) (s : Card) : Card :=
  if ret < 0 then commandLost ret s
  else
    match exiLock true { s with unlockCb := some .unlocked } with
    | (false, s) => s
    | (true, s) => orElse (retry e { s with unlockCb := none }) commandLost

def fatWriteCallback (ret : ℤ) (s : Card) : Card :=
  finishErase ret <|
    if ret < 0 then s
    else if s.currFat = 3 then { setWork 4 (s.work 3) s with currFat := 4 }
    else { setWork 3 (s.work 4) s with currFat := 3 }

def dirWriteCallback (ret : ℤ) (s : Card) : Card :=
  finishErase ret <|
    if ret < 0 then s
    else if s.currDir = 1 then { setWork 2 (s.work 1) s with currDir := 2 }
    else { setWork 1 (s.work 2) s with currDir := 1 }

def fatEraseCallback (e : Env) (ret : ℤ) (s : Card) : Card :=
  if ret < 0 then finishErase ret s
  else orElse (cardWrite (s.currFat*s.geo.sector) 8192 (.work s.currFat 0) .fatWrite e s)
    finishErase

def dirEraseCallback (e : Env) (ret : ℤ) (s : Card) : Card :=
  if ret < 0 then finishErase ret s
  else orElse (cardWrite (s.currDir*s.geo.sector) 8192 (.work s.currDir 0) .dirWrite e s)
    finishErase

/-- The entry as `__card_createfatcallback` completes it, at its position `o`. -/
def createdEntry (gamecode company : Bytes) (block now o : ℕ) (d : Bytes) : Bytes :=
  let d := fill (o+4) 2 0 (fill o 4 0 d)
  let d := if gamecode 0 != 255 then blit company 0 (o+4) 2 (blit gamecode 0 o 4 d) else d
  let d := setByte (o+53) 0
    (setByte (o+6) 255 (setByte (o+52) attribPublic (setHalf (o+54) block d)))
  let d := setHalf (o+58) 65535 (setHalf (o+50) 0 (setHalf (o+48) 0 (setWord (o+44) 4294967295 d)))
  setWord (o+40) now (setHalf (o+50) 1 d)

def createFatCallback (e : Env) (s : Card) : Card :=
  let cb := s.apiCb
  let s := { s with apiCb := none }
  let f := s.file s.currFile
  let s := setDir (createdEntry s.gamecode s.company s.currFileblock e.now
    (entry f.filenum.toNat) (dir s)) s
  let s := setFile s.currFile { f with offset := 0, iblock := s.currFileblock } s
  orElse (updateDir cb e s) (fun ret s => later cb ret (putCntrlBlock ret s))

def callback (e : Env) (ret : ℤ) (s : Card) : Cb → Card
  | .user n => { s with calls := s.calls++[(n,ret)] }
  | .default => s
  | .sync => s
  | .detach => s
  | .write => writeCallback e ret s
  | .erase => eraseCallback e ret s
  | .read => readCallback e ret s
  | .delete => deleteCallback e ret s
  | .format => formatCallback e ret s
  | .blockWrite => blockWriteCallback e ret s
  | .blockRead => blockReadCallback e ret s
  | .unlocked => unlockedCallback e ret s
  | .fatWrite => fatWriteCallback ret s
  | .dirWrite => dirWriteCallback ret s
  | .fatErase => fatEraseCallback e ret s
  | .dirErase => dirEraseCallback e ret s
  | .createFat => createFatCallback e s

end Libogc.CardCallbacks
