import Libogc.Card.Calls

/-!
# Status of files and listing of the directory
-/

set_option autoImplicit false

namespace Libogc.CardStatus
open ByteStore CardLayout CardControl CardCallbacks CardCalls

structure CardStat where
  filename : Bytes
  len : ℕ
  time : ℕ
  gamecode : Bytes
  company : Bytes
  bannerFmt : UInt8
  iconAddr : ℕ
  iconFmt : ℕ
  iconfmt : ℕ → ℕ
  iconSpeed : ℕ
  iconspeed : ℕ → ℕ
  commentAddr : ℕ
  offsetBanner : ℕ
  offsetBannerTlut : ℕ
  offsetIcon : ℕ → ℕ
  offsetIconTlut : ℕ → ℕ

abbrev noAddr : ℕ := 4294967295

/-- The second loop of `__card_updateiconoffsets`: the icons from `i` on. -/
def iconOffsets (iconfmt : ℕ → ℕ) (tlut : ℕ) : ℕ → ℕ → ℕ → CardStat → CardStat
  | 0, _, _, st => st
  | n+1, i, addr, st =>
    let place (off tl : ℕ) : CardStat := { st with
      offsetIcon := Function.update st.offsetIcon i off,
      offsetIconTlut := Function.update st.offsetIconTlut i tl }
    match iconfmt i with
    | 1 => iconOffsets iconfmt tlut n (i+1) ((addr+1024)%4294967296) (place addr tlut)
    | 2 => iconOffsets iconfmt tlut n (i+1) ((addr+3072)%4294967296) (place addr noAddr)
    | 3 => iconOffsets iconfmt tlut n (i+1) ((addr+1536)%4294967296)
        (place addr ((addr+1024)%4294967296))
    | _ => iconOffsets iconfmt tlut n (i+1) addr (place noAddr noAddr)

def bannerOffsets (bannerFmt : ℕ) (addr : ℕ) (st : CardStat) : ℕ × CardStat :=
  if bannerFmt%4 = 0 then (addr, st)
  else if bannerFmt/16%2 = 1 then
    (addr, { st with offsetBanner := noAddr, offsetBannerTlut := noAddr })
  else if bannerFmt%4 = 1 then
    ((addr+3584)%4294967296, { st with
      bannerFmt := 1, offsetBanner := addr, offsetBannerTlut := (addr+3072)%4294967296 })
  else if bannerFmt%4 = 2 then
    ((addr+6144)%4294967296, { st with
      bannerFmt := 2, offsetBanner := addr, offsetBannerTlut := noAddr })
  else (addr, st)

def updateIconOffsets (d : Bytes) (o : ℕ) (st : CardStat) : CardStat :=
  let bare := word d (o+44) = noAddr
  let st := if bare then { st with bannerFmt := 0, iconFmt := 0, iconSpeed := 0 } else st
  match bannerOffsets (d (o+7)).toNat (if bare then 0 else word d (o+44)) st with
  | (addr, st) =>
    let speed (i : ℕ) : ℕ := (half d (o+50) >>> (2*i))%4
    let fmt (i : ℕ) : ℕ := if speed i = 0 then 0 else (half d (o+48) >>> (2*i))%4
    let nicons := ((List.range 8).filter fun i => fmt i ≠ 0).length
    iconOffsets fmt ((addr+nicons*1024)%4294967296) 8 0 addr
      { st with iconfmt := fmt, iconspeed := speed }

structure Listed where
  fileno : ℕ
  filelen : ℕ
  filename : Bytes
  gamecode : Bytes
  company : Bytes

def listed (s : Card) (i : ℕ) : Listed :=
  ⟨i,entryLength (dir s) i*s.geo.sector%4294967296,
    bytesAt (dir s) (entry i+8),bytesAt (dir s) (entry i),bytesAt (dir s) (entry i+4)⟩

def ours (s : Card) (i : ℕ) : Bool :=
  sameBytes (bytesAt (dir s) (entry i)) s.gamecode 4 &&
    sameBytes (bytesAt (dir s) (entry i+4)) s.company 2

/-- `__card_findnext`: what it finds, and where it stops. -/
def findNextFrom (chn : ℤ) (fileno : ℕ) (showall : Bool) (s : Card) :
    ℤ × Option Listed × ℕ × Card :=
  if !chnOk chn then (errorNoCard, none, fileno, s)
  else if maxFiles ≤ fileno then (errorNoFile, none, fileno, s)
  else
    match getCntrlBlock chn s with
    | (ret, s) =>
      if ret < 0 then (ret, none, fileno, s)
      else
        match (List.range' fileno (maxFiles-fileno)).find? fun i =>
          used (dir s) i && (showall || ours s i) with
        | some i => (errorReady, some (listed s i), i, putCntrlBlock errorReady s)
        | none => (errorNoFile, none, maxFiles, putCntrlBlock errorNoFile s)

def findFirst (chn : ℤ) (showall : Bool) (s : Card) : ℤ × Option Listed × ℕ × Card :=
  findNextFrom chn 0 showall s

def findNext (chn : ℤ) (fileno : UInt32) (showall : Bool) (s : Card) :
    ℤ × Option Listed × ℕ × Card :=
  findNextFrom chn (fileno+1).toNat showall s

def getDirectory (chn : ℤ) (showall : Bool) (s : Card) : ℤ × List (Listed × UInt8) × Card :=
  if !chnOk chn then (errorNoCard, [], s)
  else
    match getCntrlBlock chn s with
    | (ret, s) =>
      if ret < 0 then (ret, [], s)
      else
        let found := (List.range maxFiles).filter fun i => used (dir s) i &&
          (showall || (s.gamecode 0 != 255 && s.company 0 != 255 && ours s i))
        let ret := if found = [] then errorNoFile else errorReady
        (ret, found.map fun i => (listed s i,dir s (entry i+52)), putCntrlBlock ret s)

def getStatus (chn fileno : ℤ) (stats : CardStat) (s : Card) : ℤ × CardStat × Card :=
  if !chnOk chn then (errorNoCard, stats, s)
  else if fileno < 0 ∨ maxFiles ≤ fileno then (errorFatal, stats, s)
  else
    match getCntrlBlock chn s with
    | (ret, s) =>
      if ret < 0 then (ret, stats, s)
      else if s.currDir = 0 then (errorReady, stats, putCntrlBlock errorReady s)
      else
        let d := dir s
        let o := entry fileno.toNat
        (errorReady, updateIconOffsets d o { stats with
          gamecode := bytesAt d o, company := bytesAt d (o+4), filename := bytesAt d (o+8),
          len := half d (o+56)*s.geo.sector%4294967296, time := word d (o+40), bannerFmt := d (o+7),
          iconAddr := word d (o+44), iconFmt := half d (o+48), iconSpeed := half d (o+50),
          commentAddr := word d (o+60) }, putCntrlBlock errorReady s)

def statusFields (stats : CardStat) (o : ℕ) (d : Bytes) : Bytes :=
  setWord (o+60) stats.commentAddr (setHalf (o+50) stats.iconSpeed (setHalf (o+48)
    stats.iconFmt (setWord (o+44) stats.iconAddr (setByte (o+7) stats.bannerFmt d))))

def statusEntry (stats : CardStat) (now o : ℕ) (d : Bytes) : Bytes :=
  let d := statusFields stats o d
  setWord (o+40) now
    (if word d (o+44) = noAddr then setHalf (o+50) (half d (o+50)/4*4+1) d else d)

def setStatusAsync (chn fileno : ℤ) (stats : CardStat) (cb : Option Cb) (e : Env) (s : Card) :
    CardStat × ℤ × Card :=
  if !chnOk chn then (stats, errorNoCard, s)
  else if fileno < 0 ∨ maxFiles ≤ fileno then (stats, errorFatal, s)
  else if stats.iconAddr ≠ noAddr ∧ readSize ≤ stats.iconAddr then (stats, errorFatal, s)
  else if stats.commentAddr ≠ noAddr ∧ 8128 < stats.commentAddr%8192 then (stats, errorFatal, s)
  else
    match getCntrlBlock chn s with
    | (ret, s) =>
      if ret < 0 then (stats, ret, s)
      else if s.currDir = 0 then (stats, errorBroken, putCntrlBlock errorBroken s)
      else
        let o := entry fileno.toNat
        (updateIconOffsets (statusFields stats o (dir s)) o stats,
          orPut (updateDir cb e (setDir (statusEntry stats e.now o (dir s)) s)))

/-- The loop of `__card_setstatusexasync` that clears the name behind its end. -/
def cutName : ℕ → ℕ → Bool → Bytes → Bytes
  | 0, _, _, ent => ent
  | n+1, i, bend, ent =>
    if bend || ent (8+i) == 0 then cutName n (i+1) true (setByte (8+i) 0 ent)
    else cutName n (i+1) false ent

def sameIdentity (d : Bytes) (i : ℕ) (ent : Bytes) : Bool :=
  sameBytes (bytesAt d (entry i+8)) (bytesAt ent 8) fileNameLen &&
    sameBytes (bytesAt d (entry i)) ent 4 && sameBytes (bytesAt d (entry i+4)) (bytesAt ent 4) 2

def setIdentity (ent : Bytes) (o : ℕ) (d : Bytes) : Bytes :=
  blit ent 4 (o+4) 2 (blit ent 0 o 4 (blit ent 8 (o+8) fileNameLen d))

def statusExFields (ent : Bytes) (o : ℕ) (d : Bytes) : Bytes :=
  setByte (o+53) (ent 53) (setByte (o+52) (ent 52) (blit ent 60 (o+60) 4 (blit ent 50 (o+50) 2
    (blit ent 48 (o+48) 2
      (blit ent 44 (o+44) 4 (setByte (o+7) (ent 7) (blit ent 40 (o+40) 4 d)))))))

def setStatusExAsync (chn fileno : ℤ) (ent : Bytes) (cb : Option Cb) (e : Env) (s : Card) :
    Bytes × ℤ × Card :=
  if !chnOk chn then (ent, errorNoCard, s)
  else if fileno < 0 ∨ maxFiles ≤ fileno then (ent, errorFatal, s)
  else if ent 8 = 255 ∨ ent 8 = 0 then (ent, errorFatal, s)
  else
    match getCntrlBlock chn s with
    | (ret, s) =>
      if ret < 0 then (ent, ret, s)
      else if s.currDir = 0 then (ent, errorBroken, putCntrlBlock errorBroken s)
      else
        let ent := cutName fileNameLen 0 false ent
        let i := fileno.toNat
        if sameIdentity (dir s) i ent then
          (ent, orPut (updateDir cb e (setDir (statusExFields ent (entry i) (dir s)) s)))
        else if (List.range maxFiles).any fun j =>
            j != i && used (dir s) j && sameIdentity (dir s) j ent then
          (ent, errorExist, putCntrlBlock errorExist s)
        else (ent, orPut (updateDir cb e (setDir (statusExFields ent (entry i)
          (setIdentity ent (entry i) (dir s))) s)))

end Libogc.CardStatus
