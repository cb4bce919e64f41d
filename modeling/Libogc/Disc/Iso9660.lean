import Libogc.Library.PathParts

/-!
# Paths on an ISO 9660 disc

How `libiso9660` finds an entry: the tree of the path table is walked along
the directory part of a path, and the last name is looked for in the tree and
then among the records of the directory. What the records of a directory are
is taken from the disc; a directory whose extent cannot be read has none.
-/

set_option autoImplicit false

namespace Libogc.Iso9660
open PathParts

abbrev Text := List UInt8

/-- `DIR_SEPARATOR` -/
def slash : UInt8 := 47

def colon : UInt8 := 58

/-- An entry of the path table, which lists the directories only. -/
inductive PathEntry
  | mk (name : Text) (sector : ℕ) (children : List PathEntry)

def PathEntry.name : PathEntry → Text
  | .mk name _ _ => name

def PathEntry.sector : PathEntry → ℕ
  | .mk _ sector _ => sector

def PathEntry.children : PathEntry → List PathEntry
  | .mk _ _ children => children

structure Record where
  name : Text
  sector : ℕ
  size : ℕ
  flags : UInt8
  deriving DecidableEq

/-- The records at a sector: the one of the directory itself, whether there is one
of the directory above, and the others. -/
structure Extent where
  self : Record
  parent : Option Record
  records : List Record

structure Mount where
  root : PathEntry
  current : Option PathEntry
  extent : ℕ → Option Extent

structure DirEntry where
  record : Record
  pathEntry : Option PathEntry
  children : List Record

def dotdot : Text := [46,46]

/-- `read_directory`: the link upwards is not shown at the root. -/
def readDirectory (m : Mount) (e : PathEntry) : Option DirEntry :=
  (m.extent e.sector).map fun x =>
    { record := { x.self with name := [] },
      pathEntry := some e,
      children := (match x.parent with
        | some r => if m.root.sector = x.self.sector then [] else [{ r with name := dotdot }]
        | none => [])++x.records }

def tolower (c : UInt8) : UInt8 := if 65 ≤ c ∧ c ≤ 90 then c+32 else c

/-- The length test and `strncasecmp` of the searches. -/
def sameName (base name : Text) : Bool :=
  decide (base.length = min name.length 127) &&
    decide (base.map tolower = (name.take base.length).map tolower)

/-- The loop of `path_entry_from_path`; the text begins with a name. -/
def pathLoop : ℕ → PathEntry → Text → Option PathEntry
  | 0, _, _ => none
  | n+1, dir, path =>
    let name := path.takeWhile (fun c => decide (c ≠ slash))
    let rest := path.dropWhile (fun c => decide (c ≠ slash))
    if 128 ≤ name.length then none
    else match dir.children.find? (fun e => sameName name e.name) with
      | none => none
      | some entry =>
        let next := rest.dropWhile (fun c => decide (c = slash))
        if next = [] then some entry else pathLoop n entry next

def pathEntryFromPath (m : Mount) (path : Text) : Option PathEntry :=
  let path := path.dropWhile (fun c => decide (c = slash))
  if path = [] then some m.root else pathLoop path.length m.root path

def findInDirectory (m : Mount) (parent : PathEntry) (base : Text) : Option DirEntry :=
  if base = [] then readDirectory m parent
  else match parent.children.find? (fun e => sameName base e.name) with
    | some child => readDirectory m child
    | none =>
      (readDirectory m parent).bind fun entry =>
        (entry.children.find? (fun r => sameName base r.name)).map fun r =>
          { record := r, pathEntry := none, children := [] }

def basename (path : Text) : Text :=
  match lastIndex slash path path.length with
  | some i => path.drop (i+1)
  | none => path

/-- How `dirname` ends. Its index is unsigned, so that without a separator it goes on
with the bytes in front of the copy, until it finds one to overwrite or
reads what is not there. -/
inductive Dirname
  | cut (dir : Text)
  | stray (distance : ℕ)
  | fault

def dirname (below : Text) (path : Text) : Dirname :=
  match lastIndex slash path path.length with
  | some i => .cut (path.take i)
  | none =>
    match below.findIdx? (fun c => decide (c = slash)) with
    | some k => .stray (k+1)
    | none => .fault

def stripDevice (path : Text) : Text :=
  if colon ∈ path then (path.dropWhile (fun c => decide (c ≠ colon))).tail else path

/-- What a call gives, and the byte in front of a copy of the path it has overwritten. -/
inductive Outcome (α : Type)
  | done (stray : Option ℕ) (result : α)
  | fault

def Outcome.map {α β : Type} (f : α → β) : Outcome α → Outcome β
  | .done k a => .done k (f a)
  | .fault => .fault

def resolve (m : Mount) (dir base : Text) : Option DirEntry :=
  (pathEntryFromPath m dir).bind fun parent => findInDirectory m parent base

def entryFromPath (m : Mount) (below path : Text) : Outcome (Option DirEntry) :=
  let path := trim slash (stripDevice path)
  match dirname below path with
  | .cut dir => .done none (resolve m dir (basename path))
  | .stray k => .done (some k) (resolve m path (basename path))
  | .fault => .fault

inductive Errno
  | enoent | eisdir | enotdir
  deriving DecidableEq

def isDir (r : Record) : Bool := r.flags &&& 2 != 0

structure Stat where
  ino : ℕ
  directory : Bool
  size : ℕ
  blocks : ℕ
  deriving DecidableEq

def statEntry (r : Record) : Stat := ⟨r.sector,isDir r,r.size,(r.size+2047)%4294967296/2048⟩

def openFile (m : Mount) (below path : Text) : Outcome (Except Errno Record) :=
  (entryFromPath m below path).map fun
    | none => .error .enoent
    | some e => if isDir e.record then .error .eisdir else .ok e.record

def stat (m : Mount) (below path : Text) : Outcome (Except Errno Stat) :=
  (entryFromPath m below path).map fun
    | none => .error .enoent
    | some e => .ok (statEntry e.record)

/-- `diropen` and what the calls of `dirnext` then give. -/
def list (m : Mount) (below path : Text) : Outcome (Except Errno (List (Text × Stat))) :=
  (entryFromPath m below path).map fun
    | none => .error .enoent
    | some e =>
      if isDir e.record then .ok (e.children.map fun r => (r.name,statEntry r))
      else .error .enotdir

def chdir (m : Mount) (below path : Text) : Outcome (Except Errno Mount) :=
  (entryFromPath m below path).map fun
    | none => .error .enoent
    | some e => if isDir e.record then .ok { m with current := e.pathEntry } else .error .enotdir

end Libogc.Iso9660
