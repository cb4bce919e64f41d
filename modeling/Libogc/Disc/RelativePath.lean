import Libogc.Disc.Iso9660
import Mathlib.Data.List.Induction

/-!
# Relative paths and the current directory

A lookup walks from the root along the words of the directory part of its
path, whatever `chdir` has recorded. A relative path therefore means the same
as the one below the current directory exactly if that directory is the root;
and a path without a separator is not split at all, since `dirname` runs over
the front of its copy.
-/

set_option autoImplicit false

namespace Libogc.RelativePath
open List PathParts Iso9660 Option

def child (name : Text) (e : PathEntry) : Option PathEntry :=
  e.children.find? (fun c => sameName name c.name)

def descend : PathEntry → List Text → Option PathEntry
  | e, [] => some e
  | e, w::ws => if 128 ≤ w.length then none else (child w e).bind (descend · ws)

theorem descend_append (e : PathEntry) (a b : List Text) :
    descend e (a++b) = (descend e a).bind (descend · b) := by
  induction a generalizing e with
  | nil => rfl
  | cons w a ih =>
    rw [cons_append, descend, descend]
    split
    · rfl
    · cases child w e with
      | none => rfl
      | some c => exact ih c

variable {ws : List Text} {m m' : Mount} {c e f : PathEntry} {d name p w : Text}

theorem child_spec (h : child name e = some c) : c ∈ e.children ∧ sameName name c.name = true := by
  have hs := find?_some h
  exact ⟨mem_of_find?_eq_some h,by simpa using hs⟩

theorem child_size (h : child name e = some c) : sizeOf c < sizeOf e := by
  have hs := sizeOf_lt_of_mem (child_spec h).1
  cases e with
  | mk n s cs =>
    simp only [PathEntry.children] at hs
    simp only [PathEntry.mk.sizeOf_spec]
    omega

/-- The tree is finite, so a walk cannot be longer than it is deep. -/
theorem descend_length (h : descend e ws = some f) : ws.length < sizeOf e := by
  induction ws generalizing e with
  | nil => cases e; simp only [PathEntry.mk.sizeOf_spec, length_nil]; omega
  | cons w ws ih =>
    rw [descend] at h
    split at h
    · exact absurd h (by simp)
    · obtain ⟨c,hc,hd⟩ := bind_eq_some_iff.mp h
      have hs := child_size hc
      have hl := ih hd
      rw [length_cons]
      omega

theorem pathLoop_descend (n : ℕ) (dir : PathEntry) (path : Text) (hn : path.length ≤ n)
    (hf : path.takeWhile (fun c => decide (c ≠ slash)) ≠ []) :
    pathLoop n dir path = descend dir (parts slash [] path) := by
  induction n generalizing dir path with
  | zero =>
    have hp : path = [] := length_eq_zero_iff.mp (by omega)
    exact absurd (by simp [hp]) hf
  | succ n ih =>
    rw [parts_takeWhile [] path (by simpa using hf), nil_append, pathLoop, descend]
    split
    · rfl
    · cases hc : child (path.takeWhile (fun c => decide (c ≠ slash))) dir with
      | none =>
        unfold child at hc
        simp only [hc]
        rfl
      | some c =>
        unfold child at hc
        simp only [hc]
        rw [← parts_dropWhile (path.dropWhile _)]
        split
        · rename_i hnil
          rw [hnil]
          rfl
        · rename_i hnext
          apply ih _ _ _ (takeWhile_dropWhile_ne_nil hnext)
          have hle := (dropWhile_suffix (l := path.dropWhile (fun c => decide (c ≠ slash)))
            (fun c => decide (c = slash))).length_le
          have hlen := congrArg length
            (takeWhile_append_dropWhile (p := fun c => decide (c ≠ slash)) (l := path))
          have hpos := length_pos_iff.mpr hf
          rw [length_append] at hlen
          omega

theorem pathEntryFromPath_descend (m : Mount) (path : Text) :
    pathEntryFromPath m path = descend m.root (parts slash [] path) := by
  rw [← parts_dropWhile, pathEntryFromPath]
  split
  · rename_i hnil
    rw [hnil]
    rfl
  · rename_i hpath
    exact pathLoop_descend _ _ _ (Nat.le_refl _) (takeWhile_dropWhile_ne_nil hpath)

variable {path dir base below : Text}

theorem dirname_split (hp : path = dir++slash::base) (hb : slash ∉ base)
    (below : Text) : dirname below path = .cut dir ∧ basename path = base := by
  have hi : lastIndex slash path path.length = some dir.length := by
    rw [hp]
    exact lastIndex_append hb
  constructor
  · rw [dirname, hi]
    simp [hp]
  · rw [basename, hi]
    simp [hp]

def found (m : Mount) (ws : List Text) (base : Text) : Option DirEntry :=
  (descend m.root ws).bind fun parent => findInDirectory m parent base

theorem entryFromPath_split
    (hp : trim slash (stripDevice path) = dir++slash::base) (hb : slash ∉ base) (below : Text) :
    entryFromPath m below path = .done none (found m (parts slash [] dir) base) := by
  obtain ⟨hd,hn⟩ := dirname_split hp hb below
  rw [entryFromPath, hd, hn]
  simp only [resolve, pathEntryFromPath_descend, found]

theorem entryFromPath_unsplit (hp : slash ∉ trim slash (stripDevice p)) (below : Text)
    (r : Option DirEntry) : entryFromPath m below p ≠ .done none r := by
  have hi := lastIndex_none hp (trim slash (stripDevice p)).length
  unfold entryFromPath dirname
  simp only [hi]
  cases below.findIdx? (fun c => decide (c = slash)) <;> simp

theorem stripDevice_none (hp : colon ∉ p) : stripDevice p = p := if_neg hp

theorem stripDevice_append (hp : colon ∉ p) :
    stripDevice (d++slash::p) = stripDevice d++slash::p := by
  by_cases hd : colon ∈ d
  · obtain ⟨a,b,rfl,ha⟩ := eq_append_cons_of_mem hd
    have hdrop : ∀ x : Text, (a++colon::x).dropWhile (fun c => decide (c ≠ colon)) = colon::x := by
      intro x
      rw [dropWhile_append_of_pos (by
        intro c hc
        exact decide_eq_true (fun h => ha (h ▸ hc)))]
      simp
    rw [stripDevice, if_pos (by simp), stripDevice, if_pos (by simp), append_assoc,
      cons_append, hdrop, hdrop]
    rfl
  · have hn : colon ∉ d++slash::p := by
      simp only [mem_append, mem_cons, not_or]
      exact ⟨hd,by decide,hp⟩
    rw [stripDevice_none hn, stripDevice_none hd]

/-- A path of the current device that does not begin at its root. -/
def Relative (p : Text) : Prop := colon ∉ p ∧ p.head? ≠ some slash

def Absolute (d : Text) : Prop := (stripDevice d).head? = some slash

/-- A separator is left when those at the end are taken off. -/
def Divided (p : Text) : Prop := slash ∈ trim slash p

def AtRoot (d : Text) : Prop := ∀ c ∈ stripDevice d, c = slash

theorem divided_split (hr : Relative p) (hp : Divided p) : ∃ dir base,
    slash ∉ base ∧ trim slash (stripDevice p) = dir++slash::base ∧
      ∀ d, trim slash (stripDevice (d++slash::p)) = (stripDevice d++slash::dir)++slash::base := by
  obtain ⟨dir,base,he,hb⟩ := exists_last hp
  have hdir : dir ≠ [] := by
    intro h
    have hh : (trim slash p).head? = some slash := by rw [he, h]; rfl
    exact hr.2 (by rw [← trim_head slash, hh])
  have hlen : 2 ≤ (trim slash p).length := by
    have hpos := length_pos_iff.mpr hdir
    rw [he, length_append, length_cons]
    omega
  refine ⟨dir,base,hb,by rw [stripDevice_none hr.1, he],fun d => ?_⟩
  have ha : stripDevice d++slash::p = (stripDevice d++[slash])++p := by simp
  rw [stripDevice_append hr.1, ha, trim_append hlen, he]
  simp

theorem absolute_split (h : Absolute d) : ∃ dir base,
    slash ∉ base ∧ trim slash (stripDevice d) = dir++slash::base := by
  have hh : (trim slash (stripDevice d)).head? = some slash := by rw [trim_head slash, h]
  obtain ⟨dir,base,he,hb⟩ := exists_last (mem_of_mem_head? hh)
  exact ⟨dir,base,hb,he⟩

/-- All calls give the same for the relative path and the one below `d`, whatever
lies in memory in front of the copies. -/
def Same (m : Mount) (d p : Text) : Prop := ∀ below below',
  openFile m below p = openFile m below' (d++slash::p) ∧
  stat m below p = stat m below' (d++slash::p) ∧
  list m below p = list m below' (d++slash::p)

/-- A disc whose directories can be read: each one but the root has a link upwards,
the path table has all directories that the records name, and no name there is the one of
the link or has the mark of a device in it. -/
structure WellFormed (m : Mount) : Prop where
  readable : ∀ {ws e}, descend m.root ws = some e → ∃ x, m.extent e.sector = some x ∧
    (∃ r, x.parent = some r) ∧ (m.root.sector = x.self.sector ↔ ws = []) ∧
    ∀ r ∈ x.records, isDir r → ∃ c ∈ e.children, c.name = r.name
  named : ∀ {ws e}, descend m.root ws = some e → ∀ c ∈ e.children,
    sameName dotdot c.name = false ∧ colon ∉ c.name

theorem tolower_colon {c : UInt8} (h : tolower c = colon) : c = colon := by
  unfold tolower at h
  split at h
  · rename_i hc
    have h' := congrArg UInt8.toNat h
    have hl := UInt8.le_iff_toNat_le.mp hc.1
    have hu := UInt8.le_iff_toNat_le.mp hc.2
    simp only [UInt8.toNat_add, colon, UInt8.toNat_ofNat] at h' hl hu
    omega
  · exact h

theorem sameName_colon (h : sameName w name = true) (hn : colon ∉ name) : colon ∉ w := by
  simp only [sameName, Bool.and_eq_true, decide_eq_true_eq] at h
  intro hw
  have hm : tolower colon ∈ (name.take w.length).map tolower := by
    rw [← h.2]
    exact mem_map_of_mem hw
  obtain ⟨c,hc,he⟩ := mem_map.mp hm
  have hcolon : c = colon := tolower_colon he
  exact hn (hcolon ▸ mem_of_mem_take hc)

theorem descend_colon (hm : WellFormed m) (h : descend m.root ws = some f) :
    ∀ w ∈ ws, colon ∉ w := by
  induction ws using reverseRecOn generalizing f with
  | nil => simp
  | append_singleton ws w ih =>
    rw [descend_append] at h
    obtain ⟨e,he,hf⟩ := bind_eq_some_iff.mp h
    intro v hv
    rcases mem_append.mp hv with hv | hv
    · exact ih he v hv
    · obtain rfl : v = w := mem_singleton.mp hv
      rw [descend] at hf
      split at hf
      · exact absurd hf (by simp)
      · obtain ⟨c,hc,-⟩ := bind_eq_some_iff.mp hf
        obtain ⟨hmem,hsame⟩ := child_spec hc
        exact sameName_colon hsame (hm.named he c hmem).2

theorem found_dotdot (hm : WellFormed m) (h : descend m.root ws = some e) (hn : ws ≠ []) :
    (found m ws dotdot).isSome := by
  obtain ⟨x,hx,⟨r,hr⟩,hroot,-⟩ := hm.readable h
  have hnone : e.children.find? (fun c => sameName dotdot c.name) = none :=
    find?_eq_none.mpr fun c hc => by simp [(hm.named h c hc).1]
  have hs : m.root.sector ≠ x.self.sector := fun hs => hn (hroot.mp hs)
  have hd : sameName dotdot dotdot = true := by decide
  simp [found, h, findInDirectory, hnone, readDirectory, hx, hr, hs, hd, show dotdot ≠ [] by decide]

def upPath (ws : List Text) : Text := closed slash ws++dotdot

theorem upPath_spec (hn : ws ≠ []) (hw : ∀ w ∈ ws, w ≠ [] ∧ slash ∉ w ∧ colon ∉ w) :
    Relative (upPath ws) ∧ Divided (upPath ws) ∧
      ∃ dir, parts slash [] dir = ws ∧ trim slash (upPath ws) = dir++slash::dotdot := by
  obtain ⟨dir,hdir⟩ := closed_ne_nil slash hn
  have hparts : parts slash [] dir = ws := by
    have h := parts_closed ws [] (fun w h => ⟨(hw w h).1,(hw w h).2.1⟩)
    rw [hdir, append_nil, parts_append] at h
    simpa using h
  have hlast : upPath ws = (dir++[slash,46])++[46] := by simp [upPath, hdir, dotdot]
  have htrim : trim slash (upPath ws) = dir++slash::dotdot := by
    rw [hlast, trim_of_last (by decide)]
    simp [dotdot]
  have hcolon : colon ∉ upPath ws := by
    have h : ∀ ws : List Text, (∀ w ∈ ws, colon ∉ w) → colon ∉ upPath ws := by
      intro ws
      induction ws with
      | nil => intro _; decide
      | cons w ws ih =>
        intro h
        have h' := ih (fun v hv => h v (by simp [hv]))
        simp only [upPath, closed, append_assoc, cons_append, mem_append,
          mem_cons, not_or] at h' ⊢
        exact ⟨h w (by simp),by decide,h'⟩
    exact h ws (fun w h => (hw w h).2.2)
  refine ⟨⟨hcolon,?_⟩,?_,dir,hparts,htrim⟩
  · cases ws with
    | nil => exact absurd rfl hn
    | cons w ws =>
      obtain ⟨hne,hs,-⟩ := hw w (by simp)
      cases w with
      | nil => exact absurd rfl hne
      | cons c w =>
        intro hc
        have hc' : c = slash := by simpa [upPath, closed] using hc
        exact hs (by simp [hc'])
  · rw [Divided, htrim]
    simp

theorem same_descends (hm : WellFormed m) (h : descend m.root ws = some e) (hn : ws ≠ [])
    (hw : ∀ w ∈ ws, w ≠ [] ∧ slash ∉ w) (hs : ∀ p, Relative p → Divided p → Same m d p) :
    ∃ f, descend m.root (parts slash [] (stripDevice d)++ws) = some f := by
  have hwords : ∀ w ∈ ws, w ≠ [] ∧ slash ∉ w ∧ colon ∉ w :=
    fun w hm' => ⟨(hw w hm').1,(hw w hm').2,descend_colon hm h w hm'⟩
  obtain ⟨hrel,hdiv,dir,hdir,htrim⟩ := upPath_spec hn hwords
  have hstat := (hs _ hrel hdiv [] []).2.1
  have hb : slash ∉ dotdot := by decide
  obtain ⟨dir',base',hb',he,hd⟩ := divided_split hrel hdiv
  have hpath : stripDevice (upPath ws) = upPath ws := stripDevice_none hrel.1
  -- both descriptions of the path are the split at the last separator
  obtain ⟨hdir',hbase'⟩ : dir' = dir ∧ base' = dotdot := by
    rw [hpath, htrim] at he
    have h1 := dirname_split (rfl : dir++slash::dotdot = dir++slash::dotdot) hb ([] : Text)
    have h2 := dirname_split he hb' ([] : Text)
    exact ⟨Dirname.cut.inj (h2.1.symm.trans h1.1),h2.2.symm.trans h1.2⟩
  rw [hdir', hbase'] at hd
  rw [stat, entryFromPath_split (hpath ▸ htrim) hb, stat, entryFromPath_split (hd d) hb,
    parts_append, hdir] at hstat
  obtain ⟨a,ha⟩ := isSome_iff_exists.mp (found_dotdot hm h hn)
  cases hf : descend m.root (parts slash [] (stripDevice d)++ws) with
  | some f => exact ⟨f,rfl⟩
  | none =>
    have hnone : found m (parts slash [] (stripDevice d)++ws) dotdot = none := by
      rw [found, hf]
      rfl
    simp [ha, hnone, Outcome.map] at hstat

theorem chdir_descends (hm : WellFormed m) (ha : Absolute d)
    (h : chdir m below d = .done none (.ok m')) :
    (∃ e, descend m.root (parts slash [] (stripDevice d)) = some e) ∨
      ∃ ws e base, parts slash [] (stripDevice d) = ws++[base] ∧ ws ≠ [] ∧
        descend m.root ws = some e ∧ child base e = none := by
  obtain ⟨dir,base,hb,he⟩ := absolute_split ha
  have hparts : parts slash [] (stripDevice d) = parts slash [] dir++parts slash [] base := by
    rw [← parts_trim, he, parts_append]
  rw [chdir, entryFromPath_split he hb] at h
  cases hf : found m (parts slash [] dir) base with
  | none => simp [hf, Outcome.map] at h
  | some a =>
    obtain ⟨e,hd,hfind⟩ := bind_eq_some_iff.mp hf
    by_cases hbase : base = []
    · left
      exact ⟨e,by rw [hparts, hbase, parts_nil, append_nil, hd]⟩
    · rw [parts_single hb hbase] at hparts
      cases hc : child base e with
      | some c =>
        left
        have hlen : base.length < 128 := by
          have hs := (child_spec hc).2
          simp only [sameName, Bool.and_eq_true, decide_eq_true_eq] at hs
          omega
        refine ⟨c,?_⟩
        rw [hparts, descend_append, hd, bind_some, descend, if_neg (by omega), hc]
        rfl
      | none =>
        right
        refine ⟨parts slash [] dir,e,base,hparts,?_,hd,hc⟩
        -- at the root there is no link upwards, so what was found is a directory of the tree
        intro hroot
        obtain ⟨x,hx,-,hsec,hrec⟩ := hm.readable hd
        have hsec' : m.root.sector = x.self.sector := hsec.mpr hroot
        have hc' : e.children.find? (fun c => sameName base c.name) = none := hc
        simp only [findInDirectory, if_neg hbase, hc', readDirectory, hx, map_some,
          if_pos hsec'] at hfind
        obtain ⟨r,hr,hra⟩ := map_eq_some_iff.mp hfind
        have hmem : r ∈ x.records := by
          have hmem := mem_of_find?_eq_some hr
          cases hp : x.parent <;> simpa [hp] using hmem
        have hdir : isDir r := by
          rw [← hra] at hf
          by_contra hno
          simp [hf, Outcome.map, hno] at h
        obtain ⟨c,hcm,hcn⟩ := hrec r hmem hdir
        have hno := find?_eq_none.mp hc' c hcm
        rw [hcn] at hno
        exact hno (by simpa using find?_some hr)

/-- A current directory that the calls honour is the root: otherwise one could walk
along its words again and again. -/
theorem same_root (hm : WellFormed m) (ha : Absolute d)
    (h : chdir m below d = .done none (.ok m')) (hs : ∀ p, Relative p → Divided p → Same m d p) :
    AtRoot d := by
  apply parts_eq_nil.mp
  by_contra hn
  have hwords : ∀ w ∈ parts slash [] (stripDevice d), w ≠ [] ∧ slash ∉ w := fun w hw => by
    obtain ⟨h1,h2,-⟩ := mem_parts (by simp) hw
    exact ⟨h1,h2⟩
  rcases chdir_descends hm ha h with ⟨e,he⟩ | ⟨ws,e,base,hp,hws,he,hc⟩
  · have hrep : ∀ n, ∃ f, descend m.root
        (replicate (n+1) (parts slash [] (stripDevice d))).flatten = some f := by
      intro n
      induction n with
      | zero => exact ⟨e,by simpa using he⟩
      | succ n ih =>
        obtain ⟨f,hf⟩ := ih
        have hmem : ∀ w ∈ (replicate (n+1) (parts slash [] (stripDevice d))).flatten,
            w ≠ [] ∧ slash ∉ w := by
          intro w hw
          obtain ⟨l,hl,hwl⟩ := mem_flatten.mp hw
          exact hwords w ((mem_replicate.mp hl).2 ▸ hwl)
        have hne : (replicate (n+1) (parts slash [] (stripDevice d))).flatten ≠ [] := by
          exact append_ne_nil_of_left_ne_nil hn _
        obtain ⟨g,hg⟩ := same_descends hm hf hne hmem hs
        exact ⟨g,by rw [replicate_succ, flatten_cons, hg]⟩
    obtain ⟨f,hf⟩ := hrep (sizeOf m.root)
    have hlen := descend_length hf
    have hpos := length_pos_iff.mpr hn
    rw [length_flatten, map_replicate, sum_replicate_nat] at hlen
    have hmul := Nat.le_mul_of_pos_right (sizeOf m.root+1) hpos
    omega
  · have hmem : ∀ w ∈ ws, w ≠ [] ∧ slash ∉ w := fun w hw => hwords w (by simp [hp, hw])
    obtain ⟨f,hf⟩ := same_descends hm he hws hmem hs
    rw [hp, append_assoc, descend_append, he, bind_some, singleton_append,
      descend] at hf
    split at hf
    · exact absurd hf (by simp)
    · simp [hc] at hf

theorem root_same (hd : AtRoot d) (hr : Relative p) (hp : Divided p) : Same m d p := by
  intro below below'
  obtain ⟨dir,base,hb,he,hd'⟩ := divided_split hr hp
  have hnil : parts slash [] (stripDevice d) = [] := parts_eq_nil.mpr hd
  have hsame : entryFromPath m below p = entryFromPath m below' (d++slash::p) := by
    rw [entryFromPath_split he hb, entryFromPath_split (hd' d) hb, parts_append, hnil,
      nil_append]
  exact ⟨by rw [openFile, openFile, hsame],by rw [stat, stat, hsame],by rw [list, list, hsame]⟩

theorem undivided_differs (ha : Absolute d) (hr : Relative p) (hp : ¬ Divided p) :
    ¬ Same m d p := by
  intro hs
  have hh : (trim slash (stripDevice (d++slash::p))).head? = some slash := by
    have hd : stripDevice d ≠ [] := fun h => by simp [Absolute, h] at ha
    rw [trim_head slash, stripDevice_append hr.1, head?_append_of_ne_nil _ hd]
    exact ha
  obtain ⟨dir,base,he,hb⟩ := exists_last (mem_of_mem_head? hh)
  have hstat := (hs [] []).2.1
  rw [stat, stat, entryFromPath_split he hb] at hstat
  have hun := entryFromPath_unsplit (m := m) (by rwa [stripDevice_none hr.1]) []
  cases hx : entryFromPath m [] p with
  | fault => simp [hx, Outcome.map] at hstat
  | done k r =>
    cases k with
    | none => exact hun r hx
    | some k => simp [hx, Outcome.map] at hstat

theorem dirname_iff (below path : Text) :
    (∃ dir, dirname below path = .cut dir ∧ path = dir++slash::basename path ∧
      slash ∉ basename path) ↔ slash ∈ path := by
  constructor
  · rintro ⟨dir,-,hp,-⟩
    rw [hp]
    simp
  · intro h
    obtain ⟨dir,base,hp,hb⟩ := exists_last h
    obtain ⟨hd,hn⟩ := dirname_split hp hb below
    exact ⟨dir,hd,by rw [hn]; exact hp,by rw [hn]; exact hb⟩

theorem chdir_same {x : Text} {k : Option ℕ} (h : chdir m below d = .done k (.ok m')) :
    Same m' x p ↔ Same m x p := by
  have hm : ∃ c, m' = { m with current := c } := by
    rw [chdir] at h
    cases he : entryFromPath m below d with
    | fault => simp [he, Outcome.map] at h
    | done j r =>
      cases r with
      | none => simp [he, Outcome.map] at h
      | some e =>
        rw [he, Outcome.map] at h
        dsimp only at h
        split at h
        · obtain ⟨-,h'⟩ := Outcome.done.inj h
          exact ⟨e.pathEntry,(Except.ok.inj h').symm⟩
        · simp at h
  obtain ⟨c,rfl⟩ := hm
  exact Iff.rfl

/-- After `chdir` to `d` the calls treat the divided relative paths like those below `d`
if and only if `d` is the root; they never do so for an undivided one. A path is split at
its last separator if and only if it has one, and `basename` is right for each. -/
theorem relative_paths {m m' : Mount} (hm : WellFormed m) {d below : Text} (ha : Absolute d)
    (h : chdir m below d = .done none (.ok m')) :
    ((∀ p, Relative p → Divided p → Same m' d p) ↔ AtRoot d) ∧
    (∀ p, Relative p → ¬ Divided p → ¬ Same m' d p) ∧
    (∀ front path, (∃ dir, dirname front path = .cut dir ∧ path = dir++slash::basename path ∧
      slash ∉ basename path) ↔ slash ∈ path) ∧
    ∀ path, slash ∉ path → basename path = path := by
  refine ⟨⟨fun hs => ?_,fun hr p hp hd => ?_⟩,fun p hp hd hs => ?_,dirname_iff,fun path hp => ?_⟩
  · exact same_root hm ha h fun p hp hd => (chdir_same h).mp (hs p hp hd)
  · exact (chdir_same h).mpr (root_same hr hp hd)
  · exact undivided_differs ha hp hd ((chdir_same h).mp hs)
  · rw [basename, lastIndex_none hp]

/-- A disc with a directory `A` in the root, a directory `B` in it and a file `F` there. -/
def disc : Mount where
  root := .mk [] 18 [.mk [65] 20 [.mk [66] 21 []]]
  current := none
  extent
    | 18 => some ⟨⟨[],18,2048,2⟩,some ⟨[],18,2048,2⟩,[⟨[65],20,2048,2⟩]⟩
    | 20 => some ⟨⟨[],20,2048,2⟩,some ⟨[],18,2048,2⟩,[⟨[66],21,2048,2⟩]⟩
    | 21 => some ⟨⟨[],21,2048,2⟩,some ⟨[],20,2048,2⟩,[⟨[70],30,5,0⟩]⟩
    | _ => none

theorem child_single {n : Text} {k : ℕ} (h : child w (.mk n k [c]) = some e) : e = c := by
  simpa [PathEntry.children] using (child_spec h).1

theorem descend_cons (h : descend e (w::ws) = some f) :
    ∃ c, child w e = some c ∧ descend c ws = some f := by
  rw [descend] at h
  split at h
  · exact absurd h (by simp)
  · exact bind_eq_some_iff.mp h

theorem disc_nodes (h : descend disc.root ws = some e) :
    (ws = [] ∧ e = disc.root) ∨ (ws ≠ [] ∧ e = .mk [65] 20 [.mk [66] 21 []]) ∨
      (ws ≠ [] ∧ e = .mk [66] 21 []) := by
  cases ws with
  | nil => exact .inl ⟨rfl,(some.inj h).symm⟩
  | cons v ws =>
    obtain ⟨c,hc,hd⟩ := descend_cons h
    rw [child_single hc] at hd
    cases ws with
    | nil => exact .inr (.inl ⟨by simp,(some.inj hd).symm⟩)
    | cons w ws =>
      obtain ⟨c',hc',hd'⟩ := descend_cons hd
      rw [child_single hc'] at hd'
      cases ws with
      | nil => exact .inr (.inr ⟨by simp,(some.inj hd').symm⟩)
      | cons u ws =>
        obtain ⟨c'',hc'',-⟩ := descend_cons hd'
        simp [child, PathEntry.children] at hc''

theorem disc_wellFormed : WellFormed disc where
  readable := by
    intro ws e h
    rcases disc_nodes h with ⟨hw,rfl⟩ | ⟨hw,rfl⟩ | ⟨hw,rfl⟩
    · exact ⟨_,rfl,⟨_,rfl⟩,by simp [hw, disc, PathEntry.sector],
        by simp [disc, PathEntry.children, PathEntry.name]⟩
    · exact ⟨_,rfl,⟨_,rfl⟩,by simp [hw, disc, PathEntry.sector],
        by simp [PathEntry.children, PathEntry.name]⟩
    · exact ⟨_,rfl,⟨_,rfl⟩,by simp [hw, disc, PathEntry.sector], by simp [isDir]⟩
  named := by
    intro ws e h
    rcases disc_nodes h with ⟨-,rfl⟩ | ⟨-,rfl⟩ | ⟨-,rfl⟩
    · simp [PathEntry.name]; decide
    · simp [PathEntry.name]; decide
    · simp [PathEntry.children]

theorem relative_paths_root : ∃ m', chdir disc [] [47] = .done none (.ok m') ∧
    Same m' [47] [65,47,98] ∧ stat m' [] [65,47,98] = .done none (.ok ⟨21,true,2048,1⟩) := by
  have hc : chdir disc [] [47] = .done none (.ok { disc with current := some disc.root }) := rfl
  have hroot : AtRoot [47] := by
    intro c hm
    simpa [stripDevice, colon, slash] using hm
  have hr := ((relative_paths disc_wellFormed (by unfold Absolute; decide) hc).1.mpr hroot)
    [65,47,98] (by unfold Relative; decide) (by simp [Divided, trim, trimFront, slash])
  exact ⟨_,hc,hr,rfl⟩

/-- With `/A` as the current directory, `B/F` is not found, although `/A/B/F` is; and
`dirname` of `F` writes to a byte that is not its own or ends in a fault. -/
theorem relative_path_lost : ∃ m', chdir disc [] [47,65] = .done none (.ok m') ∧
    stat m' [] [66,47,70] = .done none (.error .enoent) ∧
    stat m' [] [47,65,47,66,47,70] = .done none (.ok ⟨30,false,5,1⟩) ∧
    dirname [0,47] [70] = .stray 2 ∧ dirname [] [70] = .fault :=
  ⟨_,rfl,rfl,rfl,rfl,rfl⟩

end Libogc.RelativePath
