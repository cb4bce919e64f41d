import Mathlib.Data.Nat.Notation

/-!
# The read cache of the disc drive

A miss reads a whole window of blocks from the one that is asked for. The test
for a hit adds the number of blocks in 32 bits.
-/

set_option autoImplicit false

namespace Libogc.DriveCache

variable {B : Type*}

def cacheBlocks : ℕ := 26

def cacheFree : ℕ := 0xFFFFFFFF

structure Drive (B : Type*) where
  size : ℕ
  disc : ℕ → B

def Drive.Inside (d : Drive B) (len block : ℕ) : Prop := len = 0 ∨ block+len ≤ d.size

instance (d : Drive B) (len block : ℕ) : Decidable (d.Inside len block) :=
  inferInstanceAs (Decidable (_ ∨ _))

def readDVDptr (d : Drive B) (len block : ℕ) : Option (List B) :=
  if d.Inside len block then some ((List.range len).map (fun i => d.disc (block+i))) else none

/-- The first block of the window and what is in memory from its start on. -/
structure Cache (B : Type*) where
  block : ℕ
  ptr : ℕ → B

def copy (c : Cache B) (first n : ℕ) : List B :=
  (List.range (n % 2097152)).map (fun i => c.ptr (first % 2097152+i))

def hit (c : Cache B) (len block : ℕ) : Bool :=
  decide (c.block ≤ block ∧ (block+len) % 4294967296 < (c.block+cacheBlocks) % 4294967296)

/-- A drive that fails leaves `junk` in the window. -/
def readBlockFromCache (d : Drive B) (junk : ℕ → B) (len block : ℕ) :
    Option (Cache B) → Option (List B) × Option (Cache B)
  | none => (readDVDptr d len block,none)
  | some c =>
    if hit c len block then (some (copy c (block-c.block) len),some c)
    else if cacheBlocks < len then (readDVDptr d len block,some c)
    else match readDVDptr d cacheBlocks block with
      | none => (none,some ⟨cacheFree,junk⟩)
      | some bs =>
        let c' : Cache B := ⟨block,fun i => bs.getD i (c.ptr i)⟩
        (some (copy c' 0 len),some c')

def createDVDCache (mem : Option (ℕ → B)) : Option (Cache B) := mem.map (Cache.mk cacheFree)

structure Call (B : Type*) where
  len : ℕ
  block : ℕ
  junk : ℕ → B

def run (d : Drive B) (calls : List (Call B)) (c : Option (Cache B)) : Option (Cache B) :=
  calls.foldl (fun c a => (readBlockFromCache d a.junk a.len a.block c).2) c

def Sound (d : Drive B) (c : Cache B) : Prop :=
  c.block = cacheFree ∨ c.block+cacheBlocks ≤ d.size ∧
    ∀ i, i < cacheBlocks → c.ptr i = d.disc (c.block+i)

/-- A hit is one without the wrap of 32 bits, and a miss of at most a window is
a window before the end of the disc, or is outside of the disc itself. -/
def Agreeing (d : Drive B) (len block : ℕ) (c : Cache B) : Prop :=
  if hit c len block then block+len < 4294967296
  else len ≤ cacheBlocks → block+cacheBlocks ≤ d.size ∨ ¬d.Inside len block

instance (d : Drive B) (len block : ℕ) (c : Cache B) : Decidable (Agreeing d len block c) :=
  inferInstanceAs (Decidable (ite _ _ _))

variable {d : Drive B} {c : Cache B} {len block : ℕ}

theorem readDVDptr_window (h : block+cacheBlocks ≤ d.size) : readDVDptr d cacheBlocks block =
    some ((List.range cacheBlocks).map (fun i => d.disc (block+i))) := if_pos (.inr h)

theorem sound_window (h : block+cacheBlocks ≤ d.size) (p : ℕ → B) : Sound d ⟨block,fun i =>
    ((List.range cacheBlocks).map (fun i => d.disc (block+i))).getD i (p i)⟩ := by
  refine .inr ⟨h,fun i hi => ?_⟩
  simp [hi]

theorem copy_sound (h : Sound d c) (hfree : c.block ≠ cacheFree) {first : ℕ}
    (hlen : first+len ≤ cacheBlocks) :
    copy c first len = (List.range len).map (fun i => d.disc (c.block+first+i)) := by
  unfold cacheBlocks at hlen
  rw [copy, Nat.mod_eq_of_lt (by omega), Nat.mod_eq_of_lt (by omega)]
  refine List.map_congr_left (fun i hi => ?_)
  have hi := List.mem_range.mp hi
  rw [(h.resolve_left hfree).2 _ (by unfold cacheBlocks; omega), Nat.add_assoc]

theorem miss_cases (junk : ℕ → B) (hmiss : hit c len block = false) (hlen : len ≤ cacheBlocks) :
    (¬block+cacheBlocks ≤ d.size ∧
      readBlockFromCache d junk len block (some c) = (none,some ⟨cacheFree,junk⟩)) ∨
    block+cacheBlocks ≤ d.size ∧ ∃ c', c'.block = block ∧ Sound d c' ∧
      readBlockFromCache d junk len block (some c) = (some (copy c' 0 len),some c') := by
  by_cases h : block+cacheBlocks ≤ d.size
  · refine .inr ⟨h,_,rfl,sound_window h c.ptr,?_⟩
    simp [readBlockFromCache, hmiss, Nat.not_lt.mpr hlen, readDVDptr_window h]
  · refine .inl ⟨h,?_⟩
    simp [readBlockFromCache, hmiss, Nat.not_lt.mpr hlen, readDVDptr, Drive.Inside, h,
      show cacheBlocks ≠ 0 by decide]

variable {junk : ℕ → B} {s : Option (Cache B)}

theorem read_sound (h : ∀ c ∈ s, Sound d c) :
    ∀ c ∈ (readBlockFromCache d junk len block s).2, Sound d c := by
  cases s with
  | none => exact h
  | some c =>
    cases hhit : hit c len block with
    | true => simpa [readBlockFromCache, hhit] using h
    | false =>
      by_cases hlen : cacheBlocks < len
      · simpa [readBlockFromCache, hhit, hlen] using h
      · rcases miss_cases (d := d) junk hhit (Nat.not_lt.mp hlen) with
          ⟨-,heq⟩ | ⟨-,c',-,hc',heq⟩
        · simp [heq, Sound]
        · simpa [heq] using hc'

theorem run_sound (calls : List (Call B)) (h : ∀ c ∈ s, Sound d c) :
    ∀ c ∈ run d calls s, Sound d c := by
  induction calls generalizing s with
  | nil => exact h
  | cons a calls ih => exact ih (read_sound h)

theorem agrees_iff (hsize : d.size < 2147483648) (h : Sound d c)
    (hblock : block < 4294967296) : (readBlockFromCache d junk len block (some c)).1 =
      readDVDptr d len block ↔ Agreeing d len block c := by
  have hsize' : cacheBlocks = 26 := rfl
  have hfree' : cacheFree = 4294967295 := rfl
  unfold Agreeing
  cases hhit : hit c len block with
  | true =>
    have hbounds := of_decide_eq_true hhit
    simp only [readBlockFromCache, hhit, if_true]
    by_cases hwrap : block+len < 4294967296
    · have hfree : c.block ≠ cacheFree := by omega
      have hon := (h.resolve_left hfree).1
      rw [copy_sound h hfree (by omega), readDVDptr, if_pos (.inr (by omega))]
      simp [hwrap, show c.block+(block-c.block) = block by omega]
    · rw [readDVDptr, if_neg (by unfold Drive.Inside; omega)]
      simp [hwrap]
  | false =>
    by_cases hlen : cacheBlocks < len
    · simp [readBlockFromCache, hhit, hlen, Nat.not_le.mpr hlen]
    · rcases miss_cases (d := d) junk hhit (Nat.not_lt.mp hlen) with
        ⟨hend,heq⟩ | ⟨hon,c',rfl,hc',heq⟩
      · simp [heq, hend, Nat.not_lt.mp hlen, readDVDptr]
      · rw [heq, copy_sound hc' (by omega) (by omega), readDVDptr, if_pos (.inr (by omega))]
        simp [hon]

/-- After any reads, one gives the blocks that it gives without the cache just
if the cache agrees. -/
theorem cached_reads_agree_iff (d : Drive B) (hsize : d.size < 2147483648) (mem : Option (ℕ → B))
    (calls : List (Call B)) (len block : ℕ) (hblock : block < 4294967296) (junk : ℕ → B) :
    (readBlockFromCache d junk len block (run d calls (createDVDCache mem))).1 =
      readDVDptr d len block ↔
    ∀ c ∈ run d calls (createDVDCache mem), Agreeing d len block c := by
  have hsound : ∀ c ∈ run d calls (createDVDCache mem), Sound d c := by
    refine run_sound calls (fun c hc => .inl ?_)
    obtain ⟨p,-,rfl⟩ := Option.map_eq_some_iff.mp hc
    rfl
  cases hs : run d calls (createDVDCache mem) with
  | none => simp [readBlockFromCache]
  | some c => simpa using agrees_iff hsize (hsound c hs) hblock

theorem cached_reads_agree_hit : (readBlockFromCache ⟨30,id⟩ id 25 0
    (run ⟨30,id⟩ [⟨1,0,id⟩] (createDVDCache (some id)))).1 = readDVDptr ⟨30,id⟩ 25 0 :=
  (cached_reads_agree_iff ⟨30,id⟩ (by decide) (some id) [⟨1,0,id⟩] 25 0 (by decide) id).mpr
    (by decide)

/-- The last block cannot be read, and a block that is not on the disc can. -/
theorem last_block_unread : readDVDptr ⟨30,id⟩ 1 29 = some [29] ∧
    (readBlockFromCache ⟨30,id⟩ id 1 29 (some ⟨cacheFree,id⟩)).1 = none ∧
    readDVDptr ⟨30,id⟩ 1 cacheFree = none ∧
    (readBlockFromCache ⟨30,id⟩ id 1 cacheFree (some ⟨cacheFree,id⟩)).1 ≠ none := by decide +kernel

end Libogc.DriveCache
