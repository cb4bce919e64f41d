import Libogc.Card.Tables
import Libogc.Card.Status

/-!
# Bytes of the directory entries

What the functions that write an entry, and the stamping of the tables, change
of the fields by which files are found.
-/

set_option autoImplicit false

namespace Libogc.CardEntries
open ByteStore CardLayout CardCallbacks CardCalls CardFatLoops CardTables List

variable {d d' f : Bytes}

def SameEntry (d d' : Bytes) (i : ℕ) : Prop :=
  used d' i = used d i ∧ entryBlock d' i = entryBlock d i ∧ entryLength d' i = entryLength d i

variable {i j o : ℕ} (name : CStr) (n : ℕ)

theorem sameEntry_of_bytes (h : ∀ o, entry i ≤ o → o < entry i+64 → d' o = d o) :
    SameEntry d d' i := by
  refine ⟨?_,half_congr (h _ (by omega) (by omega)) (h _ (by omega) (by omega)),
    half_congr (h _ (by omega) (by omega)) (h _ (by omega) (by omega))⟩
  rw [used, used, h _ (by omega) (by omega)]

theorem sameEntry_outside (h : ∀ o, o < entry i ∨ entry i+64 ≤ o → d' o = d o) (hj : j ≠ i) :
    SameEntry d d' j := by
  apply sameEntry_of_bytes
  intro o h0 h1
  unfold entry at *
  exact h o (by omega)

theorem newDir_below (d : Bytes) (h : o < 8186) : newDir d o = d o := by
  rw [newDir, signDir_below (by omega), setHalf_ne _ (by omega)]

theorem newDir_sameEntry (d : Bytes) {i : ℕ} (h : i < maxFiles) : SameEntry d (newDir d) i := by
  have hm : maxFiles = 127 := rfl
  apply sameEntry_of_bytes
  intro o _ h1
  exact newDir_below d (by unfold entry at h1; omega)

theorem newFat_above (f : Bytes) (h : 6 ≤ o) : newFat f o = f o := by
  rw [newFat, signFat_above (by omega), setHalf_ne _ (by omega)]

theorem newFat_word (f : Bytes) {k : ℕ} (h : sysArea ≤ k) : fatWord (newFat f) k = fatWord f k := by
  have h5 : sysArea = 5 := rfl
  exact half_congr (newFat_above f (by omega)) (newFat_above f (by omega))

theorem newFat_free (f : Bytes) : freeBlocks (newFat f) = freeBlocks f :=
  half_congr (newFat_above f (by decide)) (newFat_above f (by decide))

theorem zeroWords_congr {blocks : ℕ} {f f' : Bytes}
    (h : ∀ k, inArea blocks k → fatWord f' k = fatWord f k) :
    zeroWords blocks f' = zeroWords blocks f := by
  apply countP_congr
  intro k hk
  rw [isFree, isFree, h k (mem_area.mp hk)]

/-! The entry of a new file. -/

theorem namedEntry_out (i : ℕ) (d : Bytes) (hn : name.len ≤ fileNameLen)
    (h : o < entry i+8 ∨ entry i+41 ≤ o) (h' : o < entry i+56 ∨ entry i+58 ≤ o) :
    namedEntry name n i d o = d o := by
  have h32 : fileNameLen = 32 := rfl
  rw [namedEntry, blit_out (by omega), fill_out (by omega), setHalf_ne _ (by omega)]

theorem namedEntry_length {n : ℕ} (i : ℕ) (d : Bytes) (hn : name.len ≤ fileNameLen)
    (h : n < 65536) : entryLength (namedEntry name n i d) i = n := by
  have h32 : fileNameLen = 32 := rfl
  rw [entryLength, namedEntry, half_blit_out (by omega), half_fill_out (by omega),
    half_setHalf_same _ h]

theorem namedEntry_other (d : Bytes) (hn : name.len ≤ fileNameLen) (hj : j ≠ i) :
    SameEntry d (namedEntry name n i d) j :=
  sameEntry_outside (fun _ ho => namedEntry_out name n i d hn (by omega) (by omega)) hj

theorem namedEntry_used (i : ℕ) (d : Bytes) (hn : name.len ≤ fileNameLen) :
    used (namedEntry name n i d) i = used d i := by
  rw [used, used, namedEntry_out name n i d hn (by omega) (by omega)]

variable (gamecode company : Bytes) (block now : ℕ)

theorem createdEntry_out {e : ℕ} (h : o < e ∨ e+8 ≤ o ∧ o < e+40 ∨ e+64 ≤ o) :
    createdEntry gamecode company block now e d o = d o := by
  unfold createdEntry
  split <;>
  simp (disch := omega) only [setWord_ne, setHalf_ne, setByte_ne, blit_out, fill_out]

theorem createdEntry_used (i : ℕ) :
    used (createdEntry gamecode company block now (entry i) d) i = true := by
  unfold used createdEntry
  split
  · rename_i hg
    simp (disch := omega) only [setWord_ne, setHalf_ne, setByte_ne, blit_out, blit_in]
    simpa using hg
  · simp (disch := omega) only [setWord_ne, setHalf_ne, setByte_ne, fill_out, fill_in]
    decide

theorem createdEntry_block (i : ℕ) (h : block < 65536) :
    entryBlock (createdEntry gamecode company block now (entry i) d) i = block := by
  unfold entryBlock createdEntry
  dsimp only
  generalize entry i = e
  simp (disch := omega) only [half_setWord_ne, half_setHalf_ne, half_setByte_ne]
  exact half_setHalf_same _ h

theorem createdEntry_length (i : ℕ) :
    entryLength (createdEntry gamecode company block now (entry i) d) i = entryLength d i := by
  unfold entryLength createdEntry
  split <;>
  simp (disch := omega) only [half_setWord_ne, half_setHalf_ne, half_setByte_ne, half_blit_out,
    half_fill_out]

theorem createdEntry_other (hj : j ≠ i) :
    SameEntry d (createdEntry gamecode company block now (entry i) d) j :=
  sameEntry_outside (fun _ ho => createdEntry_out gamecode company block now (by omega)) hj

theorem deletedEntry_used (i : ℕ) : used (fill (entry i) 64 255 d) i = false := by
  rw [used, fill_in (by omega)]
  rfl

theorem deletedEntry_other (hj : j ≠ i) : SameEntry d (fill (entry i) 64 255 d) j :=
  sameEntry_outside (fun _ ho => fill_out (by omega)) hj

theorem blankDir_used (h : i < maxFiles) : used blankDir i = false := by
  have hm : maxFiles = 127 := rfl
  rw [used, blankDir, signDir_below (by unfold entry; omega)]
  rfl

theorem blankFat_word (g : Geometry) (n : ℕ) {k : ℕ} (h : sysArea ≤ k) :
    fatWord (blankFat g n) k = 0 := by
  have h5 : sysArea = 5 := rfl
  rw [blankFat, fatWord_signFat (by omega), fatWord_setHalf _ _ h (by decide),
    fatWord_setHalf _ _ h (by decide), fatWord_setHalf _ _ h (by decide)]
  simp [fatWord, half]

theorem blankFat_free (g : Geometry) (n : ℕ) : freeBlocks (blankFat g n) = g.blocks-sysArea := by
  have hb := g.blocks_le
  rw [freeBlocks, blankFat, half_signFat (by decide), half_setHalf_ne _ (by decide),
    half_setHalf_same _ (by omega)]

theorem blank_consistent (g : Geometry) (n : ℕ) : Consistent g blankDir (blankFat g n) := by
  have hno : ∀ i, ¬isFile blankDir i :=
    fun i hi => Bool.false_ne_true ((blankDir_used hi.1).symm.trans hi.2)
  refine ⟨⟨fun _ => [],?_⟩,?_⟩
  · refine ⟨fun i hi => absurd hi (hno i),fun i hi => absurd hi (hno i),
      fun i hi => absurd hi (hno i),fun i hi => absurd hi (hno i),
      fun i _ hi => absurd hi (hno i),fun k hk hw => absurd (blankFat_word g n hk.1) hw⟩
  · rw [blankFat_free, zeroWords, countP_eq_length.mpr, length_range']
    intro k hk
    simp [isFree, blankFat_word g n (mem_area.mp hk).1]

end Libogc.CardEntries
