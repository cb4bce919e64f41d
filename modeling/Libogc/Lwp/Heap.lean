import Libogc.Library.GuardedReach
import Mathlib.Data.Nat.Notation

/-!
# The heap

`lwp_heap.c` keeps its blocks and its free list in memory, so the model is one
of memory: words at their addresses, the control block at `theheap` and the
blocks between `start` and `final`. The head and the tail of the free list are
blocks laid over the control block. `live` records the allocations that are
not yet freed; no function reads it.
-/

set_option autoImplicit false

namespace Libogc.Heap
open GuardedReach

def u32 (n : ℕ) : ℕ := n % 4294967296

def store (a v : ℕ) (mem : ℕ → ℕ) : ℕ → ℕ := Function.update mem a v

/-! The fields of `heap_block`. -/

def backFlag (block : ℕ) : ℕ := block

def frontFlag (block : ℕ) : ℕ := block+4

def nextOf (block : ℕ) : ℕ := block+8

def prevOf (block : ℕ) : ℕ := block+12

/-! The fields of `heap_cntrl`. -/

def startOf (theheap : ℕ) : ℕ := theheap

def finalOf (theheap : ℕ) : ℕ := theheap+4

def firstOf (theheap : ℕ) : ℕ := theheap+8

def permNullOf (theheap : ℕ) : ℕ := theheap+12

def lastOf (theheap : ℕ) : ℕ := theheap+16

def pgSizeOf (theheap : ℕ) : ℕ := theheap+20

def heapBlockUsed : ℕ := 1

def heapDummyFlag : ℕ := heapBlockUsed

def heapOverhead : ℕ := 8

def heapBlockUsedOverhead : ℕ := 8

def sizeofHeapBlock : ℕ := 16

def heapMinSize : ℕ := heapOverhead+sizeofHeapBlock

/-! The helpers of `lwp_heap.inl`. -/

def lwpHeapHead (theheap : ℕ) : ℕ := startOf theheap

def lwpHeapTail (theheap : ℕ) : ℕ := finalOf theheap

def withoutUsed (flag : ℕ) : ℕ := flag/2*2

def lwpHeapPrevblock (mem : ℕ → ℕ) (block : ℕ) : ℕ :=
  u32 (block+4294967296-withoutUsed (mem (backFlag block)))

def lwpHeapNextblock (mem : ℕ → ℕ) (block : ℕ) : ℕ :=
  u32 (block+withoutUsed (mem (frontFlag block)))

def lwpHeapBlockat (block offset : ℕ) : ℕ := u32 (block+offset)

def lwpHeapUsrblockat (mem : ℕ → ℕ) (ptr : ℕ) : ℕ :=
  lwpHeapBlockat ptr (u32 (8589934592-mem (u32 (ptr+4294967292))-heapBlockUsedOverhead))

def lwpHeapPrevBlockfree (mem : ℕ → ℕ) (block : ℕ) : Bool :=
  decide (mem (backFlag block) % 2 = 0)

def lwpHeapBlockfree (mem : ℕ → ℕ) (block : ℕ) : Bool := decide (mem (frontFlag block) % 2 = 0)

def lwpHeapBlocksize (mem : ℕ → ℕ) (block : ℕ) : ℕ := withoutUsed (mem (frontFlag block))

def lwpHeapStartuser (block : ℕ) : ℕ := nextOf block

def lwpHeapBlockin (mem : ℕ → ℕ) (theheap block : ℕ) : Bool :=
  decide (mem (startOf theheap) ≤ block) && decide (block ≤ mem (finalOf theheap))

def lwpHeapPgsizeValid (pgSize : ℕ) : Bool := decide (pgSize ≠ 0) && decide (pgSize % 8 = 0)

def lwpHeapBuildflag (size flag : ℕ) : ℕ := size ||| flag

def lwpHeapInit (theheap startAddr size pgSize : ℕ) (mem : ℕ → ℕ) : ℕ × (ℕ → ℕ) :=
  if !lwpHeapPgsizeValid pgSize || decide (size < heapMinSize) then (0,mem)
  else
    let mem := store (pgSizeOf theheap) pgSize mem
    let dsize := size-heapOverhead
    let block := startAddr
    let mem := store (backFlag block) heapDummyFlag mem
    let mem := store (frontFlag block) dsize mem
    let mem := store (nextOf block) (lwpHeapTail theheap) mem
    let mem := store (prevOf block) (lwpHeapHead theheap) mem
    let mem := store (startOf theheap) block mem
    let mem := store (firstOf theheap) block mem
    let mem := store (permNullOf theheap) 0 mem
    let mem := store (lastOf theheap) block mem
    let block := lwpHeapNextblock mem block
    let mem := store (backFlag block) dsize mem
    let mem := store (frontFlag block) heapDummyFlag mem
    let mem := store (finalOf theheap) block mem
    (dsize-heapBlockUsedOverhead,mem)

def lwpHeapDsize (size pgSize : ℕ) : ℕ :=
  let excess := size % pgSize
  let dsize := u32 (size+pgSize+heapBlockUsedOverhead)
  let dsize := if excess ≠ 0 then u32 (dsize+(pgSize-excess)) else dsize
  if dsize < sizeofHeapBlock then sizeofHeapBlock else dsize

/-- The loop over the free list: `none` if it does not end in `fuel` rounds,
`some none` at the tail. -/
def lwpHeapSearch (mem : ℕ → ℕ) (tail dsize : ℕ) : ℕ → ℕ → Option (Option ℕ)
  | 0, _ => none
  | fuel+1, block =>
    if block = tail then some none
    else if dsize ≤ mem (frontFlag block) then some (some block)
    else lwpHeapSearch mem tail dsize fuel (mem (nextOf block))

def lwpHeapTake (theheap dsize block : ℕ) (mem : ℕ → ℕ) : ℕ × (ℕ → ℕ) :=
  if u32 (mem (pgSizeOf theheap)+heapBlockUsedOverhead) < mem (frontFlag block)-dsize then
    let mem := store (frontFlag block) (mem (frontFlag block)-dsize) mem
    let nextBlock := lwpHeapNextblock mem block
    let mem := store (backFlag nextBlock) (mem (frontFlag block)) mem
    let tmpBlock := lwpHeapBlockat nextBlock dsize
    let mem := store (frontFlag nextBlock) (lwpHeapBuildflag dsize heapBlockUsed) mem
    let mem := store (backFlag tmpBlock) (mem (frontFlag nextBlock)) mem
    (lwpHeapStartuser nextBlock,mem)
  else
    let nextBlock := lwpHeapNextblock mem block
    let mem := store (backFlag nextBlock)
      (lwpHeapBuildflag (mem (frontFlag block)) heapBlockUsed) mem
    let mem := store (frontFlag block) (mem (backFlag nextBlock)) mem
    let mem := store (prevOf (mem (nextOf block))) (mem (prevOf block)) mem
    let mem := store (nextOf (mem (prevOf block))) (mem (nextOf block)) mem
    (lwpHeapStartuser block,mem)

def lwpHeapAlign (theheap ptr : ℕ) (mem : ℕ → ℕ) : ℕ × (ℕ → ℕ) :=
  let pgSize := mem (pgSizeOf theheap)
  let offset := pgSize-(ptr &&& (pgSize-1))
  let ptr := u32 (ptr+offset)
  (ptr,store (u32 (ptr+4294967292)) offset mem)

/-- `none` if the search does not end in `fuel` rounds; the pointer is 0 for
NULL. -/
def lwpHeapAllocate (fuel theheap size : ℕ) (mem : ℕ → ℕ) : Option (ℕ × (ℕ → ℕ)) :=
  if 4294967287 ≤ size then some (0,mem)
  else
    let dsize := lwpHeapDsize size (mem (pgSizeOf theheap))
    (lwpHeapSearch mem (lwpHeapTail theheap) dsize fuel (mem (firstOf theheap))).map
      (fun found => found.elim (0,mem) (fun block =>
        lwpHeapAlign theheap (lwpHeapTake theheap dsize block mem).1
          (lwpHeapTake theheap dsize block mem).2))

def lwpHeapRelease (theheap block dsize nextBlock : ℕ) (mem : ℕ → ℕ) : Bool × (ℕ → ℕ) :=
  if lwpHeapPrevBlockfree mem block then
    let prevBlock := lwpHeapPrevblock mem block
    if !lwpHeapBlockin mem theheap prevBlock then (false,mem)
    else if lwpHeapBlockfree mem nextBlock then
      let mem := store (frontFlag prevBlock)
        (u32 (mem (frontFlag prevBlock)+(mem (frontFlag nextBlock)+dsize))) mem
      let tmpBlock := lwpHeapNextblock mem prevBlock
      let mem := store (backFlag tmpBlock) (mem (frontFlag prevBlock)) mem
      let mem := store (prevOf (mem (nextOf nextBlock))) (mem (prevOf nextBlock)) mem
      let mem := store (nextOf (mem (prevOf nextBlock))) (mem (nextOf nextBlock)) mem
      (true,mem)
    else
      let mem := store (backFlag nextBlock) (u32 (mem (frontFlag prevBlock)+dsize)) mem
      let mem := store (frontFlag prevBlock) (mem (backFlag nextBlock)) mem
      (true,mem)
  else if lwpHeapBlockfree mem nextBlock then
    let mem := store (frontFlag block) (u32 (dsize+mem (frontFlag nextBlock))) mem
    let newNext := lwpHeapNextblock mem block
    let mem := store (backFlag newNext) (mem (frontFlag block)) mem
    let mem := store (nextOf block) (mem (nextOf nextBlock)) mem
    let mem := store (prevOf block) (mem (prevOf nextBlock)) mem
    let mem := store (nextOf (mem (prevOf nextBlock))) block mem
    let mem := store (prevOf (mem (nextOf nextBlock))) block mem
    let mem := if mem (firstOf theheap) = nextBlock then store (firstOf theheap) block mem else mem
    (true,mem)
  else
    let mem := store (frontFlag block) dsize mem
    let mem := store (backFlag nextBlock) (mem (frontFlag block)) mem
    let mem := store (prevOf block) (lwpHeapHead theheap) mem
    let mem := store (nextOf block) (mem (firstOf theheap)) mem
    let mem := store (firstOf theheap) block mem
    let mem := store (prevOf (mem (nextOf block))) block mem
    (true,mem)

def lwpHeapFree (theheap ptr : ℕ) (mem : ℕ → ℕ) : Bool × (ℕ → ℕ) :=
  let block := lwpHeapUsrblockat mem ptr
  if !lwpHeapBlockin mem theheap block || lwpHeapBlockfree mem block then (false,mem)
  else
    let dsize := lwpHeapBlocksize mem block
    let nextBlock := lwpHeapBlockat block dsize
    if !lwpHeapBlockin mem theheap nextBlock ||
        decide (mem (frontFlag block) ≠ mem (backFlag nextBlock)) then (false,mem)
    else lwpHeapRelease theheap block dsize nextBlock mem

/-! The heap and its users. -/

structure HeapState where
  mem : ℕ → ℕ
  live : List (ℕ × ℕ)

inductive HeapAction where
  | allocate (size : ℕ)
  | free (ptr : ℕ)
  | write (addr value : ℕ)
  deriving DecidableEq, Repr

def addLive (ptr size : ℕ) (live : List (ℕ × ℕ)) : List (ℕ × ℕ) :=
  if ptr = 0 then live else (ptr,size)::live

def heapStep (fuel theheap : ℕ) : HeapAction → HeapState → Option HeapState
  | .allocate size, s =>
    (lwpHeapAllocate fuel theheap size s.mem).map (fun r => ⟨r.2,addLive r.1 size s.live⟩)
  | .free ptr, s =>
    some ⟨(lwpHeapFree theheap ptr s.mem).2,s.live.eraseP (fun p => decide (p.1 = ptr))⟩
  | .write addr value, s => some { s with mem := store addr value s.mem }

/-- What a request takes of the heap, not reduced to 32 bits. -/
def roundedSize (size pgSize : ℕ) : ℕ :=
  size+pgSize+heapBlockUsedOverhead+if size % pgSize = 0 then 0 else pgSize-size % pgSize

def HeapOk (pgSize : ℕ) : HeapAction → HeapState → Prop
  | .allocate size, _ => roundedSize size pgSize ≤ 4294967295
  | .free ptr, s => ptr ∈ s.live.map Prod.fst
  | .write addr value, s => ∃ p ∈ s.live, p.1 ≤ addr ∧ addr < p.1+p.2 ∧ addr % 4 = 0 ∧
    value < 4294967296

instance (pgSize : ℕ) (a : HeapAction) (s : HeapState) : Decidable (HeapOk pgSize a s) :=
  match a with
  | .allocate _ => inferInstanceAs (Decidable (_ ≤ _))
  | .free ptr => inferInstanceAs (Decidable (ptr ∈ s.live.map Prod.fst))
  | .write addr value => inferInstanceAs (Decidable (∃ p ∈ s.live, p.1 ≤ addr ∧
    addr < p.1+p.2 ∧ addr % 4 = 0 ∧ value < 4294967296))

end Libogc.Heap
