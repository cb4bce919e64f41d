import Libogc.Ipc.IoctlvFormat
import Mathlib.Data.List.Perm.Basic

/-!
# What a formatted request releases

Up to its end the log of a call has the allocations only: the callback data,
the table, and the buffers of the table. So each way out is a list of frees
that has to be compared with these. `IOS_IoctlvFormatAsync` does not free
anything but the request itself when the request is refused, and
`IOS_IoctlvFormat` without a queue to sleep in frees everything before the
reply.
-/

set_option autoImplicit false

namespace Libogc.IoctlvRelease
open List IpcRequest ReleaseLog IoctlvFormat Nat Option

def ValidHeap (hid : ℤ) : Prop := 0 ≤ hid ∧ hid < ipcNumheaps

instance (hid : ℤ) : Decidable (ValidHeap hid) := inferInstanceAs (Decidable (_ ∧ _))

/-! The number of buffers that a format asks for, if it is well formed. -/

def demandIo : List Char → Option ℕ
  | [] => some 0
  | c::cs =>
    match numberParam c.toLower with
    | some (.number _) => (demandIo cs).map (·+1)
    | some .data => demandIo cs
    | _ => none

def demand (user : ℕ → ℕ) : List Char → List ℕ → Option ℕ
  | [], _ => some 0
  | c::cs, args =>
    if c.toLower = ':' then demandIo cs
    else
      match inParam c.toLower with
      | some (.number _) => (demand user cs args.tail).map (·+1)
      | some .data => demand user cs args.tail.tail
      | some .string =>
        if 256 ≤ strnlen user (args.headD 0) 256 then none
        else (demand user cs args.tail).map (·+1)
      | none => none

section Alloc

variable {grant : ℕ → ℕ} {s : World} {hid : ℤ}

theorem heapAllocate_none (pool : Pool) (h : grant s.tried = 0) :
    heapAllocate grant pool s = (0, { s with tried := s.tried+1 }) := if_pos h

theorem heapAllocate_some (pool : Pool) (h : grant s.tried ≠ 0) :
    heapAllocate grant pool s = (grant s.tried,
      note (.alloc ⟨pool,grant s.tried⟩) { s with tried := s.tried+1 }) := if_neg h

theorem iosAlloc_valid (h : ValidHeap hid) {size : ℤ} (hs : 0 < size) :
    iosAlloc grant hid size s = heapAllocate grant (.heap hid) s :=
  if_neg (by unfold ValidHeap at h; omega)

theorem iosAlloc_invalid (h : ¬ValidHeap hid) (size : ℤ) : iosAlloc grant hid size s = (0,s) :=
  if_pos (by unfold ValidHeap at h; omega)

theorem iosFree_log (h : ValidHeap hid) {p : ℕ} (hp : p ≠ 0) :
    (iosFree hid p s).log = s.log ++ [.free ⟨.heap hid,p⟩] := by
  rw [iosFree, if_neg (by unfold ValidHeap at h; omega)]
  rfl

end Alloc

/-! The tables. -/

def tableBlocks (hid : ℤ) (t : List Bufent) : List Block := t.map (fun e => ⟨.heap hid,e.ipcBuf⟩)

variable {t : List Bufent} {d : Parsed}

theorem freeTable_log {hid : ℤ} (h : ValidHeap hid) (ht : ∀ e ∈ t, e.ipcBuf ≠ 0) (s : World) :
    (freeTable hid t s).log = s.log ++ (tableBlocks hid t).map .free := by
  induction t generalizing s with
  | nil => exact (append_nil _).symm
  | cons e t ih =>
    rw [freeTable, if_pos (ht e mem_cons_self),
      ih (fun e' he => ht e' (mem_cons_of_mem _ he)),
      iosFree_log h (ht e mem_cons_self), append_assoc]
    rfl

theorem copyBack_log (e : Bufent) (s : World) : (copyBack e s).log = s.log := by
  unfold copyBack
  split <;> rfl

theorem returnTable_log {hid : ℤ} (h : ValidHeap hid) (ht : ∀ e ∈ t, e.ipcBuf ≠ 0) (s : World) :
    (returnTable hid t s).log = s.log ++ (tableBlocks hid t).map .free := by
  induction t generalizing s with
  | nil => exact (append_nil _).symm
  | cons e t ih =>
    rw [returnTable, if_pos (ht e mem_cons_self),
      ih (fun e' he => ht e' (mem_cons_of_mem _ he)),
      iosFree_log h (ht e mem_cons_self), copyBack_log, append_assoc]
    rfl

/-! The parser. -/

/-- The blocks of the table have been allocated after the blocks `base`, and
nothing else has happened. -/
structure Holding (hid : ℤ) (base : List Block) (p : Parse) : Prop where
  log : p.world.log = (base ++ tableBlocks hid p.table).map .alloc
  nonnull : ∀ e ∈ p.table, e.ipcBuf ≠ 0

structure Untouched (s t : World) : Prop where
  user : t.user = s.user
  ipc : t.ipc = s.ipc
  queueUsed : t.queueUsed = s.queueUsed

def parseOf : Except (IpcError × Parse) Parse → Parse
  | .ok p => p
  | .error e => e.2

section Parser

variable {grant : ℕ → ℕ} {hid : ℤ} {base : List Block} {p : Parse}

structure Puts (f : ℕ → Parse → Parse) : Prop where
  log : ∀ q p, (f q p).world.log = p.world.log
  table : ∀ q p, ∃ io n, (f q p).table = p.table ++ [⟨q,io,n⟩]
  tried : ∀ q p, (f q p).world.tried = p.world.tried
  untouched : ∀ q p, Untouched p.world (f q p).world

theorem putNumber_puts (size : ℕ) : Puts (putNumber size) :=
  ⟨fun _ _ => rfl,fun _ _ => ⟨_,_,rfl⟩,fun _ _ => rfl,fun _ _ => ⟨rfl,rfl,rfl⟩⟩

theorem putString_puts (ps len : ℕ) : Puts (putString ps len) :=
  ⟨fun _ _ => rfl,fun _ _ => ⟨_,_,rfl⟩,fun _ _ => rfl,fun _ _ => ⟨rfl,rfl,rfl⟩⟩

theorem putIo_puts (size : ℕ) : Puts (putIo size) :=
  ⟨fun _ _ => rfl,fun _ _ => ⟨_,_,rfl⟩,fun _ _ => rfl,fun _ _ => ⟨rfl,rfl,rfl⟩⟩

def filled (grant : ℕ → ℕ) (hid : ℤ) (f : ℕ → Parse → Parse) (p : Parse) : Parse :=
  f (grant p.world.tried) { p with
    world := note (.alloc ⟨.heap hid,grant p.world.tried⟩)
      { p.world with tried := p.world.tried+1 } }

variable {size : ℤ} {f : ℕ → Parse → Parse} {q : Parse} {need : Option ℕ}

theorem allocParam_none (h : ValidHeap hid) (hs : 0 < size)
    (hg : grant p.world.tried = 0) (f : ℕ → Parse → Parse) : allocParam grant hid size p f =
      .error (.enomem,{ p with world := { p.world with tried := p.world.tried+1 } }) := by
  rw [allocParam, iosAlloc_valid h hs, heapAllocate_none _ hg]
  exact if_pos rfl

theorem allocParam_some (h : ValidHeap hid) (hs : 0 < size)
    (hg : grant p.world.tried ≠ 0) (f : ℕ → Parse → Parse) :
    allocParam grant hid size p f = .ok (filled grant hid f p) := by
  rw [allocParam, iosAlloc_valid h hs, heapAllocate_some _ hg]
  exact if_neg hg

theorem filled_holding (hf : Puts f) (hp : Holding hid base p)
    (hg : grant p.world.tried ≠ 0) : Holding hid base (filled grant hid f p) := by
  obtain ⟨io,n,ht⟩ : ∃ io n, (filled grant hid f p).table = p.table ++
    [⟨grant p.world.tried,io,n⟩] :=
    hf.table _ _
  refine ⟨?_,?_⟩
  · rw [ht, filled, hf.log]
    change p.world.log ++ _ = _
    rw [hp.log]
    simp [tableBlocks]
  · rw [ht]
    intro e he
    rcases mem_append.mp he with he | he
    · exact hp.nonnull e he
    · rw [mem_singleton.mp he]
      exact hg

def Granted (grant : ℕ → ℕ) (k n : ℕ) : Prop := ∀ j < n, grant (k+j) ≠ 0

theorem granted_succ {k n : ℕ} : Granted grant k (n+1) ↔ grant k ≠ 0 ∧ Granted grant (k+1) n := by
  constructor
  · intro h
    refine ⟨h 0 (succ_pos n),?_⟩
    intro j hj
    rw [Nat.add_assoc, Nat.add_comm 1]
    exact h (j+1) (succ_lt_succ hj)
  · rintro ⟨h0,h⟩ j hj
    cases j with
    | zero => exact h0
    | succ j =>
      have hg := h j (lt_of_succ_lt_succ hj)
      rw [Nat.add_assoc, Nat.add_comm 1] at hg
      exact hg

/-- What the parser makes of the rest of a format that needs this many
buffers: it succeeds exactly if the heap grants them. -/
structure Result (grant : ℕ → ℕ) (hid : ℤ) (base : List Block) (p : Parse) (need : Option ℕ)
    (x : Except (IpcError × Parse) Parse) : Prop where
  holding : Holding hid base (parseOf x)
  ok : ∀ n, need = some n → Granted grant p.world.tried n →
    ∃ q, x = .ok q ∧ q.world.tried = p.world.tried+n ∧ Untouched p.world q.world
  error : (∀ n, need = some n → ¬Granted grant p.world.tried n) → ∃ e, x = .error e

theorem result_ok (hp : Holding hid base p) : Result grant hid base p (some 0) (.ok p) := by
  refine ⟨hp,?_,?_⟩
  · intro n hn _
    cases hn
    exact ⟨p,rfl,rfl,⟨rfl,rfl,rfl⟩⟩
  · intro h
    exact absurd (fun j hj => absurd hj (not_lt_zero j)) (h 0 rfl)

theorem result_error (hp : Holding hid base p) (e : IpcError) :
    Result grant hid base q none (.error (e,p)) :=
  ⟨hp,nofun,fun _ => ⟨_,rfl⟩⟩

theorem Result.of_world {x : Except (IpcError × Parse) Parse}
    (h : Result grant hid base q need x) (hw : q.world = p.world) :
    Result grant hid base p need x := by
  refine ⟨h.holding,?_,?_⟩
  · rw [← hw]
    exact h.ok
  · rw [← hw]
    exact h.error

theorem alloc_result (h : ValidHeap hid) (hs : 0 < size) (hf : Puts f) (hp : Holding hid base p)
    {g : Parse → Except (IpcError × Parse) Parse} (hrest : Holding hid base (filled grant hid f p) →
      Result grant hid base (filled grant hid f p) need (g (filled grant hid f p))) :
    Result grant hid base p (need.map (·+1)) ((allocParam grant hid size p f).bind g) := by
  by_cases hg : grant p.world.tried = 0
  · rw [allocParam_none h hs hg]
    refine ⟨⟨hp.log,hp.nonnull⟩,?_,fun _ => ⟨_,rfl⟩⟩
    intro n hn hgr
    obtain ⟨m,-,rfl⟩ := map_eq_some_iff.mp hn
    exact absurd hg (granted_succ.mp hgr).1
  · rw [allocParam_some h hs hg]
    have hr := hrest (filled_holding hf hp hg)
    have htried : (filled grant hid f p).world.tried = p.world.tried+1 := hf.tried _ _
    refine ⟨hr.holding,?_,?_⟩
    · intro n hn hgr
      obtain ⟨m,hm,rfl⟩ := map_eq_some_iff.mp hn
      obtain ⟨q,hq,ht,hu⟩ := hr.ok m hm (by rw [htried]; exact (granted_succ.mp hgr).2)
      have hfill : Untouched p.world (filled grant hid f p).world :=
        ⟨(hf.untouched _ _).user,(hf.untouched _ _).ipc,(hf.untouched _ _).queueUsed⟩
      refine ⟨q,hq,?_,?_⟩
      · rw [ht]
        omega
      · exact ⟨hu.user.trans hfill.user,hu.ipc.trans hfill.ipc,hu.queueUsed.trans hfill.queueUsed⟩
    · intro hno
      refine hr.error (fun m hm hgr => hno (m+1) (by rw [hm]; rfl) ?_)
      rw [htried] at hgr
      exact granted_succ.mpr ⟨hg,hgr⟩

theorem number_pos {c : Char} {size : ℕ} (h : numberParam c = some (.number size)) : 0 < size := by
  unfold numberParam at h
  split at h <;> simp at h <;> omega

theorem parseIoParams_result (h : ValidHeap hid) (cs : List Char) (hp : Holding hid base p) :
    Result grant hid base p (demandIo cs) (parseIoParams grant hid cs p) := by
  induction cs generalizing p with
  | nil => exact result_ok hp
  | cons c cs ih =>
    rw [demandIo, parseIoParams, parseIo]
    cases hc : numberParam c.toLower with
    | none => exact result_error hp _
    | some k =>
      cases k with
      | number size =>
        exact alloc_result h (Int.natCast_pos.mpr (number_pos hc)) (putIo_puts size) hp ih
      | data => exact (ih (p := { putPointer p with cntIo := p.cntIo+1 })
        ⟨hp.log,hp.nonnull⟩).of_world rfl
      | string => exact result_error hp _

theorem inParam_pos {c : Char} {size : ℕ} (h : inParam c = some (.number size)) : 0 < size := by
  unfold inParam at h
  split at h
  · cases h
  · exact number_pos h

theorem parseParams_result (h : ValidHeap hid) (cs : List Char) (hp : Holding hid base p) :
    Result grant hid base p (demand p.world.user cs p.args) (parseParams grant hid cs p) := by
  induction cs generalizing p with
  | nil => exact result_ok hp
  | cons c cs ih =>
    rw [demand, parseParams, parseIn]
    by_cases hcolon : c.toLower = ':'
    · rw [if_pos hcolon, if_pos hcolon]
      exact parseIoParams_result h cs hp
    · rw [if_neg hcolon, if_neg hcolon]
      cases hc : inParam c.toLower with
      | none => exact result_error hp _
      | some k =>
        cases k with
        | number size =>
          exact alloc_result h (Int.natCast_pos.mpr (inParam_pos hc)) (putNumber_puts size) hp ih
        | data => exact (ih (p := { putPointer p with cntIn := p.cntIn+1 })
          ⟨hp.log,hp.nonnull⟩).of_world rfl
        | string =>
          dsimp only
          split
          · exact result_error (p := { p with args := p.args.tail }) ⟨hp.log,hp.nonnull⟩ _
          · exact (alloc_result (p := { p with args := p.args.tail }) h (by omega)
              (putString_puts _ _) ⟨hp.log,hp.nonnull⟩ ih).of_world rfl

end Parser

/-! The calls. -/

/-- The heap, the length and the characters of the format are in order, and
the heaps grant the callback data, the table, the vector and `n` buffers. -/
structure Parsable (grant : ℕ → ℕ) (ipcHid hid : ℤ) (format : List Char) (args : List ℕ)
    (user : ℕ → ℕ) (n : ℕ) : Prop where
  heap : ValidHeap (effectiveHeap ipcHid hid)
  short : format.length < iosMaxfmtParams
  demand : demand user format args = some n
  granted : Granted grant 0 (n+3)

/-- IOS cannot be asked: there is no room for the request on the ipc heap or in
the ring. -/
def Refused (grant : ℕ → ℕ) (ipcHid : ℤ) (ipc : Ipc) (n : ℕ) : Prop :=
  ¬ValidHeap ipcHid ∨ grant (n+3) = 0 ∨ 16 ≤ outstanding ipc

def owned (cbdata : ℕ) (d : Parsed) : List Block :=
  ⟨.wkspace,cbdata⟩::⟨.wkspace,d.bufs⟩::tableBlocks d.hId d.table

def returned (cbdata : ℕ) (d : Parsed) : List Block :=
  tableBlocks d.hId d.table ++ [⟨.wkspace,d.bufs⟩, ⟨.wkspace,cbdata⟩]

theorem returned_perm (cbdata : ℕ) (d : Parsed) : (returned cbdata d).Perm (owned cbdata d) :=
  perm_append_comm.trans (.swap _ _ _)

structure ParsedWell (cbdata : ℕ) (s t : World) (d : Parsed) (n : ℕ) : Prop where
  log : t.log = (owned cbdata d).map .alloc
  nonnull : ∀ e ∈ d.table, e.ipcBuf ≠ 0
  heap : ValidHeap d.hId
  tried : t.tried = n+3
  untouched : Untouched s t

section Calls

variable {grant : ℕ → ℕ} {ipcHid hid : ℤ} {format : List Char} {args : List ℕ} {c n : ℕ}
  {s w : World}

theorem released_short (p : ℕ) (hlog : s.log = [.alloc ⟨.wkspace,p⟩]) :
    Released (wkspaceFree p s).log := by
  change Released (s.log ++ _)
  rw [hlog]
  exact .refl _

theorem released_table (p q : ℕ) (hlog : s.log = [.alloc ⟨.wkspace,p⟩, .alloc ⟨.wkspace,q⟩]) :
    Released (wkspaceFree p (wkspaceFree q s)).log := by
  change Released (s.log ++ _ ++ _)
  rw [hlog]
  exact .swap _ _ _

theorem parseWith_spec {h : ℤ} {b a : ℕ} {t : World} (hh : ValidHeap h) (hb : a ≠ 0)
    (hlog : t.log = [.alloc ⟨.wkspace,c⟩, .alloc ⟨.wkspace,b⟩, .alloc ⟨.heap h,a⟩])
    (ht : t.tried = 3) (hu : Untouched s t) :
    (∃ n d w, demand s.user format args = some n ∧ Granted grant 3 n ∧
      parseWith grant h b a format args t = (.ok d,w) ∧ ParsedWell c s w d n) ∨
    (∀ n, demand s.user format args = some n → ¬Granted grant 3 n) ∧
      ∃ e w, parseWith grant h b a format args t = (.error e,w) ∧
        Released (wkspaceFree c w).log := by
  have hres := @parseParams_result grant h [⟨.wkspace,c⟩, ⟨.wkspace,b⟩]
    ⟨t,args,[⟨a,0,0⟩],[],0,0⟩ hh format ⟨hlog,by simpa using hb⟩
  rw [hu.user] at hres
  by_cases hex : ∃ n, demand s.user format args = some n ∧ Granted grant 3 n
  · obtain ⟨n,hd,hg⟩ := hex
    obtain ⟨q,hq,htr,hun⟩ := hres.ok n hd (by rw [ht]; exact hg)
    have hhold := hres.holding
    rw [hq] at hhold
    refine .inl ⟨n,⟨h,b,q.table,q.argv,q.cntIn,q.cntIo⟩,q.world,hd,hg,?_,?_⟩
    · rw [parseWith, hq]
    · refine ⟨hhold.log,hhold.nonnull,hh,?_,?_⟩
      · rw [htr, ht, Nat.add_comm]
      · exact ⟨hun.user.trans hu.user,hun.ipc.trans hu.ipc,hun.queueUsed.trans hu.queueUsed⟩
  · have hno : ∀ n, demand s.user format args = some n → ¬Granted grant 3 n :=
      fun n hd hg => hex ⟨n,hd,hg⟩
    obtain ⟨⟨e,q⟩,hq⟩ := hres.error (by rw [ht]; exact hno)
    have hhold : Holding h [⟨.wkspace,c⟩, ⟨.wkspace,b⟩] q := by
      have hh' := hres.holding
      rw [hq] at hh'
      exact hh'
    refine .inr ⟨hno,e,_,by rw [parseWith, hq],?_⟩
    change Released ((freeTable h q.table q.world).log ++ _ ++ _)
    rw [freeTable_log hh hhold.nonnull, hhold.log]
    have hperm := returned_perm c ⟨h,b,q.table,[],0,0⟩
    simpa [Released, owned, returned] using hperm

theorem parse_spec (hlog : s.log = [.alloc ⟨.wkspace,c⟩]) (ht : s.tried = 1) (h0 : grant 0 ≠ 0) :
    (∃ n d w, Parsable grant ipcHid hid format args s.user n ∧
      iosIoctlvformatParse grant ipcHid hid format args s = (.ok d,w) ∧ ParsedWell c s w d n) ∨
    (∀ n, ¬Parsable grant ipcHid hid format args s.user n) ∧
      ∃ e w, iosIoctlvformatParse grant ipcHid hid format args s = (.error e,w) ∧
        Released (wkspaceFree c w).log := by
  rw [iosIoctlvformatParse]
  by_cases hneg : effectiveHeap ipcHid hid < 0
  · rw [if_pos hneg]
    exact .inr ⟨fun n hp => absurd hp.heap.1 (by omega),_,_,rfl,released_short c hlog⟩
  rw [if_neg hneg]
  by_cases hlong : iosMaxfmtParams ≤ format.length
  · rw [if_pos hlong]
    exact .inr ⟨fun n hp => absurd hp.short (by omega),_,_,rfl,released_short c hlog⟩
  rw [if_neg hlong, wkspaceAllocate]
  by_cases h1 : grant 1 = 0
  · rw [heapAllocate_none _ (by rw [ht]; exact h1)]
    exact .inr ⟨fun n hp => hp.granted 1 (by omega) h1,_,_,rfl,released_short c hlog⟩
  rw [heapAllocate_some _ (by rw [ht]; exact h1), ht, if_neg h1]
  by_cases hv : ValidHeap (effectiveHeap ipcHid hid)
  · rw [iosAlloc_valid hv (by omega)]
    by_cases h2 : grant 2 = 0
    · rw [heapAllocate_none _ h2]
      refine .inr ⟨fun n hp => hp.granted 2 (by omega) h2,_,_,rfl,released_table _ _ ?_⟩
      exact congrArg (· ++ _) hlog
    · rw [heapAllocate_some _ h2]
      have h2' : grant ((note (.alloc ⟨.wkspace,grant 1⟩) { s with tried := 1+1 }).tried) ≠ 0 := h2
      rw [if_neg h2']
      have hlog' : (note (.alloc ⟨.heap (effectiveHeap ipcHid hid),grant 2⟩)
          { note (.alloc ⟨.wkspace,grant 1⟩) { s with tried := 1+1 } with tried := 2+1 }).log =
          [.alloc ⟨.wkspace,c⟩, .alloc ⟨.wkspace,grant 1⟩,
            .alloc ⟨.heap (effectiveHeap ipcHid hid),grant 2⟩] :=
        congrArg (fun l => (l ++ _) ++ _) hlog
      rcases @parseWith_spec grant format args c s _ _ _ _ hv h2 hlog' rfl
        ⟨rfl,rfl,rfl⟩ with ⟨n,d,w,hd,hg,hp,hw⟩ | ⟨hno,e,w,hp,hr⟩
      · refine .inl ⟨n,d,w,⟨hv,Nat.lt_of_not_le hlong,hd,?_⟩,hp,hw⟩
        rw [granted_succ, granted_succ, granted_succ]
        exact ⟨h0,h1,h2,hg⟩
      · refine .inr ⟨fun n hpar => hno n hpar.demand ?_,e,w,hp,hr⟩
        have hgr := hpar.granted
        rw [granted_succ, granted_succ, granted_succ] at hgr
        exact hgr.2.2.2
  · rw [iosAlloc_invalid hv]
    refine .inr ⟨fun n hp => hv hp.heap,_,_,rfl,released_table _ _ ?_⟩
    exact congrArg (· ++ _) hlog

theorem ioctlvfmtCB_log (hv : ValidHeap d.hId) (hn : ∀ e ∈ d.table, e.ipcBuf ≠ 0)
    (cb : Option ℕ) (data : ℕ) (s : World) :
    (ioctlvfmtCB c ⟨cb,data,d.hId,d.bufs,d.table⟩ s).log = s.log ++ (returned c d).map .free := by
  change (returnTable d.hId d.table s).log ++ _ ++ _ = _
  rw [returnTable_log hv hn]
  simp [returned]

/-! The request. -/

theorem lwpInitQueue_keeps (s : World) :
    (lwpInitQueue s).2.log = s.log ∧ (lwpInitQueue s).2.ipc = s.ipc := by
  unfold lwpInitQueue
  split <;> exact ⟨rfl,rfl⟩

theorem lwpCloseQueue_log (q : ℕ) (s : World) : (lwpCloseQueue q s).log = s.log := by
  unfold lwpCloseQueue
  split <;> rfl

theorem slot_iff (s : World) : (lwpInitQueue s).1 = 0 ↔ s.queueUsed = BitVec.allOnes 64 := by
  have hfull : lwpcAllocSlot s.queueUsed = none ↔ s.queueUsed = BitVec.allOnes 64 := by
    rw [lwpcAllocSlot, List.find?_eq_none]
    constructor
    · intro h
      apply BitVec.eq_of_getLsbD_eq
      intro i hi
      rw [BitVec.getLsbD_allOnes, decide_eq_true hi]
      simpa using h i (mem_range.mpr hi)
    · intro h i hi
      rw [h, BitVec.getLsbD_allOnes]
      simpa using mem_range.mp hi
  rw [← hfull, lwpInitQueue]
  cases hs : lwpcAllocSlot s.queueUsed <;> simp

theorem queueReq_spec (p : ℕ) (r : IpcReq) (s : World) :
    (queueReq p r s).1 = decide (outstanding s.ipc < 16) ∧ (queueReq p r s).2.log = s.log := by
  refine ⟨?_,rfl⟩
  rw [queueReq, ipcQueuerequest]
  have hsame : outstanding (IpcRequest.setReq p r s.ipc) = outstanding s.ipc := rfl
  split
  · rename_i h
    exact (decide_eq_false (by omega)).symm
  · rename_i h
    exact (decide_eq_true (by omega)).symm

theorem syncrequest_full (r : Reply) (p : ℕ) (h : 16 ≤ outstanding s.ipc) :
    (ipcSyncrequest r p s).1 < 0 ∧ (ipcSyncrequest r p s).2.log = s.log := by
  have hq := queueReq_spec p { fillIoctlv none (s.ipc.mem p) with syncqueue := (lwpInitQueue s).1 }
    (lwpInitQueue s).2
  rw [(lwpInitQueue_keeps s).2, decide_eq_false (by omega), (lwpInitQueue_keeps s).1] at hq
  rw [ipcSyncrequest]
  rw [if_neg (by rw [hq.1]; decide), lwpCloseQueue_log]
  exact ⟨show IpcError.equeuefull.code < 0 by decide,hq.2⟩

theorem syncrequest_taken (r : Reply) (p : ℕ) (h : outstanding s.ipc < 16) :
    if s.queueUsed = BitVec.allOnes 64 then
      (ipcSyncrequest r p s).1 = (s.ipc.mem p).result ∧ (ipcSyncrequest r p s).2.log = s.log
    else (ipcSyncrequest r p s).1 = r.result ∧
      (ipcSyncrequest r p s).2.log = s.log ++ [.answer] := by
  have hq := queueReq_spec p { fillIoctlv none (s.ipc.mem p) with syncqueue := (lwpInitQueue s).1 }
    (lwpInitQueue s).2
  rw [(lwpInitQueue_keeps s).2, decide_eq_true h, (lwpInitQueue_keeps s).1] at hq
  rw [ipcSyncrequest]
  rw [if_pos hq.1]
  by_cases hslot : s.queueUsed = BitVec.allOnes 64
  · rw [if_pos hslot, if_pos ((slot_iff s).mpr hslot), lwpCloseQueue_log]
    exact ⟨rfl,hq.2⟩
  · rw [if_neg hslot, if_neg (fun he => hslot ((slot_iff s).mp he)), lwpCloseQueue_log]
    exact ⟨rfl,congrArg (· ++ _) hq.2⟩

theorem released_returned (d : Parsed) {mid : List (Event Block)} (hmid : Released mid) :
    Released ((owned c d).map .alloc ++ mid ++ (returned c d).map .free) := by
  simp only [Released, allocs_append, frees_append, allocs_allocs, frees_allocs, allocs_frees,
    frees_frees, append_nil]
  exact perm_append_comm.trans ((returned_perm c d).append hmid)

inductive Asked (grant : ℕ → ℕ) (ipcHid : ℤ) (r : Reply) (w : World) (n : ℕ) : Prop
  | refused (mid : List (Event Block)) (h : Refused grant ipcHid w.ipc n)
    (code : (iosIoctlv grant ipcHid r w).1 < 0)
    (log : (iosIoctlv grant ipcHid r w).2.log = w.log ++ mid) (hmid : Released mid)
  | early (h : ¬Refused grant ipcHid w.ipc n) (full : w.queueUsed = BitVec.allOnes 64)
    (code : (iosIoctlv grant ipcHid r w).1 = (w.ipc.mem (grant (n+3))).result)
    (log : (iosIoctlv grant ipcHid r w).2.log = w.log ++
      [.alloc ⟨.heap ipcHid,grant (n+3)⟩, .free ⟨.heap ipcHid,grant (n+3)⟩])
  | answered (h : ¬Refused grant ipcHid w.ipc n) (free : w.queueUsed ≠ BitVec.allOnes 64)
    (log : (iosIoctlv grant ipcHid r w).2.log = w.log ++
      [.alloc ⟨.heap ipcHid,grant (n+3)⟩, .answer, .free ⟨.heap ipcHid,grant (n+3)⟩])

theorem code_neg (e : IpcError) : e.code < 0 := by
  cases e <;> decide

def asking (grant : ℕ → ℕ) (ipcHid : ℤ) (n : ℕ) (w : World) : World :=
  note (.alloc ⟨.heap ipcHid,grant (n+3)⟩) { w with tried := n+3+1 }

theorem ipcAllocreq_spec (ht : w.tried = n+3) : if ValidHeap ipcHid ∧ grant (n+3) ≠ 0 then
      ipcAllocreq grant ipcHid w = (grant (n+3),asking grant ipcHid n w)
    else ∃ k, ipcAllocreq grant ipcHid w = (0,{ w with tried := k }) := by
  rw [ipcAllocreq]
  by_cases hv : ValidHeap ipcHid
  · rw [iosAlloc_valid hv (by omega)]
    by_cases hg : grant (n+3) = 0
    · rw [if_neg (fun h => h.2 hg)]
      exact ⟨_,heapAllocate_none _ (by rw [ht]; exact hg)⟩
    · rw [if_pos ⟨hv,hg⟩, heapAllocate_some _ (by rw [ht]; exact hg), ht]
      rfl
  · rw [if_neg (fun h => hv h.1)]
    exact ⟨w.tried,iosAlloc_invalid hv _⟩

theorem refused_iff {ipc : Ipc} : ¬Refused grant ipcHid ipc n ↔
    (ValidHeap ipcHid ∧ grant (n+3) ≠ 0) ∧ outstanding ipc < 16 := by
  simp [Refused, and_assoc]

theorem iosIoctlv_asked (r : Reply) (ht : w.tried = n+3) : Asked grant ipcHid r w n := by
  have hspec := @ipcAllocreq_spec grant ipcHid n w ht
  by_cases hroom : ValidHeap ipcHid ∧ grant (n+3) ≠ 0
  · rw [if_pos hroom] at hspec
    have hres : iosIoctlv grant ipcHid r w =
        ((ipcSyncrequest r (grant (n+3)) (asking grant ipcHid n w)).1,
          iosFree ipcHid (grant (n+3))
            (ipcSyncrequest r (grant (n+3)) (asking grant ipcHid n w)).2) := by
      rw [iosIoctlv, hspec]
      exact if_neg hroom.2
    have hfree := iosFree_log hroom.1 hroom.2
      (s := (ipcSyncrequest r (grant (n+3)) (asking grant ipcHid n w)).2)
    by_cases hfull : 16 ≤ outstanding w.ipc
    · obtain ⟨hcode,hlog⟩ :=
        syncrequest_full r (grant (n+3)) (s := asking grant ipcHid n w) hfull
      refine .refused [.alloc ⟨.heap ipcHid,grant (n+3)⟩, .free ⟨.heap ipcHid,grant (n+3)⟩]
        (.inr (.inr hfull)) (by rw [hres]; exact hcode) ?_ (.refl _)
      rw [hres, hfree, hlog]
      simp [asking, note]
    · have hno := refused_iff.mpr ⟨hroom,Nat.lt_of_not_le hfull⟩
      have htaken := syncrequest_taken r (grant (n+3)) (s := asking grant ipcHid n w)
        (Nat.lt_of_not_le hfull)
      by_cases hslot : w.queueUsed = BitVec.allOnes 64
      · rw [if_pos (by exact hslot)] at htaken
        refine .early hno hslot (by rw [hres]; exact htaken.1) ?_
        rw [hres, hfree, htaken.2]
        simp [asking, note]
      · rw [if_neg (by exact hslot)] at htaken
        refine .answered hno hslot ?_
        rw [hres, hfree, htaken.2]
        simp [asking, note]
  · rw [if_neg hroom] at hspec
    obtain ⟨k,hk⟩ := hspec
    have hres : iosIoctlv grant ipcHid r w = (IpcError.enomem.code,{ w with tried := k }) := by
      rw [iosIoctlv, hk]
      exact if_pos rfl
    refine .refused [] (by_contra (fun hno => hroom (refused_iff.mp hno).1)) ?_ ?_ (.refl _)
    · rw [hres]
      exact code_neg .enomem
    · rw [hres, append_nil]

inductive AskedAsync (grant : ℕ → ℕ) (ipcHid : ℤ) (c : ℕ) (w : World) (n : ℕ) : Prop
  | refused (mid : List (Event Block)) (h : Refused grant ipcHid w.ipc n)
    (code : (iosIoctlvAsync grant ipcHid c w).1.1 < 0)
    (log : (iosIoctlvAsync grant ipcHid c w).2.log = w.log ++ mid) (hmid : Released mid)
  | queued (h : ¬Refused grant ipcHid w.ipc n)
    (code : (iosIoctlvAsync grant ipcHid c w).1 = (ipcOk,some (grant (n+3))))
    (log : (iosIoctlvAsync grant ipcHid c w).2.log =
      w.log ++ [.alloc ⟨.heap ipcHid,grant (n+3)⟩])

theorem iosIoctlvAsync_asked (c : ℕ) (ht : w.tried = n+3) : AskedAsync grant ipcHid c w n := by
  have hspec := @ipcAllocreq_spec grant ipcHid n w ht
  by_cases hroom : ValidHeap ipcHid ∧ grant (n+3) ≠ 0
  · rw [if_pos hroom] at hspec
    obtain ⟨htake,hlog⟩ := queueReq_spec (grant (n+3))
      (fillIoctlv (some c) ((asking grant ipcHid n w).ipc.mem (grant (n+3))))
        (asking grant ipcHid n w)
    generalize hq : queueReq (grant (n+3)) _ (asking grant ipcHid n w) = q at htake hlog
    by_cases hfull : 16 ≤ outstanding w.ipc
    · have hres : iosIoctlvAsync grant ipcHid c w = ((IpcError.equeuefull.code,none),
          iosFree ipcHid (grant (n+3)) q.2) := by
        rw [iosIoctlvAsync, hspec, ← hq]
        refine (if_neg hroom.2).trans (if_neg ?_)
        rw [hq, htake, decide_eq_true_eq]
        exact Nat.not_lt.mpr hfull
      refine .refused [.alloc ⟨.heap ipcHid,grant (n+3)⟩, .free ⟨.heap ipcHid,grant (n+3)⟩]
        (.inr (.inr hfull)) (by rw [hres]; exact code_neg .equeuefull) ?_ (.refl _)
      rw [hres, iosFree_log hroom.1 hroom.2, hlog]
      simp [asking, note]
    · have hres : iosIoctlvAsync grant ipcHid c w = ((ipcOk,some (grant (n+3))),kick q.2) := by
        rw [iosIoctlvAsync, hspec, ← hq]
        refine (if_neg hroom.2).trans (if_pos ?_)
        rw [hq, htake, decide_eq_true_eq]
        exact Nat.lt_of_not_le hfull
      refine .queued (refused_iff.mpr ⟨hroom,Nat.lt_of_not_le hfull⟩) (by rw [hres]) ?_
      rw [hres]
      exact hlog
  · rw [if_neg hroom] at hspec
    obtain ⟨k,hk⟩ := hspec
    have hres : iosIoctlvAsync grant ipcHid c w =
        ((IpcError.enomem.code,none),{ w with tried := k }) := by
      rw [iosIoctlvAsync, hk]
      exact if_pos rfl
    refine .refused [] (by_contra (fun hno => hroom (refused_iff.mp hno).1)) ?_ ?_ (.refl _)
    · rw [hres]
      exact code_neg .enomem
    · rw [hres, append_nil]

theorem parsable_unique {user : ℕ → ℕ} {m n : ℕ} (hm : Parsable grant ipcHid hid format args user m)
    (hn : Parsable grant ipcHid hid format args user n) : m = n :=
  mem_unique hm.demand hn.demand

end Calls

/-- A failed call has freed what it had allocated, and a call that succeeds
has kept it for the reply and freed it then. -/
def Releases (o : ℤ × World) : Prop :=
  (o.1 < 0 → Released o.2.log) ∧ (0 ≤ o.1 → ReleasedAfter o.2.log)

def ReleasesAsync (ipcHid : ℤ) (o : (ℤ × Option Pending) × World) : Prop :=
  (o.1.1 < 0 → Released o.2.log) ∧
  (0 ≤ o.1.1 → ∃ d, o.1.2 = some d ∧ ∀ r, ReleasedAfter (replyPending ipcHid r d o.2).2.log)

section Release

variable (grant : ℕ → ℕ) (ipcHid hid : ℤ) (format : List Char) (args : List ℕ)
variable (user : ℕ → ℕ) (buf : ℕ → List ℕ) (ipc : Ipc) (queueUsed : BitVec 64)

def begun : World := ⟨user,buf,ipc,queueUsed,1,[.alloc ⟨.wkspace,grant 0⟩]⟩

theorem begun_of_granted (h0 : grant 0 ≠ 0) :
    wkspaceAllocate grant (atCall user buf ipc queueUsed) =
      (grant 0,begun grant user buf ipc queueUsed) :=
  heapAllocate_some (s := atCall user buf ipc queueUsed) .wkspace h0

theorem releasedAfter_returned (c : ℕ) (d : Parsed) (q : Block) (post : List (Event Block))
    (ha : allocs post = []) (hf : (frees post).Perm (q::returned c d)) :
    ReleasedAfter ((owned c d).map .alloc ++ [.alloc q] ++ .answer::post) := by
  refine ⟨_,post,rfl,by simp,ha,?_⟩
  have hperm := ((returned_perm c d).cons q).trans (perm_append_singleton q _).symm
  simpa using hf.trans hperm

theorem submit_releases (r : Reply) {w : World} {n : ℕ}
    (hw : ParsedWell (grant 0) (begun grant user buf ipc queueUsed) w d n) :
    Releases (submitFormat grant ipcHid (grant 0) r (.ok d,w)) ↔
      ¬(¬Refused grant ipcHid ipc n ∧ queueUsed = BitVec.allOnes 64 ∧
        0 ≤ (ipc.mem (grant (n+3))).result) := by
  have hipc : w.ipc = ipc := hw.untouched.ipc
  have hused : w.queueUsed = queueUsed := hw.untouched.queueUsed
  have hcode : (submitFormat grant ipcHid (grant 0) r (.ok d,w)).1 =
      (iosIoctlv grant ipcHid r w).1 := rfl
  have hlog : (submitFormat grant ipcHid (grant 0) r (.ok d,w)).2.log =
      (iosIoctlv grant ipcHid r w).2.log ++ (returned (grant 0) d).map .free :=
    ioctlvfmtCB_log hw.heap hw.nonnull none 0 _
  rw [Releases, hcode, hlog]
  cases @iosIoctlv_asked grant ipcHid n w r hw.tried with
  | refused mid h code log hmid =>
    rw [hipc] at h
    rw [log, hw.log]
    exact iff_of_true ⟨fun _ => released_returned d hmid,fun hc => absurd code (Int.not_lt.mpr hc)⟩
      (fun hn => hn.1 h)
  | early h full code log =>
    rw [hipc] at h code
    rw [hused] at full
    rw [log, hw.log, code]
    constructor
    · rintro ⟨-,hafter⟩ ⟨-,-,hres⟩
      have hans := (hafter hres).answered
      simp at hans
    · intro hn
      exact ⟨fun _ => released_returned d (.refl _),fun hres => absurd ⟨h,full,hres⟩ hn⟩
  | answered h free log =>
    rw [hused] at free
    rw [log, hw.log]
    refine iff_of_true ⟨fun _ => released_returned d (.refl _),fun _ => ?_⟩ (fun hn => free hn.2.1)
    have hafter := releasedAfter_returned (grant 0) d ⟨.heap ipcHid,grant (n+3)⟩
      (.free ⟨.heap ipcHid,grant (n+3)⟩::(returned (grant 0) d).map .free)
      (by simp) (by simp)
    simpa using hafter

theorem submitAsync_releases (cb : Option ℕ) (data : ℕ) {w : World} {n : ℕ}
    (hw : ParsedWell (grant 0) (begun grant user buf ipc queueUsed) w d n) :
    ReleasesAsync ipcHid (submitFormatAsync grant ipcHid (grant 0) cb data (.ok d,w)) ↔
      ¬Refused grant ipcHid ipc n := by
  have hipc : w.ipc = ipc := hw.untouched.ipc
  have hres : submitFormatAsync grant ipcHid (grant 0) cb data (.ok d,w) =
      (((iosIoctlvAsync grant ipcHid (grant 0) w).1.1,
        (iosIoctlvAsync grant ipcHid (grant 0) w).1.2.map
          (fun q => ⟨q,grant 0,⟨cb,data,d.hId,d.bufs,d.table⟩⟩)),
        (iosIoctlvAsync grant ipcHid (grant 0) w).2) := rfl
  rw [hres]
  cases @iosIoctlvAsync_asked grant ipcHid n w (grant 0) hw.tried with
  | refused mid h code log hmid =>
    rw [hipc] at h
    refine iff_of_false (fun hr => ?_) (not_not_intro h)
    have hperm := hr.1 code
    rw [log, hw.log] at hperm
    have hlen := hperm.length_eq
    have hmid := hmid.length_eq
    simp [owned] at hlen
    omega
  | queued h code log =>
    rw [hipc] at h
    have hroom := (refused_iff.mp h).1
    refine iff_of_true ⟨fun hc => ?_,fun _ => ⟨_,by rw [code]; rfl,fun r => ?_⟩⟩ h
    · rw [code] at hc
      exact absurd (show ipcOk < 0 from hc) (by decide)
    · rw [replyPending]
      rw [ipcFreereq, iosFree_log hroom.1 hroom.2,
        ioctlvfmtCB_log hw.heap hw.nonnull]
      change ReleasedAfter ((iosIoctlvAsync grant ipcHid (grant 0) w).2.log ++ _ ++ _ ++ _)
      rw [log, hw.log]
      have hafter := releasedAfter_returned (grant 0) d ⟨.heap ipcHid,grant (n+3)⟩
        ((returned (grant 0) d).map .free ++ [.free ⟨.heap ipcHid,grant (n+3)⟩])
        (by simp) (by simp)
      simpa using hafter

/-- A failed call has freed each block it had allocated, and a successful one
frees each after the reply, exactly if: the request of an asynchronous call is
not refused once the format has been parsed, and a synchronous call whose
request is taken finds a queue to sleep in or a negative result in the block. -/
theorem formatted_requests_release (r : Reply) (cb : Option ℕ) (data : ℕ) :
    (Releases (iosIoctlvFormat grant ipcHid hid format args r (atCall user buf ipc queueUsed)) ↔
      ¬∃ n, Parsable grant ipcHid hid format args user n ∧ ¬Refused grant ipcHid ipc n ∧
        queueUsed = BitVec.allOnes 64 ∧ 0 ≤ (ipc.mem (grant (n+3))).result) ∧
    (ReleasesAsync ipcHid (iosIoctlvFormatAsync grant ipcHid hid cb data format args
        (atCall user buf ipc queueUsed)) ↔
      ¬∃ n, Parsable grant ipcHid hid format args user n ∧ Refused grant ipcHid ipc n) := by
  rw [iosIoctlvFormat, iosIoctlvFormatAsync]
  by_cases h0 : grant 0 = 0
  · rw [wkspaceAllocate, heapAllocate_none _ (by exact h0)]
    have hfail : ∀ n, ¬Parsable grant ipcHid hid format args user n :=
      fun n hp => hp.granted 0 (by omega) h0
    refine ⟨iff_of_true ⟨fun _ => .refl _,fun h => ?_⟩ (fun ⟨n,hp,_⟩ => hfail n hp),
      iff_of_true ⟨fun _ => .refl _,fun h => ?_⟩ (fun ⟨n,hp,_⟩ => hfail n hp)⟩
    · exact absurd (code_neg .enomem) (Int.not_lt.mpr h)
    · exact absurd (code_neg .enomem) (Int.not_lt.mpr h)
  rw [begun_of_granted grant user buf ipc queueUsed h0]
  rw [if_neg h0, if_neg h0]
  rcases @parse_spec grant ipcHid hid format args (grant 0) (begun grant user buf ipc queueUsed)
    rfl rfl h0 with ⟨n,d,w,hp,hparse,hw⟩ | ⟨hfail,e,w,hparse,hrel⟩
  · have hone : ∀ m, Parsable grant ipcHid hid format args user m ↔ m = n :=
      fun m => ⟨fun hm => parsable_unique hm hp,fun hm => hm ▸ hp⟩
    simp only [hone, exists_eq_left]
    rw [hparse, submit_releases grant ipcHid user buf ipc queueUsed r hw,
      submitAsync_releases grant ipcHid user buf ipc queueUsed cb data hw]
    exact ⟨Iff.rfl,Iff.rfl⟩
  · rw [hparse]
    refine ⟨iff_of_true ⟨fun _ => hrel,fun h => ?_⟩ (fun ⟨n,hp,_⟩ => hfail n hp),
      iff_of_true ⟨fun _ => hrel,fun h => ?_⟩ (fun ⟨n,hp,_⟩ => hfail n hp)⟩
    · exact absurd (code_neg e) (Int.not_lt.mpr h)
    · exact absurd (code_neg e) (Int.not_lt.mpr h)

end Release

def fullRing : Ipc := { ipcInit (fun _ => ⟨.open,0,none,false,false,0,false⟩) with cntQueue := 16 }

def emptyRing : Ipc := ipcInit (fun _ => ⟨.open,0,none,false,false,0,false⟩)

def noReply : Reply := ⟨-1,fun _ => 0,fun _ => []⟩

/-- With a full ring the asynchronous call fails and keeps the callback data,
the table, the vector and the buffer of its parameter; only the request is
freed. With all 64 queues in use the synchronous call returns the old contents
of the request and frees everything without a reply. -/
theorem refused_request_leaks :
    (iosIoctlvFormatAsync (fun k => 100+k) 0 (-1) none 0 ['i'] [5]
      (atCall (fun _ => 0) (fun _ => []) fullRing 0)).1.1 = IpcError.equeuefull.code ∧
    allocs (iosIoctlvFormatAsync (fun k => 100+k) 0 (-1) none 0 ['i'] [5]
      (atCall (fun _ => 0) (fun _ => []) fullRing 0)).2.log =
      [⟨.wkspace,100⟩, ⟨.wkspace,101⟩, ⟨.heap 0,102⟩, ⟨.heap 0,103⟩, ⟨.heap 0,104⟩] ∧
    frees (iosIoctlvFormatAsync (fun k => 100+k) 0 (-1) none 0 ['i'] [5]
      (atCall (fun _ => 0) (fun _ => []) fullRing 0)).2.log = [⟨.heap 0,104⟩] ∧
    (iosIoctlvFormat (fun k => 100+k) 0 (-1) ['i'] [5] noReply
      (atCall (fun _ => 0) (fun _ => []) emptyRing (BitVec.allOnes 64))).1 = 0 ∧
    frees (iosIoctlvFormat (fun k => 100+k) 0 (-1) ['i'] [5] noReply
      (atCall (fun _ => 0) (fun _ => []) emptyRing (BitVec.allOnes 64))).2.log =
      [⟨.heap 0,104⟩, ⟨.heap 0,102⟩, ⟨.heap 0,103⟩, ⟨.wkspace,101⟩, ⟨.wkspace,100⟩] ∧
    Event.answer ∉ (iosIoctlvFormat (fun k => 100+k) 0 (-1) ['i'] [5] noReply
      (atCall (fun _ => 0) (fun _ => []) emptyRing (BitVec.allOnes 64))).2.log := by
  decide +kernel

end Libogc.IoctlvRelease
