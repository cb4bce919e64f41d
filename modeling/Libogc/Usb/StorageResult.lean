import Libogc.Usb.Storage
import Mathlib.Algebra.GroupWithZero.Nat
import Mathlib.Algebra.Order.BigOperators.Group.List
import Mathlib.Algebra.Order.Group.Nat

/-!
# What a result of the mass storage tells

A cycle ends well if every message has the length that was asked for and the
status wrapper bears the signature and the tag. The status byte of the wrapper
is looked at only for a positive result, and a cycle that ends well returns 0.
-/

set_option autoImplicit false

namespace Libogc.UsbStorageResult
open List ByteStore UsbStorage Nat

theorem listOf_length (b : Bytes) (o n : ℕ) : (listOf b o n).length = n := by
  simp [listOf]

theorem listOf_append (b : Bytes) (o m n : ℕ) :
    listOf b o (m+n) = listOf b o m ++ listOf b (o+m) n := by
  simp [listOf, range_add, Nat.add_assoc]

theorem listOf_congr {b c : Bytes} {o p n : ℕ} (h : ∀ i, i < n → b (o+i) = c (p+i)) :
    listOf b o n = listOf c p n := by
  refine map_congr_left ?_
  intro i hi
  exact h i (mem_range.mp hi)

theorem errors_negative : eDataResidue < 0 ∧ eTimedOut < 0 ∧ eShortRead < 0 ∧ eSignature < 0 ∧
    eTag < 0 := by
  decide

theorem moved_le (len : ℕ) (r : Reply) : r.moved len ≤ len := by
  unfold Reply.moved
  cases r.outcome with
  | refused e => exact zero_le _
  | timeout => exact Nat.min_le_right _ _
  | answered v own =>
    simp only
    split <;> exact Nat.min_le_right _ _

/-! The data. -/

section Loop

variable {dev : ℕ → Reply} {usb2 write : Bool} {s : Usb}

structure Apart (write : Bool) (s s' : Usb) : Prop where
  next : s.next ≤ s'.next
  tag : s'.tag = s.tag
  maxLun : s'.maxLun = s.maxLun
  sectorSize : s'.sectorSize = s.sectorSize
  mem : write = true → s'.mem = s.mem

theorem Apart.trans {s t u : Usb} (h : Apart write s t) (h' : Apart write t u) : Apart write s u :=
  ⟨h.next.trans h'.next,h'.tag.trans h.tag,h'.maxLun.trans h.maxLun,
    h'.sectorSize.trans h.sectorSize,fun hw => (h'.mem hw).trans (h.mem hw)⟩

def addChunks (cs : List Chunk) (t : Talk) : Talk := { t with chunks := t.chunks ++ cs }

theorem listOf_blit {src b : Bytes} {a o k : ℕ} :
    listOf (blit src a o k b) o k = listOf src a k := by
  refine listOf_congr ?_
  intro i hi
  rw [blit_in (by omega), Nat.add_sub_cancel_left]

theorem dataMsg_spec (addr k : ℕ) :
    ∃ (data : List UInt8) (b m : Bytes), dataMsg dev write addr k s = ((dev s.next).retval,
        noteChunk ⟨k,dev s.next,data⟩ { s with buffer := b, mem := m }) ∧
      data.length = (dev s.next).moved k ∧ (write = true → m = s.mem) ∧
      ((dev s.next).retval = k → (∀ i, i < addr ∨ addr+k ≤ i → m i = s.mem i) ∧
        ((dev s.next).moved k = k → data = listOf m addr k)) := by
  have hle := moved_le k (dev s.next)
  generalize hr : dev s.next = r at hle
  cases write with
  | true =>
    cases hd : direct addr with
    | true =>
      refine ⟨listOf s.mem addr (r.moved k),s.buffer,s.mem,by simp [dataMsg, hd, hr],
        listOf_length _ _ _,fun _ => rfl,fun _ => ⟨fun _ _ => rfl,?_⟩⟩
      intro hm
      rw [hm]
    | false =>
      refine ⟨listOf (blit s.mem addr 0 k s.buffer) 0 (r.moved k),blit s.mem addr 0 k s.buffer,
        s.mem,by simp [dataMsg, hd, hr],listOf_length _ _ _,fun _ => rfl,
        fun _ => ⟨fun _ _ => rfl,?_⟩⟩
      intro hm
      rw [hm]
      exact listOf_blit
  | false =>
    cases hd : direct addr with
    | true =>
      refine ⟨listOf r.data 0 (r.moved k),s.buffer,blit r.data 0 addr (r.moved k) s.mem,
        by simp [dataMsg, hd, hr],listOf_length _ _ _,nofun,fun _ => ⟨?_,?_⟩⟩
      · intro i hi
        exact blit_out (by omega)
      · intro hm
        rw [hm]
        exact listOf_blit.symm
    | false =>
      let b := blit r.data 0 0 (r.moved k) s.buffer
      refine ⟨listOf r.data 0 (r.moved k),b,
        if 0 < r.retval then blit b 0 addr r.retval.toNat s.mem else s.mem,
        by simp [dataMsg, hd, hr, b],listOf_length _ _ _,nofun,fun hk => ⟨?_,?_⟩⟩
      · intro i hi
        split
        · rw [hk]
          exact blit_out hi
        · rfl
      · intro hm
        split
        · rw [hk, Int.toNat_natCast]
          simp only [b, hm]
          exact listOf_blit.symm.trans listOf_blit.symm
        · obtain rfl : k = 0 := by omega
          rw [hm]
          rfl

structure Recorded (dev : ℕ → Reply) (write : Bool) (s s' : Usb) (cs : List Chunk) : Prop where
  apart : Apart write s s'
  talk : s'.talk = s.talk.map (addChunks cs)
  length : ∀ c ∈ cs, c.data.length = c.reply.moved c.len
  replies : ∀ c ∈ cs, ∃ m, s.next ≤ m ∧ c.reply = dev m

structure Filled (addr len : ℕ) (s s' : Usb) (cs : List Chunk) : Prop where
  sum : (cs.map Chunk.len).sum = len
  answers : ∀ c ∈ cs, c.reply.retval = c.len
  frame : ∀ i, i < addr ∨ addr+len ≤ i → s'.mem i = s.mem i
  data : (∀ c ∈ cs, c.reply.moved c.len = c.len) →
    (cs.map Chunk.data).flatten = listOf s'.mem addr len

theorem recorded_nil : Recorded dev write s s [] :=
  ⟨⟨Nat.le_refl _,rfl,rfl,rfl,fun _ => rfl⟩,by cases s.talk <;> simp [addChunks],nofun,nofun⟩

theorem filled_nil (addr : ℕ) : Filled addr 0 s s [] :=
  ⟨rfl,nofun,fun _ _ => rfl,fun _ => rfl⟩

theorem recorded_cons {s t u : Usb} {c : Chunk} {cs : List Chunk} (h : Recorded dev write s t [c])
    (h' : Recorded dev write t u cs) : Recorded dev write s u (c::cs) := by
  refine ⟨h.apart.trans h'.apart,?_,?_,?_⟩
  · rw [h'.talk, h.talk, Option.map_map]
    congr 1
    funext x
    simp [addChunks]
  · intro x hx
    rcases mem_cons.mp hx with rfl | hx
    · exact h.length x mem_cons_self
    · exact h'.length x hx
  · intro x hx
    rcases mem_cons.mp hx with rfl | hx
    · exact h.replies x mem_cons_self
    · obtain ⟨m,hm,hr⟩ := h'.replies x hx
      exact ⟨m,h.apart.next.trans hm,hr⟩

theorem chunkLen_le (len : ℕ) : chunkLen usb2 len ≤ len := by
  unfold chunkLen
  split <;> omega

theorem chunkLen_pos {len : ℕ} (h : 0 < len) : 0 < chunkLen usb2 len := by
  have hmax : 0 < maxSize usb2 := by cases usb2 <;> decide
  unfold chunkLen
  split <;> omega

theorem dataLoop_spec (n addr len : ℕ) (ret : ℤ) :
    ∃ cs, Recorded dev write s (dataLoop dev usb2 write n addr len ret s).2 cs ∧
      (len ≤ n → 0 ≤ (dataLoop dev usb2 write n addr len ret s).1 →
        Filled addr len s (dataLoop dev usb2 write n addr len ret s).2 cs) := by
  induction n generalizing addr len ret s with
  | zero =>
    refine ⟨[],recorded_nil,?_⟩
    intro hlen _
    obtain rfl : len = 0 := le_zero.mp hlen
    exact filled_nil addr
  | succ n ih =>
    by_cases hrun : 0 < len ∧ 0 ≤ ret
    · have hk := @chunkLen_le usb2 len
      have hpos := @chunkLen_pos usb2 len hrun.1
      obtain ⟨data,b,m,heq,hdl,hw,hfull⟩ := @dataMsg_spec dev write s addr (chunkLen usb2 len)
      have hone : Recorded dev write s (noteChunk ⟨chunkLen usb2 len,dev s.next,data⟩
          { s with buffer := b, mem := m }) [⟨chunkLen usb2 len,dev s.next,data⟩] := by
        refine ⟨⟨Nat.le_succ _,rfl,rfl,rfl,hw⟩,rfl,by simpa using hdl,?_⟩
        intro c hc
        cases mem_singleton.mp hc
        exact ⟨s.next,Nat.le_refl _,rfl⟩
      rw [dataLoop, if_pos hrun]
      simp only [heq]
      generalize chunkLen usb2 len = k at *
      split
      · rename_i hret
        obtain ⟨hframe,hdata⟩ := hfull hret
        obtain ⟨cs,hrec,hfill⟩ :=
          @ih (noteChunk ⟨k,dev s.next,data⟩ { s with buffer := b, mem := m })
          (addr+k) (len-k) (dev s.next).retval
        refine ⟨_,recorded_cons hone hrec,?_⟩
        intro hlen hret'
        obtain ⟨hsum,hans,hfr,hd⟩ := hfill (by omega) hret'
        refine ⟨?_,?_,?_,?_⟩
        · rw [map_cons, sum_cons, hsum]
          exact add_sub_of_le hk
        · intro c hc
          rcases mem_cons.mp hc with rfl | hc
          · exact hret
          · exact hans c hc
        · intro i hi
          rw [hfr i (by omega)]
          exact hframe i (by omega)
        · intro hall
          have hlast := hd (fun c hc => hall c (mem_cons_of_mem _ hc))
          have hfirst := (hdata (hall _ mem_cons_self)).trans
            (listOf_congr (fun i hi => (hfr (addr+i) (by omega)).symm))
          rw [map_cons, flatten_cons, hlast]
          refine (congrArg (· ++ _) hfirst).trans ?_
          rw [← listOf_append, add_sub_of_le hk]
      · refine ⟨[⟨k,dev s.next,data⟩],?_,?_⟩
        · split <;> exact hone
        · split
          · exact fun _ h => absurd h (Int.not_le.mpr errors_negative.1)
          · rename_i hout
            intro _ h
            rw [not_not.mp hout] at h
            exact absurd h (Int.not_le.mpr errors_negative.2.1)
    · rw [dataLoop, if_neg hrun]
      refine ⟨[],recorded_nil,?_⟩
      intro _ hret
      obtain rfl : len = 0 := by
        by_contra hne
        exact hrun ⟨Nat.pos_of_ne_zero hne,hret⟩
      exact filled_nil addr

end Loop

/-! Cycles. -/

def cswAccepted (tag : BitVec 32) (r : Reply) : Prop :=
  ¬(0 < r.retval ∧ r.retval ≠ 13) ∧ ¬r.retval < 0 ∧ cswSignature r = 0x53425355 ∧ cswTag r = tag

def Ended (s : Usb) (t : Talk) (r : Reply) : Prop :=
  s.talk = some t ∧ t.csw = some r ∧ cswAccepted s.tag r

/-- The answers of a conversation are those of the device from message `n` on,
and each data message was answered with its length. -/
structure Answered (dev : ℕ → Reply) (n : ℕ) (t : Talk) (r : Reply) : Prop where
  data : ∀ c ∈ t.chunks, ∃ m, n ≤ m ∧ c.reply = dev m ∧ c.reply.retval = c.len
  status : ∃ m, n ≤ m ∧ r = dev m

def CycleEnd (dev : ℕ → Reply) (n addr len : ℕ) (ret : ℤ) (s' : Usb) : Prop :=
  (ret < 0 ∧ ∀ t r, ¬Ended s' t r) ∨
  ret = 0 ∧ ∃ t r, Ended s' t r ∧ Answered dev n t r ∧
    (∀ c ∈ t.chunks, c.data.length = c.reply.moved c.len) ∧
    (t.chunks.map Chunk.len).sum = len ∧
    ((∀ c ∈ t.chunks, c.reply.moved c.len = c.len) →
      (t.chunks.map Chunk.data).flatten = listOf s'.mem addr len)

theorem CycleEnd.mono {dev : ℕ → Reply} {k n addr len : ℕ} {ret : ℤ} {s' : Usb} (hk : k ≤ n)
    (h : CycleEnd dev n addr len ret s') : CycleEnd dev k addr len ret s' := by
  rcases h with h | ⟨hret,t,r,hend,hans,hrest⟩
  · exact .inl h
  · refine .inr ⟨hret,t,r,hend,⟨?_,?_⟩,hrest⟩
    · intro c hc
      obtain ⟨m,hm,hr⟩ := hans.data c hc
      exact ⟨m,hk.trans hm,hr⟩
    · obtain ⟨m,hm,hr⟩ := hans.status
      exact ⟨m,hk.trans hm,hr⟩

structure Still (write : Bool) (s s' : Usb) : Prop where
  next : s.next ≤ s'.next
  maxLun : s'.maxLun = s.maxLun
  sectorSize : s'.sectorSize = s.sectorSize
  mem : write = true → s'.mem = s.mem

theorem Still.trans {write : Bool} {s t u : Usb} (h : Still write s t) (h' : Still write t u) :
    Still write s u :=
  ⟨h.next.trans h'.next,h'.maxLun.trans h.maxLun,h'.sectorSize.trans h.sectorSize,
    fun hw => (h'.mem hw).trans (h.mem hw)⟩

theorem Still.reads {write : Bool} {s s' : Usb} (h : Still true s s') : Still write s s' :=
  ⟨h.next,h.maxLun,h.sectorSize,fun _ => h.mem rfl⟩

theorem Apart.still {write : Bool} {s s' : Usb} (h : Apart write s s') : Still write s s' :=
  ⟨h.next,h.maxLun,h.sectorSize,h.mem⟩

section Cycle

variable {dev : ℕ → Reply} {usb2 write : Bool} {s : Usb} {lun : UInt8} {addr : ℕ}
  {len : BitVec 32} {cb : List UInt8} {st : UInt8 × BitVec 32}

theorem sendCbw_spec {flags : UInt8} (hcb : cb.length ≠ 0 ∧ cb.length ≤ 16) :
    ∃ x, (sendCbw dev lun len flags cb s).2.talk = some ⟨x,dev s.next,[],none⟩ ∧
      Still true s (sendCbw dev lun len flags cb s).2 := by
  rw [sendCbw, if_neg (by omega)]
  exact ⟨_,rfl,Nat.le_succ _,rfl,rfl,fun _ => rfl⟩

theorem readCsw_spec {t : Talk} (ht : s.talk = some t) :
    Still true s (readCsw dev s).2.2 ∧ (readCsw dev s).2.2.tag = s.tag ∧
      (readCsw dev s).2.2.talk = some { t with csw := some (dev s.next) } ∧
      (((readCsw dev s).1 < 0 ∧ ¬cswAccepted s.tag (dev s.next)) ∨
        (readCsw dev s).1 = 0 ∧ cswAccepted s.tag (dev s.next)) := by
  have hstill : ∀ k, Still true s { s with next := s.next+1, talk := k } :=
    fun _ => ⟨Nat.le_succ _,rfl,rfl,fun _ => rfl⟩
  unfold readCsw cswAccepted
  simp only [ht]
  split
  · rename_i h
    exact ⟨hstill _,rfl,rfl,.inl ⟨errors_negative.2.2.1,fun hc => hc.1 h⟩⟩
  · split
    · rename_i h
      exact ⟨hstill _,rfl,rfl,.inl ⟨h,fun hc => hc.2.1 h⟩⟩
    · split
      · rename_i h
        exact ⟨hstill _,rfl,rfl,.inl ⟨errors_negative.2.2.2.1,fun hc => h hc.2.2.1⟩⟩
      · rename_i h1 h2 h3
        refine ⟨hstill _,rfl,rfl,?_⟩
        split
        · rename_i h
          exact .inl ⟨errors_negative.2.2.2.2,fun hc => h hc.2.2.2⟩
        · rename_i h
          exact .inr ⟨rfl,h1,h2,not_not.mp h3,not_not.mp h⟩

theorem exchange_spec (hcb : cb.length ≠ 0 ∧ cb.length ≤ 16) :
    Still write s (exchange dev usb2 write lun addr len cb st s).2.2 ∧
      CycleEnd dev s.next addr len.toNat (exchange dev usb2 write lun addr len cb st s).1
        (exchange dev usb2 write lun addr len cb st s).2.2 := by
  obtain ⟨x,htalk,hsend⟩ := @sendCbw_spec dev s lun len cb (if write then 0 else 0x80) hcb
  simp only [exchange]
  generalize sendCbw dev lun len (if write then 0 else 0x80) cb s = c at htalk hsend
  obtain ⟨cs,hrec,hfill⟩ := @dataLoop_spec dev usb2 write c.2 len.toNat addr len.toNat c.1
  generalize dataLoop dev usb2 write len.toNat addr len.toNat c.1 c.2 = d at hrec hfill
  have hd : d.2.talk = some ⟨x,dev s.next,cs,none⟩ := by
    rw [hrec.talk, htalk]
    rfl
  have hsd : Still write s d.2 := hsend.reads.trans hrec.apart.still
  split
  · rename_i hret
    obtain ⟨hst,htag,htk,hcases⟩ := @readCsw_spec dev d.2 _ hd
    refine ⟨hsd.trans hst.reads,?_⟩
    rcases hcases with ⟨hneg,hno⟩ | ⟨hzero,hacc⟩
    · refine .inl ⟨hneg,?_⟩
      rintro t r ⟨ht,hr,ha⟩
      obtain rfl := Option.mem_unique htk ht
      cases hr
      exact hno (htag ▸ ha)
    · obtain ⟨hsum,hans,-,hdata⟩ := hfill (Nat.le_refl _) hret
      refine .inr ⟨hzero,_,_,⟨htk,rfl,?_⟩,⟨?_,d.2.next,hsd.next,rfl⟩,hrec.length,hsum,?_⟩
      · rw [htag]
        exact hacc
      · intro e he
        obtain ⟨m,hm,hr⟩ := hrec.replies e he
        exact ⟨m,hsend.next.trans hm,hr,hans e he⟩
      · rw [hst.mem rfl]
        exact hdata
  · rename_i hret
    refine ⟨hsd,.inl ⟨Int.not_le.mp hret,?_⟩⟩
    rintro t r ⟨ht,hr,-⟩
    obtain rfl := Option.mem_unique hd ht
    cases hr

theorem resetFailed_spec {w : ℤ × (UInt8 × BitVec 32) × Usb} {n : ℕ} (hs : Still write s w.2.2)
    (h : CycleEnd dev n addr len.toNat w.1 w.2.2) : Still write s (resetFailed dev w).2.2 ∧
      CycleEnd dev n addr len.toNat (resetFailed dev w).1 (resetFailed dev w).2.2 := by
  unfold resetFailed
  split
  · rename_i hneg
    refine ⟨⟨hs.next.trans (Nat.le_succ _),hs.maxLun,hs.sectorSize,hs.mem⟩,?_⟩
    rcases h with ⟨-,hno⟩ | ⟨hzero,-⟩
    · refine .inl ⟨?_,hno⟩
      simp only
      split
      · exact errors_negative.2.1
      · exact hneg
    · exact absurd hneg (by simp [hzero])
  · exact ⟨hs,h⟩

theorem cycleLoop_spec (hcb : cb.length ≠ 0 ∧ cb.length ≤ 16) (n : ℕ) (ret : ℤ)
    (h : n = 0 ∨ ret = eTimedOut → CycleEnd dev s.next addr len.toNat ret s) :
    Still write s (cycleLoop dev usb2 write lun addr len cb n ret st s).2.2 ∧
      CycleEnd dev s.next addr len.toNat (cycleLoop dev usb2 write lun addr len cb n ret st s).1
        (cycleLoop dev usb2 write lun addr len cb n ret st s).2.2 := by
  induction n generalizing ret st s with
  | zero => exact ⟨⟨Nat.le_refl _,rfl,rfl,fun _ => rfl⟩,h (.inl rfl)⟩
  | succ n ih =>
    rw [cycleLoop]
    split
    · rename_i hret
      exact ⟨⟨Nat.le_refl _,rfl,rfl,fun _ => rfl⟩,h (.inr hret)⟩
    · obtain ⟨hs,hend⟩ := @exchange_spec dev usb2 write s lun addr len cb st hcb
      obtain ⟨hs,hend⟩ := @resetFailed_spec dev write s addr len _ _ hs hend
      generalize resetFailed dev (exchange dev usb2 write lun addr len cb st s) = a at hs hend
      simp only
      split
      · rename_i hneg
        -- a cycle that has failed says nothing about the answers before it
        have hfailed : CycleEnd dev a.2.2.next addr len.toNat a.1 a.2.2 := by
          rcases hend with hend | ⟨hzero,-⟩
          · exact .inl hend
          · exact absurd hneg (by simp [hzero])
        obtain ⟨hs',hend'⟩ := @ih a.2.2 a.2.1 a.1 (fun _ => hfailed)
        exact ⟨hs.trans hs',hend'.mono hs.next⟩
      · exact ⟨hs,hend⟩

theorem cycle_spec (hcb : cb.length ≠ 0 ∧ cb.length ≤ 16) :
    Still write s (cycle dev usb2 write lun addr len cb s).2.2 ∧
      CycleEnd dev s.next addr len.toNat (cycle dev usb2 write lun addr len cb s).1
        (cycle dev usb2 write lun addr len cb s).2.2 :=
  cycleLoop_spec hcb 4 0 (by simp [eTimedOut])

end Cycle

/-! Calls. -/

section Mount

variable {dev : ℕ → Reply} {usb2 : Bool}

theorem clearErrors_mem (lun : UInt8) (s : Usb) : (clearErrors dev usb2 lun s).2.mem = s.mem := by
  unfold clearErrors
  simp only
  split <;> rfl

theorem inquiry_mem (lun : UInt8) (s : Usb) : (inquiry dev usb2 lun s).2.mem = s.mem := by
  unfold inquiry
  simp only
  split <;> rfl

theorem readCapacity_mem (stack : Bytes) (lun : UInt8) (s : Usb) :
    (readCapacity dev usb2 stack lun s).2.2.mem = s.mem := by
  unfold readCapacity
  simp only
  split <;> rfl

theorem mountLun_mem (stack : Bytes) (lun : UInt8) (s : Usb) :
    (mountLun dev usb2 stack lun s).2.mem = s.mem := by
  unfold mountLun
  split
  · rfl
  · simp only [readCapacity_mem, inquiry_mem]
    split
    · rw [clearErrors_mem]
      exact clearErrors_mem lun s
    · exact clearErrors_mem lun s

theorem awake_mem (q : Request) (s : Usb) : (awake dev usb2 q s).mem = s.mem := by
  unfold awake
  split
  · exact mountLun_mem _ _ _
  · rfl

end Mount

def bytesOf (q : Request) (s : Usb) : ℕ := q.count.toNat*(s.sectorSize q.lun).toNat

/-- A result that is not negative tells that the bytes which crossed the bus in
the last cycle are those of the buffer, in order, and that the status wrapper
had the tag and the status 0. -/
def Reported (write : Bool) (q : Request) (s : Usb) (ret : ℤ) (s' : Usb) : Prop :=
  0 ≤ ret → ∃ t r, s'.talk = some t ∧ t.csw = some r ∧
    (t.chunks.map Chunk.data).flatten =
      listOf (if write then s.mem else s'.mem) q.buffer (bytesOf q s') ∧
    cswTag r = s'.tag ∧ cswStatus r = 0

/-- From message `n` on, what the device has answered to have moved is moved, and
no status wrapper that passes the tests has a status other than 0. -/
structure Truthful (dev : ℕ → Reply) (n : ℕ) : Prop where
  moved : ∀ m, n ≤ m → (dev m).moved (dev m).retval.toNat = (dev m).retval.toNat
  status : ∀ m, n ≤ m → cswAccepted (cswTag (dev m)) (dev m) → cswStatus (dev m) = 0

/-- The device is truthful once the drive is awake, and the length of the call
fits into a word. -/
def Reliable (dev : ℕ → Reply) (usb2 : Bool) (q : Request) (s : Usb) : Prop :=
  let w := awake dev usb2 q { s with talk := none }
  Truthful dev w.next ∧ bytesOf q w < 0x100000000

/-- The conversation of a cycle that passes the tests: its status is 0, the
answer to each data message is that of the message itself, and the length fits
into a word. -/
def Honest (q : Request) (s' : Usb) : Prop :=
  ∀ t r, Ended s' t r → cswStatus r = 0 ∧ (∀ c ∈ t.chunks, c.reply.moved c.len = c.len) ∧
    bytesOf q s' < 0x100000000

theorem eq_of_sum_le {l : List Chunk} {f g : Chunk → ℕ} (h : ∀ c ∈ l, f c ≤ g c)
    (hs : (l.map g).sum ≤ (l.map f).sum) : ∀ c ∈ l, f c = g c := by
  induction l with
  | nil => exact nofun
  | cons c l ih =>
    have hl : ∀ x ∈ l, f x ≤ g x := fun x hx => h x (mem_cons_of_mem c hx)
    have hle := sum_le_sum hl
    have hc := h c mem_cons_self
    rw [map_cons, map_cons, sum_cons, sum_cons] at hs
    intro x hx
    rcases mem_cons.mp hx with rfl | hx
    · omega
    · exact ih hl (by omega) x hx

section Transfer

variable {dev : ℕ → Reply} {usb2 write : Bool} {op : UInt8} {q : Request} {s : Usb}

theorem reported_iff {n : ℕ} {ret : ℤ} {s' : Usb}
    (h : CycleEnd dev n q.buffer (bytesOf q s'%0x100000000) ret s')
    (hm : (if write then s.mem else s'.mem) = s'.mem) :
    Reported write q s ret s' ↔ Honest q s' := by
  unfold Reported
  rw [hm]
  rcases h with ⟨hneg,hno⟩ | ⟨rfl,t,r,hend,-,hlen,hsum,hdata⟩
  · exact ⟨fun _ t r he => absurd he (hno t r),fun _ h0 => absurd h0 (Int.not_le.mpr hneg)⟩
  · constructor
    · intro hrep t' r' he
      obtain ⟨t₁,r₁,ht₁,hr₁,hflat,-,hstatus⟩ := hrep (Int.le_refl 0)
      obtain rfl := Option.mem_unique hend.1 ht₁
      obtain rfl := Option.mem_unique hend.1 he.1
      obtain rfl := Option.mem_unique hend.2.1 hr₁
      obtain rfl := Option.mem_unique hend.2.1 he.2.1
      have hmoved : (t.chunks.map (fun c => c.reply.moved c.len)).sum = bytesOf q s' := by
        have hl := congrArg length hflat
        rw [length_flatten, listOf_length, map_map] at hl
        rw [← hl]
        exact congrArg sum (map_congr_left (fun c hc => (hlen c hc).symm))
      have hle : ∀ c ∈ t.chunks, c.reply.moved c.len ≤ c.len := fun c _ => moved_le _ _
      have hsumle := sum_le_sum hle
      refine ⟨hstatus,eq_of_sum_le hle ?_,?_⟩
      · rw [hmoved, hsum]
        exact mod_le _ _
      · rw [hmoved, hsum] at hsumle
        exact Nat.lt_of_le_of_lt hsumle (mod_lt _ (by decide))
    · intro hhon _
      obtain ⟨hstatus,hmoved,hfit⟩ := hhon t r hend
      refine ⟨t,r,hend.1,hend.2.1,?_,hend.2.2.2.2.2,hstatus⟩
      rw [hdata hmoved, mod_eq_of_lt hfit]

theorem truthful_honest {n len : ℕ} {ret : ℤ} {s' : Usb} (h : CycleEnd dev n q.buffer len ret s')
    (ht : Truthful dev n) (hfit : bytesOf q s' < 0x100000000) : Honest q s' := by
  rcases h with ⟨-,hno⟩ | ⟨-,t,r,hend,hans,-⟩
  · exact fun t r he => absurd he (hno t r)
  · intro t' r' he
    obtain rfl := Option.mem_unique hend.1 he.1
    obtain rfl := Option.mem_unique hend.2.1 he.2.1
    refine ⟨?_,?_,hfit⟩
    · obtain ⟨m,hm,rfl⟩ := hans.status
      refine ht.status m hm ?_
      rw [he.2.2.2.2.2]
      exact he.2.2
    · intro c hc
      obtain ⟨m,hm,hr,hret⟩ := hans.data c hc
      have hmoved := ht.moved m hm
      rw [← hr, hret, Int.toNat_natCast] at hmoved
      exact hmoved

/-- What becomes of a call that is not refused at once: its cycle, in the state
in which the drive is awake. -/
theorem transfer_cycle (hno : ¬(q.lun ≥ s.maxLun ∨ s.sectorSize q.lun = 0)) :
    ∃ a, a = awake dev usb2 q { s with talk := none } ∧
      Still write a (transfer dev usb2 write op q s).2 ∧
      CycleEnd dev a.next q.buffer (bytesOf q (transfer dev usb2 write op q s).2%0x100000000)
        (transfer dev usb2 write op q s).1 (transfer dev usb2 write op q s).2 := by
  refine ⟨_,rfl,?_⟩
  have hcb : (command op q).length ≠ 0 ∧ (command op q).length ≤ 16 := by simp [command]
  rw [transfer]
  simp only
  rw [if_neg hno]
  generalize awake dev usb2 q { s with talk := none } = a
  obtain ⟨hs,hend⟩ := @cycle_spec dev usb2 write a q.lun q.buffer
    (q.count.setWidth 32*a.sectorSize q.lun) (command op q) hcb
  generalize cycle dev usb2 write q.lun q.buffer (q.count.setWidth 32*a.sectorSize q.lun)
    (command op q) a = c at hs hend
  rw [← hs.sectorSize] at hend
  have hret : ¬(0 < c.1 ∧ c.2.1.1 ≠ 0) := by
    rcases hend with ⟨hneg,-⟩ | ⟨hzero,-⟩
    · exact fun h => absurd h.1 (Int.lt_asymm hneg)
    · simp [hzero]
  rw [if_neg hret]
  refine ⟨hs,?_⟩
  have hlen : bytesOf q c.2.2%0x100000000 =
      (q.count.setWidth 32*c.2.2.sectorSize q.lun : BitVec 32).toNat := by
    simp [bytesOf, BitVec.toNat_mul]
  rw [hlen]
  exact hend

theorem transfer_refused (h : q.lun ≥ s.maxLun ∨ s.sectorSize q.lun = 0) :
    transfer dev usb2 write op q s = (ipcEinval,{ s with talk := none }) := by
  rw [transfer]
  exact if_pos h

theorem transfer_iff : Reported write q s (transfer dev usb2 write op q s).1
    (transfer dev usb2 write op q s).2 ↔ Honest q (transfer dev usb2 write op q s).2 := by
  by_cases hno : q.lun ≥ s.maxLun ∨ s.sectorSize q.lun = 0
  · have hneg : ipcEinval < 0 := by decide
    rw [transfer_refused hno]
    refine ⟨fun _ t r he => ?_,fun _ h => absurd h (Int.not_le.mpr hneg)⟩
    cases he.1
  · obtain ⟨a,rfl,hs,hend⟩ := @transfer_cycle dev usb2 write op q s hno
    refine reported_iff hend ?_
    split
    · rename_i hw
      rw [hs.mem hw]
      exact (@awake_mem dev usb2 q { s with talk := none }).symm
    · rfl

theorem reliable_honest (h : Reliable dev usb2 q s) :
    Honest q (transfer dev usb2 write op q s).2 := by
  by_cases hno : q.lun ≥ s.maxLun ∨ s.sectorSize q.lun = 0
  · rw [transfer_refused hno]
    intro t r he
    cases he.1
  · obtain ⟨a,rfl,hs,hend⟩ := @transfer_cycle dev usb2 write op q s hno
    refine truthful_honest hend h.1 ?_
    rw [bytesOf, hs.sectorSize]
    exact h.2

/-- A device that is truthful once the drive is awake has its calls reported,
and a call is reported exactly if the conversation of its last cycle is
honest. -/
theorem results_reported (dev : ℕ → Reply) (usb2 : Bool) (q : Request) (s : Usb) :
    (Reliable dev usb2 q s →
      Reported false q s (usbStorageRead dev usb2 q s).1 (usbStorageRead dev usb2 q s).2 ∧
      Reported true q s (usbStorageWrite dev usb2 q s).1 (usbStorageWrite dev usb2 q s).2) ∧
    (Reported false q s (usbStorageRead dev usb2 q s).1 (usbStorageRead dev usb2 q s).2 ↔
      Honest q (usbStorageRead dev usb2 q s).2) ∧
    (Reported true q s (usbStorageWrite dev usb2 q s).1 (usbStorageWrite dev usb2 q s).2 ↔
      Honest q (usbStorageWrite dev usb2 q s).2) :=
  ⟨fun h => ⟨transfer_iff.mpr (reliable_honest h),transfer_iff.mpr (reliable_honest h)⟩,
    transfer_iff,transfer_iff⟩

end Transfer

/-- A device that takes every message whole, with the status of its wrapper for
the tag `0BADC0DF`. -/
def sectorDevice (status : UInt8) (n : ℕ) : Reply :=
  let csw : List UInt8 := [0x55, 0x53, 0x42, 0x53, 0xdf, 0xc0, 0xad, 0x0b, 0, 0, 0, 0, status]
  match n with
  | 0 => ⟨.answered ⟨31,by decide⟩ true,0,fun _ => 0⟩
  | 1 => ⟨.answered ⟨512,by decide⟩ true,0,fun i => UInt8.ofNat i⟩
  | _ => ⟨.answered ⟨13,by decide⟩ true,0,fun i => csw.getD i 0⟩

def oneSector : Request := ⟨0,0,1,0x90000000,false,fun _ => 0⟩

def opened : Usb := ⟨0,0x0badc0de,false,1,fun _ => 512,fun _ => 0,fun _ => 0,none⟩

theorem sectorDevice_truthful : Truthful (sectorDevice 0) 0 := by
  constructor
  · intro m _
    match m with
    | 0 => rfl
    | 1 => rfl
    | m+2 => rfl
  · intro m _ haccepted
    rcases m with _ | _ | m
    · rfl
    · exact absurd ⟨by decide,by decide⟩ haccepted.1
    · rfl

/-- The sector is read, and its bytes are in the memory. -/
theorem results_reported_sector : Reliable (sectorDevice 0) true oneSector opened ∧
    (usbStorageRead (sectorDevice 0) true oneSector opened).1 = 0 ∧
    Reported false oneSector opened (usbStorageRead (sectorDevice 0) true oneSector opened).1
      (usbStorageRead (sectorDevice 0) true oneSector opened).2 := by
  have hrel : Reliable (sectorDevice 0) true oneSector opened := ⟨sectorDevice_truthful,by decide⟩
  exact ⟨hrel,by decide +kernel,((results_reported _ _ _ _).1 hrel).1⟩

theorem failed_read_unreported :
    (usbStorageRead (sectorDevice 1) true oneSector opened).1 = 0 ∧
    ¬Reported false oneSector opened (usbStorageRead (sectorDevice 1) true oneSector opened).1
      (usbStorageRead (sectorDevice 1) true oneSector opened).2 := by
  have hret : (usbStorageRead (sectorDevice 1) true oneSector opened).1 = 0 := by decide +kernel
  have hstatus : (((usbStorageRead (sectorDevice 1) true oneSector opened).2.talk.bind
      Talk.csw).map cswStatus) = some 1 := by decide +kernel
  refine ⟨hret,?_⟩
  intro h
  obtain ⟨t,r,ht,hr,-,-,h0⟩ := h (by rw [hret])
  rw [ht, Option.bind_some, hr, Option.map_some, h0] at hstatus
  exact absurd hstatus (by decide)

end Libogc.UsbStorageResult
