import Libogc.Library.ByteLanes
import Libogc.Library.RangeTiling
import Mathlib.Tactic.SplitIfs

/-!
# Transfers on the EXI bus

One channel with the memory and the device on its two sides. A transfer is
started by its control register; the hardware carries it out, an immediate one
through the lanes of the data register from the most significant one on, and
the completion stores what an immediate read has brought. Addresses are not
translated and caches are left out. The transfers are recorded.
-/

set_option autoImplicit false

namespace Libogc.ExiTransfer
open ByteStore ByteLanes RangeTiling List Nat

inductive Mode where
  | read
  | write
  | readWrite
  deriving DecidableEq, Repr

structure Xfer where
  dma : Bool
  start : ℕ
  len : ℕ
  deriving DecidableEq, Repr

/-- `incoming` is what the device sends, of which `taken` bytes have been read,
and `seen` what it has received. `immBuff` is zero for NULL. -/
structure Channel where
  select : Bool
  dma : Bool
  imm : Bool
  immBuff : ℕ
  immLen : ℕ
  data : BitVec 32
  control : Option (Xfer × Mode)
  mem : Bytes
  incoming : Bytes
  taken : ℕ
  seen : List UInt8
  xfers : List Xfer

/-! The hardware. -/

def moveImm (n : ℕ) (mode : Mode) (s : Channel) : Channel :=
  let s := if mode = .read then s else { s with seen := s.seen ++ lanes s.data n }
  if mode = .write then s
  else { s with data := pack s.incoming s.taken n, taken := s.taken+n }

def moveDma (p n : ℕ) (mode : Mode) (s : Channel) : Channel :=
  if mode = .write then { s with seen := s.seen ++ bytesFrom s.mem p n }
  else { s with mem := blit s.incoming s.taken p n s.mem, taken := s.taken+n }

def finish (s : Channel) : Channel :=
  match s.control with
  | none => s
  | some (x, mode) =>
    let s := if x.dma then moveDma x.start x.len mode s else moveImm x.len mode s
    { s with control := none, xfers := s.xfers ++ [x] }

/-! The driver. -/

def exiCompletetransfer (s : Channel) : Channel :=
  if !(s.dma || s.imm) then s
  else
    let s := if s.imm && decide (s.immBuff ≠ 0 ∧ 0 < s.immLen)
      then { s with mem := unpack s.data s.immBuff s.immLen s.mem } else s
    { s with dma := false, imm := false }

def exiImm (p n : ℕ) (mode : Mode) (s : Channel) : Bool × Channel :=
  if s.dma || s.imm || !s.select then (false, s)
  else (true, { s with
    imm := true, immBuff := p, immLen := if mode = .write then 0 else n,
    data := if mode = .read then 0xffffffff else pack s.mem p n,
    control := some (⟨false,p,(n-1)%4+1⟩, mode) })

def exiSync (s : Channel) : Bool × Channel :=
  if s.select then (true, exiCompletetransfer (finish s)) else (false, s)

def immExLoop : ℕ → ℕ → ℕ → Mode → Bool → Channel → Bool × Channel
  | 0, _, _, _, ret, s => (ret, s)
  | k+1, p, n, mode, ret, s =>
    if n = 0 then (ret, s)
    else
      let tc := if 4 < n then 4 else n
      let r := exiImm p tc mode s
      if !r.1 then (false, r.2)
      else
        let q := exiSync r.2
        if !q.1 then (false, q.2) else immExLoop k (p+tc) (n-tc) mode true q.2

def exiImmEx (p n : ℕ) (mode : Mode) (s : Channel) : Bool × Channel := immExLoop n p n mode false s

def exiDma (p n : ℕ) (mode : Mode) (s : Channel) : Bool × Channel :=
  if s.dma || s.imm || !s.select then (false, s)
  else (true, { s with
    immBuff := 0, immLen := 0, dma := true, control := some (⟨true,p-p%32,n⟩, mode) })

/-- The DMA part; a thread blocks until the interrupt handler has completed the
transfer, an exception waits for it. -/
def transferDma (excpt : Bool) (p n : ℕ) (mode : Mode) (s : Channel) : Bool × Channel :=
  let r := exiDma p n mode s
  if !r.1 then r
  else if excpt then (true, (exiSync r.2).2)
  else (true, exiCompletetransfer (finish r.2))

def transferBody (excpt : Bool) (p n : ℕ) (mode : Mode) (s : Channel) : Bool × Channel :=
  let tail := n%32
  let r := transferDma excpt p (n-tail) mode s
  if r.1 && decide (tail ≠ 0) then exiImmEx (p+(n-tail)) tail mode r.2 else r

def exiTransfer (excpt : Bool) (p n : ℕ) (mode : Mode) (s : Channel) : Bool × Channel :=
  if mode = .readWrite then (false, s)
  else
    let misalign := p%32
    if n < (if misalign ≠ 0 then 0x40 else 0x20) then exiImmEx p n mode s
    else if misalign ≠ 0 then
      let head := 0x20-misalign
      let r := exiImmEx p head mode s
      if !r.1 then (false, r.2) else transferBody excpt (p+head) (n-head) mode r.2
    else transferBody excpt p n mode s

/-! What is moved. -/

def Ready (s : Channel) : Prop :=
  s.select = true ∧ s.dma = false ∧ s.imm = false ∧ s.control = none

instance (s : Channel) : Decidable (Ready s) := inferInstanceAs (Decidable (_ ∧ _))

/-- The transfers `xs` have moved the bytes from `p` to `p+n`, in their order
and nothing else: the device has seen those of the memory, or the memory holds
the next ones of the device, all but the first `k`. -/
structure Moved (mode : Mode) (p n k : ℕ) (xs : List Xfer) (s s' : Channel) : Prop where
  ready : Ready s'
  xfers : s'.xfers = s.xfers ++ xs
  tiles : Tiles Xfer.start Xfer.len p xs (p+n)
  nonempty : ∀ x ∈ xs, 0 < x.len
  dma : ∀ x ∈ xs, x.dma = true → 32 ∣ x.start ∧ 32 ∣ x.len
  incoming : s'.incoming = s.incoming
  sent : mode = .write → s'.seen = s.seen ++ bytesFrom s.mem p n ∧ s'.mem = s.mem ∧
    s'.taken = s.taken
  stored : mode = .read → s'.mem = blit s.incoming (s.taken+k) (p+k) (n-k) s.mem ∧
    s'.taken = s.taken+n ∧ s'.seen = s.seen

section Moves

variable {mode : Mode} {p m n k : ℕ} {xs ys : List Xfer} {s s' s'' : Channel}

theorem moved_nil (h : Ready s) (p k : ℕ) : Moved mode p 0 k [] s s where
  ready := h
  xfers := (append_nil _).symm
  tiles := rfl
  nonempty := nofun
  dma := nofun
  incoming := rfl
  sent _ := ⟨(append_nil _).symm,rfl,rfl⟩
  stored _ := by
    refine ⟨?_,rfl,rfl⟩
    funext i
    exact (blit_out (by omega)).symm

theorem Moved.append (h : Moved mode p m k xs s s') (hk : k ≤ m)
    (h' : Moved mode (p+m) n 0 ys s' s'') : Moved mode p (m+n) k (xs ++ ys) s s'' where
  ready := h'.ready
  xfers := by rw [h'.xfers, h.xfers, append_assoc]
  tiles := by
    rw [← Nat.add_assoc]
    exact tiles_append.mpr ⟨p+m,h.tiles,h'.tiles⟩
  nonempty x hx := (mem_append.mp hx).elim (h.nonempty x) (h'.nonempty x)
  dma x hx := (mem_append.mp hx).elim (h.dma x) (h'.dma x)
  incoming := h'.incoming.trans h.incoming
  sent hm := by
    obtain ⟨hseen,hmem,htaken⟩ := h.sent hm
    obtain ⟨hseen',hmem',htaken'⟩ := h'.sent hm
    refine ⟨?_,hmem'.trans hmem,htaken'.trans htaken⟩
    rw [hseen', hseen, hmem, bytesFrom_append, append_assoc]
  stored hm := by
    obtain ⟨hmem,htaken,hseen⟩ := h.stored hm
    obtain ⟨hmem',htaken',hseen'⟩ := h'.stored hm
    refine ⟨?_,?_,hseen'.trans hseen⟩
    · have hjoin := @blit_append s.mem s.incoming (s.taken+k) (p+k) (m-k) n
      rw [show s.taken+k+(m-k) = s.taken+m by omega, show p+k+(m-k) = p+m by omega] at hjoin
      rw [hmem', hmem, h.incoming, htaken, Nat.add_zero, Nat.add_zero, Nat.sub_zero, hjoin,
        show m-k+n = m+n-k by omega]
    · rw [htaken', htaken, Nat.add_assoc]

def immSync (p n : ℕ) (mode : Mode) (s : Channel) : Bool × Channel :=
  let r := exiImm p n mode s
  if !r.1 then (false, r.2) else exiSync r.2

section

variable (h : Ready s) (hn : 1 ≤ n ∧ n ≤ 4)
include h hn

theorem imm_sent :
    ∃ s', immSync p n .write s = (true,s') ∧ Moved .write p n k [⟨false,p,n⟩] s s' := by
  obtain ⟨hsel,hdma,himm,hctl⟩ := h
  have hlen : (n-1)%4+1 = n := by omega
  refine ⟨{ s with
      imm := false, immBuff := p, immLen := 0, data := pack s.mem p n, dma := false,
      control := none, seen := s.seen ++ lanes (pack s.mem p n) n,
      xfers := s.xfers ++ [⟨false,p,n⟩] },?_,?_⟩
  · simp [immSync, exiImm, exiSync, finish, moveImm, exiCompletetransfer, hsel, hdma, himm, hlen]
  · refine ⟨⟨hsel,rfl,rfl,rfl⟩,rfl,⟨rfl,rfl⟩,forall_mem_singleton.mpr hn.1,by simp,rfl,fun _ =>
      ⟨?_,rfl,rfl⟩,nofun⟩
    rw [lanes_pack hn.2]

theorem imm_stored (hp : p ≠ 0) :
    ∃ s', immSync p n .read s = (true,s') ∧ Moved .read p n 0 [⟨false,p,n⟩] s s' := by
  obtain ⟨hsel,hdma,himm,hctl⟩ := h
  have hlen : (n-1)%4+1 = n := by omega
  refine ⟨{ s with
      imm := false, immBuff := p, immLen := n, data := pack s.incoming s.taken n,
      dma := false, control := none, taken := s.taken+n,
      mem := unpack (pack s.incoming s.taken n) p n s.mem, xfers :=
        s.xfers ++ [⟨false,p,n⟩] },?_,?_⟩
  · simp [immSync, exiImm, exiSync, finish, moveImm, exiCompletetransfer, hsel, hdma, himm,
      hlen, hp,
      show 0 < n by omega]
  · refine ⟨⟨hsel,rfl,rfl,rfl⟩,rfl,⟨rfl,rfl⟩,forall_mem_singleton.mpr hn.1,by simp,rfl,nofun,fun
      _ => ⟨?_,rfl,rfl⟩⟩
    exact unpack_pack hn.2

theorem imm_null :
    ∃ s', immSync 0 n .read s = (true,s') ∧ Moved .read 0 n n [⟨false,0,n⟩] s s' := by
  obtain ⟨hsel,hdma,himm,hctl⟩ := h
  have hlen : (n-1)%4+1 = n := by omega
  refine ⟨{ s with
      imm := false, immBuff := 0, immLen := n, data := pack s.incoming s.taken n,
      dma := false, control := none, taken := s.taken+n, xfers := s.xfers ++ [⟨false,0,n⟩] },?_,?_⟩
  · simp [immSync, exiImm, exiSync, finish, moveImm, exiCompletetransfer, hsel, hdma, himm, hlen]
  · refine ⟨⟨hsel,rfl,rfl,rfl⟩,rfl,⟨rfl,rfl⟩,forall_mem_singleton.mpr hn.1,by simp,rfl,nofun,
      fun _ => ⟨?_,rfl,rfl⟩⟩
    funext i
    exact (blit_out (by omega)).symm

end

theorem imm_moved (h : Ready s) (hm : mode ≠ .readWrite) (hn : 1 ≤ n ∧ n ≤ 4) :
    ∃ s', immSync p n mode s = (true,s') ∧
      Moved mode p n (if p = 0 then n else 0) [⟨false,p,n⟩] s s' := by
  cases mode with
  | read =>
    by_cases hp : p = 0
    · subst hp
      exact imm_null h hn
    · rw [if_neg hp]
      exact imm_stored h hn hp
  | write => exact imm_sent h hn
  | readWrite => exact absurd rfl hm

theorem immExLoop_succ (k : ℕ) (ret : Bool) (hn : n ≠ 0)
    (h : immSync p (if 4 < n then 4 else n) mode s = (true,s')) : immExLoop (k+1) p n mode ret s =
      immExLoop k (p+if 4 < n then 4 else n) (n-if 4 < n then 4 else n) mode true s' := by
  unfold immSync at h
  rw [immExLoop, if_neg hn]
  cases hr : (exiImm p (if 4 < n then 4 else n) mode s).1 with
  | false => simp [hr] at h
  | true =>
    simp only [hr, Bool.not_true, Bool.false_eq_true, if_false] at h ⊢
    rw [h]
    rfl

def dropped (p n : ℕ) : ℕ := if p = 0 then (if 4 < n then 4 else n) else 0

/-- By induction on the turns: each moves up to four bytes. -/
theorem immExLoop_moved (hm : mode ≠ .readWrite) (k : ℕ) : ∀ {p n : ℕ} {s : Channel} (ret : Bool),
    Ready s → n ≤ k → ∃ xs s', immExLoop k p n mode ret s = (ret || decide (n ≠ 0),s') ∧
      Moved mode p n (dropped p n) xs s s' := by
  induction k with
  | zero =>
    intro p n s ret h hk
    obtain rfl : n = 0 := le_zero.mp hk
    exact ⟨[],s,by simp [immExLoop],moved_nil h p _⟩
  | succ k ih =>
    intro p n s ret h hk
    by_cases hn : n = 0
    · subst hn
      exact ⟨[],s,by simp [immExLoop],moved_nil h p _⟩
    · have htc : 1 ≤ (if 4 < n then 4 else n) ∧ (if 4 < n then 4 else n) ≤ 4 ∧
          (if 4 < n then 4 else n) ≤ n := by
        split <;> omega
      obtain ⟨u,hu,hmoved⟩ := @imm_moved mode p _ s h hm ⟨htc.1,htc.2.1⟩
      rw [immExLoop_succ k ret hn hu, dropped]
      generalize (if 4 < n then 4 else n) = tc at htc hmoved
      obtain ⟨xs,s',hs',hrest⟩ := @ih (p+tc) (n-tc) u true hmoved.ready (by omega)
      rw [dropped, if_neg (by omega)] at hrest
      have hall := hmoved.append (by split <;> omega) hrest
      rw [Nat.add_sub_cancel' htc.2.2] at hall
      exact ⟨_,s',by simpa [hn] using hs',hall⟩

section

variable (h : Ready s) (hm : mode ≠ .readWrite)
include h hm

theorem immEx_moved (hn : n ≠ 0) :
    ∃ xs s', exiImmEx p n mode s = (true,s') ∧ Moved mode p n (dropped p n) xs s s' := by
  obtain ⟨xs,s',hs',hmoved⟩ := @immExLoop_moved mode hm n p n s false h (Nat.le_refl n)
  exact ⟨xs,s',by simpa [exiImmEx, hn] using hs',hmoved⟩

theorem dma_moved (excpt : Bool) (hp : 32 ∣ p) (hn : 32 ∣ n)
    (h0 : n ≠ 0) : ∃ s', transferDma excpt p n mode s = (true,s') ∧
      Moved mode p n 0 [⟨true,p,n⟩] s s' := by
  obtain ⟨hsel,hdma,himm,hctl⟩ := h
  have hstart : p-p%32 = p := by omega
  cases mode with
  | readWrite => exact absurd rfl hm
  | read =>
    refine ⟨{ s with
        immBuff := 0, immLen := 0, dma := false, imm := false, control := none,
        mem := blit s.incoming s.taken p n s.mem, taken := s.taken+n,
        xfers := s.xfers ++ [⟨true,p,n⟩] },?_,?_⟩
    · cases excpt <;> simp [transferDma, exiDma, exiSync, finish, moveDma,
        exiCompletetransfer, hsel,
        hdma, himm, hstart]
    · exact ⟨⟨hsel,rfl,rfl,rfl⟩,rfl,⟨rfl,rfl⟩,by simpa using Nat.pos_of_ne_zero h0,
        by simpa using ⟨hp,hn⟩,rfl,nofun,fun _ => ⟨rfl,rfl,rfl⟩⟩
  | write =>
    refine ⟨{ s with
        immBuff := 0, immLen := 0, dma := false, imm := false, control := none,
        seen := s.seen ++ bytesFrom s.mem p n, xfers := s.xfers ++ [⟨true,p,n⟩] },?_,?_⟩
    · cases excpt <;> simp [transferDma, exiDma, exiSync, finish, moveDma,
        exiCompletetransfer, hsel,
        hdma, himm, hstart]
    · exact ⟨⟨hsel,rfl,rfl,rfl⟩,rfl,⟨rfl,rfl⟩,by simpa using Nat.pos_of_ne_zero h0,
        by simpa using ⟨hp,hn⟩,rfl,fun _ => ⟨rfl,rfl,rfl⟩,nofun⟩

theorem body_moved (excpt : Bool) (hp : 32 ∣ p)
    (hn : 32 ≤ n) : ∃ xs s', transferBody excpt p n mode s = (true,s') ∧
      Moved mode p n 0 xs s s' := by
  obtain ⟨u,hu,hmoved⟩ := dma_moved h hm excpt hp (show 32 ∣ n-n%32 by omega) (by omega)
  rw [transferBody, hu]
  by_cases htail : n%32 = 0
  · rw [htail] at hmoved
    exact ⟨_,u,by simp [htail],hmoved⟩
  · obtain ⟨xs,s',hs',hrest⟩ := @immEx_moved mode (p+(n-n%32)) (n%32) u hmoved.ready hm htail
    rw [dropped, if_neg (by omega)] at hrest
    have hall := hmoved.append (zero_le _) hrest
    rw [Nat.sub_add_cancel (mod_le n 32)] at hall
    exact ⟨_,s',by simpa [htail] using hs',hall⟩

end

end Moves

/-- What a read leaves out: the first word of one through NULL without DMA. -/
def skipped (p n : ℕ) : ℕ := if p = 0 ∧ n < 32 then min n 4 else 0

theorem transfer_moves (excpt : Bool) (p : ℕ) {n : ℕ} {mode : Mode} {s : Channel} (h : Ready s)
    (hn : 0 < n) (hm : mode ≠ .readWrite) :
    ∃ xs s', exiTransfer excpt p n mode s = (true,s') ∧ Moved mode p n (skipped p n) xs s s' := by
  rw [exiTransfer, if_neg hm]
  by_cases hal : p%32 = 0
  · simp only [hal, ne_eq, not_true_eq_false, if_false]
    by_cases hshort : n < 0x20
    · have hskip : skipped p n = dropped p n := by
        unfold skipped dropped
        split_ifs <;> omega
      rw [if_pos hshort, hskip]
      exact immEx_moved h hm (by omega)
    · rw [if_neg hshort, skipped, if_neg (by omega)]
      exact body_moved h hm excpt (dvd_of_mod_eq_zero hal) (by omega)
  · have hskip : skipped p n = 0 := if_neg (by omega)
    have hdrop : ∀ m, dropped p m = 0 := fun m => if_neg (by omega)
    simp only [hal, ne_eq, not_false_eq_true, if_true]
    rw [hskip]
    by_cases hshort : n < 0x40
    · rw [if_pos hshort, ← hdrop n]
      exact immEx_moved h hm (by omega)
    · rw [if_neg hshort]
      obtain ⟨xs,u,hu,hhead⟩ := @immEx_moved mode p (0x20-p%32) s h hm (by omega)
      obtain ⟨ys,s',hs',hbody⟩ := @body_moved mode (p+(0x20-p%32)) (n-(0x20-p%32)) u hhead.ready hm
        excpt (by omega) (by omega)
      rw [hdrop] at hhead
      have hall := hhead.append (zero_le _) hbody
      rw [Nat.add_sub_cancel' (show 0x20-p%32 ≤ n by omega)] at hall
      exact ⟨xs ++ ys,s',by simpa [hu] using hs',hall⟩

/-- A selected channel, a device that sends `1, 2, 3, …` and a memory in which
each byte is its address. -/
def selected : Channel :=
  ⟨true,false,false,0,0,0,none,fun a => UInt8.ofNat a,fun i => UInt8.ofNat (i+1),0,[],[]⟩

/-- A write of 100 bytes from address 1001: 23 bytes up to the boundary, 64 by
DMA and 13 more. -/
theorem transfer_moves_unaligned : ∃ xs s', exiTransfer false 1001 100 .write selected = (true,s') ∧
    Moved .write 1001 100 (skipped 1001 100) xs selected s' :=
  transfer_moves false 1001 (by decide) (by decide) (by decide)

/-- A byte that is read into NULL is not stored. -/
theorem null_read_dropped : Ready selected ∧
    ¬ ∃ xs s', exiTransfer false 0 1 .read selected = (true,s') ∧
      Moved .read 0 1 0 xs selected s' := by
  refine ⟨by decide,?_⟩
  rintro ⟨xs,s',hs',hm⟩
  have hmem : (exiTransfer false 0 1 .read selected).2.mem 0 = 0 := by decide +kernel
  have hread : s'.mem 0 = 1 := congrFun (hm.stored rfl).1 0
  rw [hs'] at hmem
  exact absurd (hmem.symm.trans hread) (by decide)

end Libogc.ExiTransfer
