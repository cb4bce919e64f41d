import Libogc.Dvd.Commands

/-!
# What a transfer has moved

`txdsize` counts the bytes of a read that are in the buffer, and a read goes on
from there. The disk ID and the description of the drive are read from the
beginning again each time, so a part of them is counted twice.
-/

set_option autoImplicit false

namespace Libogc.DvdTransfers
open Option Function GuardedReach DvdMachine DvdControl DvdCommands List

def Aimed (s s' : Dvd) : Prop :=
  ∀ d x, s'.di = some d → d.target = some x →
    (s.di = some d ∧ s'.callback = s.callback) ∨ s'.callback = some .busy

/-- Only `__dvd_statebusycb` counts bytes or reports success. -/
structure Keeps (b : ℕ) (s s' : Dvd) : Prop where
  size : (s'.blk b).txdsize = (s.blk b).txdsize
  state : (s.blk b).state ≠ 0 → (s'.blk b).state ≠ 0
  called : s'.called = s.called ∨ ∃ r, s'.called = s.called ++ [⟨b,r,(s'.blk b).state⟩]
  aimed : Aimed s s'

section Functions

variable {b : ℕ} {s t s' : Dvd} {r : Irq}

theorem near_aimed {W : Prop} (h : Near W b s t) (hdi : s'.di = t.di)
    (hcb : s'.callback = t.callback) : Aimed s s' := by
  obtain ⟨-,hdi',-,-,hcb'⟩ := h.drive
  exact fun _ _ hd _ => .inl ⟨hdi'.symm.trans (hdi.symm.trans hd),hcb.trans hcb'⟩

theorem Move.aimed {d B W : Prop} (h : Move d B W b s s') : Aimed s s' := by
  cases h with
  | stay _ near => exact near_aimed near rfl rfl
  | start t cb armed di near ready aim told =>
    intro x a hx ha
    rcases aim with rfl | hnone
    · exact .inr rfl
    · exact nomatch (hnone x hx).symm.trans ha
  | call t cb near direct | ends r t near told | drops hd t near => exact near_aimed near rfl rfl

theorem Move.keeps {d B : Prop} (h : Move d B False b s s') : Keeps b s s' := by
  have ha := Move.aimed h
  cases h with
  | stay _ near | start t cb armed di near ready aim told | call t cb near direct =>
    obtain ⟨hsize,hstate⟩ := near.kept.resolve_left id
    exact ⟨hsize,hstate,.inl near.frame.called,ha⟩
  | ends r t near told =>
    obtain ⟨hsize,hstate⟩ := near.kept.resolve_left id
    exact ⟨hsize,hstate,.inr ⟨r,congrArg (· ++ [_]) near.frame.called⟩,ha⟩
  | drops hd t near =>
    obtain ⟨hsize,hstate⟩ := near.kept.resolve_left id
    exact ⟨hsize,hstate,.inr ⟨-4,congrArg (· ++ [_]) near.frame.called⟩,ha⟩

theorem busyAccounted_keeps (hcmd : s.currcmd = (s.blk b).cmd) (htr : transfers s.currcmd = true)
    (hne : (s.blk b).txdsize ≠ (s.blk b).len) : Keeps b s (busyAccounted b r s) :=
  Move.keeps (d := True) (B := True)
    (busyAccounted_move hcmd (fun h => absurd (h htr) hne) (fun _ _ _ _ _ => trivial))

def ends (cmd : ℕ) (r : Irq) : Bool := (r.tc && !r.brk) || (r.failed && cmd != 14)

theorem busyAccounted_unended (h : ends s.currcmd r = false) : Keeps b s (busyAccounted b r s) := by
  refine Move.keeps (d := True) (B := True) ?_
  rw [ends, Bool.or_eq_false_iff] at h
  unfold busyAccounted
  split
  · exact finish_move (-3) (.inr (by decide)) (.inr (.inr (.inr rfl)))
  · rename_i hbrk
    have htc : r.tc = false := by simpa [hbrk] using h.1
    rw [if_neg (by simp [htc])]
    split
    · exact failState_move
    · rename_i hinquiry
      have hfailed : r.failed = false := by
        cases hf : r.failed with
        | false => rfl
        | true =>
          simp [hf] at h hinquiry
          exact absurd h.2 hinquiry
      rw [if_neg (by simp [hfailed])]
      exact gettingError_move

theorem busyAccounted_ends (htr : transfers s.currcmd = true)
    (heq : (s.blk b).txdsize = (s.blk b).len) (h : ends s.currcmd r = true) :
    ∃ t, t.blk b = s.blk b ∧ t.called = s.called ∧ t.mem = s.mem ∧
      busyAccounted b r s = finish b (s32 (s.blk b).txdsize) (setState b 0 t) := by
  have hbrk : r.brk = false := by
    simp only [ends, Bool.or_eq_true, Bool.and_eq_true, Bool.not_eq_true', Irq.failed] at h
    rcases h with h | h
    · exact h.2
    · exact h.1.2
  unfold busyAccounted
  rw [if_neg (by simp [hbrk])]
  by_cases htc : r.tc = true
  · rw [if_pos htc]
    unfold busyDone
    rw [if_pos htr, if_neg (by simpa using heq)]
    exact ⟨{ s with internalretries := 0 },rfl,rfl,rfl,rfl⟩
  · simp only [ends, htc, Bool.false_and, Bool.false_or, Bool.and_eq_true, bne_iff_ne] at h
    rw [if_neg htc, if_neg (by simp [h.2]), if_pos (by simp [h.1, htr, heq])]
    exact ⟨s,rfl,rfl,rfl,rfl⟩

end Functions

/-! The bytes that a block asks for. -/

def reads (cmd : ℕ) : Bool := cmd == 1 || cmd == 4

def askedByte (m : Media) (k : Block) (i : ℕ) : BitVec 8 :=
  if reads k.cmd then m.disk (k.offset+i) else if k.cmd = 5 then m.id i else m.info i

structure Holds (m : Media) (k : Block) (mem : ℕ → BitVec 8) : Prop where
  size : k.txdsize ≤ k.len
  bytes : ∀ i < k.txdsize, mem (k.buf+i) = askedByte m k i

/-- A transfer from a word of the disk that the drive can be told, or of the 32
bytes of a disk ID or a description. -/
def Sound (c : Cmd) : Prop :=
  c.len < 4294967296 ∧
    if reads c.cmd then
      c.offset % 4 = 0 ∧ c.offset < 17179869184 ∧ c.offset+c.len ≤ 17179869184
    else c.len = 32

/-- A transfer that is not over. One of no bytes has all of them from the
beginning. -/
structure Going (m : Media) (k : Block) (mem : ℕ → BitVec 8) : Prop where
  sound : Sound (asked k)
  size : k.txdsize ≤ k.len
  rest : k.txdsize = k.len → k.len = 0
  words : if reads k.cmd then k.txdsize % 4 = 0 else k.txdsize = 0
  state : k.state ≠ 0
  bytes : ∀ i < k.txdsize, mem (k.buf+i) = askedByte m k i

variable {k : ℕ} {mem : ℕ → BitVec 8}

section Accounting

variable {m : Media} {b n : ℕ} {k : Block} {s s' : Dvd} {r : Irq}

theorem sub32_of_le {x y : ℕ} (h : y ≤ x) (hx : x < 4294967296) : sub32 x y = x-y := by
  unfold sub32
  simp only [BitVec.toNat_sub, BitVec.toNat_ofNat]
  omega

theorem reads_iff : reads k.cmd = true ↔ k.cmd = 1 ∨ k.cmd = 4 := by
  simp [reads]

theorem pieceSize_le (h : Going m k mem) : pieceSize k ≤ k.len-k.txdsize := by
  obtain ⟨hlen,hcase⟩ := h.sound
  have hlen' : k.len < 4294967296 := hlen
  have hlt := h.size
  unfold pieceSize
  by_cases hr : k.cmd = 1 ∨ k.cmd = 4
  · rw [if_pos hr, sub32_of_le (by omega) hlen']
    split <;> omega
  · have hreads : reads k.cmd = false := by
      rw [Bool.eq_false_iff]
      exact fun hx => hr (reads_iff.mp hx)
    have hwords := h.words
    have hcase' : k.len = 32 := by simpa [asked, hreads] using hcase
    rw [hreads] at hwords
    rw [if_neg hr]
    simp only [Bool.false_eq_true, if_false] at hwords
    omega

theorem piece_word (h : Going m k mem) (hr : reads k.cmd = true) :
    4*(pieceOf k).word = k.offset+k.txdsize := by
  have hcase := h.sound.2
  have hwords := h.words
  have hle := h.size
  have hrest := h.rest
  rw [hr, if_pos rfl] at hwords
  have hcase' : k.offset % 4 = 0 ∧ k.offset < 17179869184 ∧ k.offset+k.len ≤ 17179869184 := by
    simpa [asked, hr] using hcase
  simp only [pieceOf, if_pos (reads_iff.mp hr), u32]
  omega

theorem piece_target (h : Going m k mem) : (pieceOf k).target = some (k.buf+k.txdsize) := by
  have hwords := h.words
  unfold pieceOf
  by_cases hr : k.cmd = 1 ∨ k.cmd = 4
  · rw [if_pos hr]
  · have hreads : ¬reads k.cmd = true := fun hx => hr (reads_iff.mp hx)
    rw [if_neg hreads] at hwords
    rw [if_neg hr, hwords]
    split <;> rfl

theorem piece_byte (h : Going m k mem) (i : ℕ) :
    m.byte (pieceOf k) i = askedByte m k (k.txdsize+i) := by
  by_cases hr : reads k.cmd = true
  · have hword := piece_word h hr
    simp only [askedByte, if_pos hr]
    rw [← Nat.add_assoc, ← hword]
    simp only [Media.byte, pieceOf, if_pos (reads_iff.mp hr)]
  · have hwords := h.words
    rw [if_neg hr] at hwords
    have hcmd : ¬(k.cmd = 1 ∨ k.cmd = 4) := fun hx => hr (reads_iff.mpr hx)
    simp only [askedByte, if_neg hr, hwords, Nat.zero_add, Media.byte, pieceOf, if_neg hcmd]
    by_cases h5 : k.cmd = 5
    · simp only [if_pos h5]
    · simp only [if_neg h5]

theorem moved_bytes (h : Going m k s.mem) (hp : Piece s k) (i : ℕ) (hi : i < k.txdsize+n) :
    (moveData m n s).mem (k.buf+i) = askedByte m k i := by
  simp only [moveData, hp.di, piece_target h]
  by_cases hlt : i < k.txdsize
  · rw [if_neg (by omega)]
    exact h.bytes i hlt
  · rw [if_pos (by omega), piece_byte h]
    congr 1
    omega

theorem moved_dmaLen (hp : Piece s k) : (moveData m n s).dmaLen = pieceSize k-n := by
  simp only [moveData, hp.di, hp.dmaLen]

end Accounting

/-- A block was called back. Success means that all its bytes are there, and
they are there only then unless there are none. -/
structure Reported (m : Media) (s : Dvd) (c : Call) : Prop where
  holds : Holds m (s.blk c.blk) s.mem
  success : c.state = 0 → (s.blk c.blk).txdsize = (s.blk c.blk).len
  whole : (s.blk c.blk).txdsize = (s.blk c.blk).len → (s.blk c.blk).len ≠ 0 → c.state = 0

inductive Counted (m : Media) (b : ℕ) (s s' : Dvd) : Prop
  | goes (called : s'.called = s.called) (going : Going m (s'.blk b) s'.mem)
  | ends (c : Call) (hc : c.blk = b) (called : s'.called = s.called ++ [c])
      (reported : Reported m s' c)

section Counting

variable {m : Media} {d : Prop} {b : ℕ} {k k' : Block} {mem : ℕ → BitVec 8} {s s' t : Dvd} {r : Irq}

theorem Outcome.kept (h : Outcome d b s s') : asked (s'.blk b) = asked (s.blk b) ∧
    s'.mem = s.mem ∧ ∀ c, c ≠ b → s'.blk c = s.blk c := by
  cases h with
  | goes frame runs pending => exact ⟨frame.asked,frame.mem,frame.others⟩
  | ends r t frame calm h | drops hd t frame calm h =>
    subst h
    exact ⟨frame.asked,frame.mem,frame.others⟩

theorem asked_fields (h : asked k' = asked k) :
    k'.cmd = k.cmd ∧ k'.offset = k.offset ∧ k'.len = k.len ∧ k'.buf = k.buf := by
  simpa only [asked, Cmd.mk.injEq] using h

theorem Going.congr (h : Going m k mem) (hask : asked k' = asked k)
    (hsize : k'.txdsize = k.txdsize) (hstate : k'.state ≠ 0) : Going m k' mem := by
  obtain ⟨hcmd,hoffset,hlen,hbuf⟩ := asked_fields hask
  refine ⟨hask ▸ h.sound,?_,?_,?_,hstate,?_⟩
  · rw [hsize, hlen]
    exact h.size
  · rw [hsize, hlen]
    exact h.rest
  · rw [hcmd, hsize]
    exact h.words
  · intro i hi
    rw [hsize] at hi
    rw [hbuf, h.bytes i hi]
    simp only [askedByte, hcmd, hoffset]

theorem Going.holds (h : Going m k mem) : Holds m k mem := ⟨h.size,h.bytes⟩

theorem Going.reported {c : Call} (h : Going m (s.blk c.blk) s.mem)
    (hc : c.state = (s.blk c.blk).state) : Reported m s c :=
  ⟨h.holds,fun h0 => absurd (hc.symm.trans h0) h.state,fun heq hne => absurd (h.rest heq) hne⟩

theorem Going.keeps (h : Going m (s.blk b) s.mem) (hk : Keeps b s s')
    (hask : asked (s'.blk b) = asked (s.blk b)) (hmem : s'.mem = s.mem) : Counted m b s s' := by
  have hgoing : Going m (s'.blk b) s'.mem := by
    rw [hmem]
    exact h.congr hask hk.size (hk.state h.state)
  rcases hk.called with hcalled | ⟨res,hcalled⟩
  · exact .goes hcalled hgoing
  · exact .ends _ rfl hcalled (Going.reported hgoing rfl)

theorem Counted.after (hcalled : t.called = s.called) (h : Counted m b t s') :
    Counted m b s s' := by
  cases h with
  | goes called going => exact .goes (called.trans hcalled) going
  | ends c hc called reported =>
    rw [hcalled] at called
    exact .ends c hc called reported

def counted (k : Block) (n : ℕ) : Block := { k with txdsize := k.txdsize+n }

theorem account_taken {n : ℕ} (h : Going m (s.blk b) s.mem) (hp : Piece s (s.blk b))
    (htr : transfers s.currcmd = true) (hn : n ≤ pieceSize (s.blk b)) :
    account b (taken m n s) = setBlk b (counted (s.blk b) n) (taken m n s) := by
  have hmoved := taken_moved (m := m) n s
  have hle := pieceSize_le h
  have hlen : (s.blk b).len < 4294967296 := h.sound.1
  have hlt := h.size
  have hdma : (taken m n s).dmaLen = pieceSize (s.blk b)-n := moved_dmaLen hp
  have hsize := hp.size
  unfold account
  simp only [hmoved.currcmd, htr, if_true, hmoved.blk]
  rw [sub32_of_le (by omega) (by omega), u32]
  congr 2
  omega

/-- The bytes that an interrupt may have moved: words of a read, or up to its
end; all of a disk ID or of a description, or nothing. -/
def Whole (k : Block) (n : ℕ) : Prop :=
  if reads k.cmd then n % 4 = 0 ∨ k.txdsize+n = k.len else n = 0 ∨ n = 32

instance (k : Block) (n : ℕ) : Decidable (Whole k n) :=
  inferInstanceAs
    (Decidable (if reads k.cmd then n % 4 = 0 ∨ k.txdsize+n = k.len else n = 0 ∨ n = 32))

theorem Going.moved {n : ℕ} (h : Going m (s.blk b) s.mem) (hp : Piece s (s.blk b))
    (hn : n ≤ pieceSize (s.blk b)) (hw : Whole (s.blk b) n)
    (hrest : (s.blk b).txdsize+n = (s.blk b).len → (s.blk b).len = 0) :
    Going m (counted (s.blk b) n) (taken m n s).mem := by
  have hle := pieceSize_le h
  have hlt := h.size
  have hwords := h.words
  have hcase := h.sound.2
  refine ⟨h.sound,?_,hrest,?_,h.state,fun i hi => moved_bytes h hp i hi⟩
  · change (s.blk b).txdsize+n ≤ (s.blk b).len
    omega
  · change if reads (s.blk b).cmd then ((s.blk b).txdsize+n) % 4 = 0 else (s.blk b).txdsize+n = 0
    unfold Whole at hw
    by_cases hr : reads (s.blk b).cmd = true
    · rw [if_pos hr] at hw hwords ⊢
      omega
    · have hlen : (s.blk b).len = 32 := by simpa [asked, hr] using hcase
      rw [if_neg hr] at hw hwords ⊢
      omega

theorem busy_counted (h : Going m (s.blk b) s.mem) (hp : Piece s (s.blk b))
    (hcmd : s.currcmd = (s.blk b).cmd) (htr : transfers s.currcmd = true)
      (hn : r.moved ≤ pieceSize (s.blk b))
    (hw : Whole (s.blk b) r.moved)
    (hend : (s.blk b).txdsize+r.moved = (s.blk b).len → (s.blk b).len ≠ 0 →
      ends s.currcmd r = true)
    (ho : Outcome d b (taken m r.moved s) (busyCb b r (taken m r.moved s))) :
    Counted m b s (busyCb b r (taken m r.moved s)) := by
  have hmoved := taken_moved (m := m) r.moved s
  have hself : (setBlk b (counted (s.blk b) r.moved) (taken m r.moved s)).blk b =
      counted (s.blk b) r.moved := setBlk_self _
  have hstop : stopsMotor (taken m r.moved s).currcmd = false := by
    rw [hmoved.currcmd]
    simp only [transfers, Bool.or_eq_true, beq_iff_eq] at htr
    rcases htr with ((hc | hc) | hc) | hc <;> rw [hc] <;> rfl
  have hbusy : busyCb b r (taken m r.moved s) =
      busyAccounted b r (setBlk b (counted (s.blk b) r.moved) (taken m r.moved s)) := by
    rw [← account_taken h hp htr hn]
    simp [busyCb, hstop]
  have htr' : transfers (setBlk b (counted (s.blk b) r.moved) (taken m r.moved s)).currcmd =
    true := by
    change transfers (taken m r.moved s).currcmd = true
    rw [hmoved.currcmd]
    exact htr
  have hcmd' : (setBlk b (counted (s.blk b) r.moved) (taken m r.moved s)).currcmd = s.currcmd :=
    hmoved.currcmd
  obtain ⟨hask,hmem,-⟩ := Outcome.kept ho
  rw [hbusy] at hask hmem ⊢
  by_cases hdone : (s.blk b).txdsize+r.moved = (s.blk b).len ∧ ends s.currcmd r = true
  · have heq : ((setBlk b (counted (s.blk b) r.moved) (taken m r.moved s)).blk b).txdsize =
        ((setBlk b (counted (s.blk b) r.moved) (taken m r.moved s)).blk b).len := by
      rw [hself]
      exact hdone.1
    have hends : ends (setBlk b (counted (s.blk b) r.moved) (taken m r.moved s)).currcmd r =
      true := by
      rw [hcmd']
      exact hdone.2
    obtain ⟨u,hblk,hcalled,humem,heqn⟩ := busyAccounted_ends htr' heq hends
    have hfinal : (busyAccounted b r (setBlk b (counted (s.blk b) r.moved)
        (taken m r.moved s))).blk b = { counted (s.blk b) r.moved with state := 0 } := by
      rw [heqn]
      change (setState b 0 u).blk b = _
      rw [setState, setBlk_self, hblk, hself]
    refine .ends ⟨b,s32 (counted (s.blk b) r.moved).txdsize,0⟩ rfl ?_ ⟨?_,?_,fun _ _ => rfl⟩
    · have hstate : ((setState b 0 u).blk b).state = 0 := by rw [setState, setBlk_self]
      have hlog : u.called = s.called := hcalled.trans hmoved.called
      rw [heqn, hself]
      change u.called ++ [⟨b,_,((setState b 0 u).blk b).state⟩] = _
      rw [hlog, hstate]
    · rw [hfinal, hmem]
      exact ⟨Nat.le_of_eq hdone.1,fun i hi => moved_bytes h hp i hi⟩
    · rw [hfinal]
      exact fun _ => hdone.1
  · have hrest : (s.blk b).txdsize+r.moved = (s.blk b).len → (s.blk b).len = 0 := by
      intro heq
      by_contra hne
      exact hdone ⟨heq,hend heq hne⟩
    have hgoing := h.moved hp hn hw hrest
    rw [← hself] at hgoing
    refine .after (t := setBlk b (counted (s.blk b) r.moved) (taken m r.moved s)) hmoved.called
      (Going.keeps hgoing ?_ ?_ hmem)
    · by_cases heq : (s.blk b).txdsize+r.moved = (s.blk b).len
      · refine busyAccounted_unended ?_
        rw [hcmd', ← Bool.not_eq_true]
        exact fun he => hdone ⟨heq,he⟩
      · refine busyAccounted_keeps ?_ htr' ?_
        · rw [hself]
          exact hmoved.currcmd.trans hcmd
        · rw [hself]
          exact heq
    · rw [hask, hmoved.blk, hself]
      rfl

end Counting

/-! Runs. -/

structure Inv (m : Media) (s : Dvd) : Prop where
  wf : Wf s
  once : Once s
  aim : ∀ d x, s.di = some d → d.target = some x → s.callback = some .busy
  waiting : ∀ b ∈ waiting s, transfers (s.blk b).cmd = true →
    Sound (asked (s.blk b)) ∧ (s.blk b).txdsize = 0
  going : ∀ b, s.executing = .block b → transfers (s.blk b).cmd = true → Going m (s.blk b) s.mem

/-- Transfers are issued as the drive can do them. An interrupt of a transfer
has moved whole words of a read, or all of a disk ID or a description or
nothing, and it is one of those that end the transfer when all is moved. -/
def Regular : Event → Dvd → Prop
  | .issue _ _ c, _ => transfers c.cmd = true → Sound c
  | .irq r, s => ∀ b, s.executing = .block b → s.callback = some .busy →
    transfers s.currcmd = true → Whole (s.blk b) r.moved ∧
      ((s.blk b).txdsize+r.moved = (s.blk b).len → (s.blk b).len ≠ 0 → ends s.currcmd r = true)
  | _, _ => True

/-- The functions of the library issue regular commands, if what is read are
words of the disk. -/
theorem calls_regular {len offset : ℕ} (hlen : len < 4294967296) (hword : offset % 4 = 0)
    (hend : offset < 17179869184 ∧ offset+len ≤ 17179869184) (buf n size p b : ℕ) (s : Dvd) :
    ∀ c ∈ [readDiskID buf, readAbsAsyncPrio buf len offset, readAbsAsyncForBS buf len offset,
      inquiryAsync buf, seekAbsAsyncPrio n, stopStreamAtEndAsync, spinUpDriveAsync,
      controlDriveAsync n, setGCMOffsetAsync n, audioBufferConfig n size],
      Regular (.issue p b c) s := by
  have hread : ∀ cmd, reads cmd = true → Sound ⟨cmd,offset,len,buf⟩ := by
    intro cmd hr
    refine ⟨hlen,?_⟩
    rw [if_pos hr]
    exact ⟨hword,hend⟩
  have hwhole : ∀ cmd, reads cmd = false → Sound ⟨cmd,0,32,buf⟩ := by
    intro cmd hr
    refine ⟨(by decide : 32 < 4294967296),?_⟩
    rw [if_neg (by simp [hr])]
  have hother : ∀ c : Cmd, transfers c.cmd = false → transfers c.cmd = true → Sound c :=
    fun c hf ht => absurd (hf.symm.trans ht) Bool.false_ne_true
  simp only [forall_mem_cons]
  exact ⟨fun _ => hwhole 5 rfl,fun _ => hread 1 rfl,fun _ => hread 4 rfl,fun _ => hwhole 14 rfl,
    hother _ rfl,hother _ rfl,hother _ rfl,hother _ rfl,hother _ rfl,hother _ rfl,nofun⟩

def Ok (e : Event) (s : Dvd) : Prop := Possible e s ∧ Regular e s

section Runs

variable {m : Media} {e : Event} {p b n : ℕ} {rest : List ℕ} {c : Cmd} {x : LowCb × Option Irq}
  {s s' : Dvd}

theorem moveData_di : (moveData m n s).di = none := by
  unfold moveData
  split
  · assumption
  · rfl

theorem moveData_mem (h : ∀ d, s.di = some d → d.target = none) : (moveData m n s).mem = s.mem := by
  unfold moveData
  split
  · rfl
  · rename_i d hd
    simp only [h d hd]

theorem Inv.unaimed (h : Inv m s) (hcb : s.callback ≠ some .busy) :
    ∀ d, s.di = some d → d.target = none := by
  intro d hd
  cases ht : d.target with
  | none => rfl
  | some x => exact absurd (h.aim d x hd ht) hcb

theorem Inv.piece (h : Inv m s) (hr : Runs b s) (hcb : s.callback = some .busy)
    (hlive : s.masked = false ∨ s.alarm = true) (htr : transfers s.currcmd = true) :
    Piece s (s.blk b) := by
  cases h.wf with
  | rest _ calm => exact absurd hlive (calm.dead hcb)
  | runs b' runs pending =>
    obtain rfl := Exec.block.inj (runs.executing.symm.trans hr.executing)
    exact (pending.callback _ hcb hlive).piece rfl htr

theorem Inv.moved_going (h : Inv m s) (hr : Runs b s) (htr : transfers s.currcmd = true)
    (hlive : s.masked = false ∨ s.alarm = true) : Going m (s.blk b) (moveData m n s).mem := by
  have hg := h.going b hr.executing (hr.currcmd ▸ htr)
  by_cases hcb : s.callback = some .busy
  · have hp := h.piece hr hcb hlive htr
    exact ⟨hg.sound,hg.size,hg.rest,hg.words,hg.state,fun i hi => moved_bytes hg hp i (by omega)⟩
  · rw [moveData_mem (h.unaimed hcb)]
    exact hg

theorem Inv.entered_going (h : Inv m s) (hok : Possible e s) (hr : Runs b s)
    (htr : transfers s.currcmd = true) : Going m (s.blk b) (entered m e s).mem := by
  cases e with
  | irq r => exact h.moved_going hr htr (.inl hok.2.2.1)
  | timeout n => exact h.moved_going hr htr (.inr hok.2.2.1)
  | _ => exact h.going b hr.executing (hr.currcmd ▸ htr)

theorem Inv.entered_aim (h : Inv m s) (d : Di) (x : ℕ) (hd : (entered m e s).di = some d)
    (hx : d.target = some x) : (entered m e s).callback = some .busy := by
  cases e with
  | irq r | timeout n => exact nomatch (moveData_di).symm.trans hd
  | _ => exact h.aim d x hd hx

theorem runCall_keeps (hr : Runs b s) (hf : Follows s x.1) (htr : transfers s.currcmd = true)
    (hx : x.1 = .busy → x.2 = none) (h : runCall x b s = some s') : Keeps b s s' := by
  obtain ⟨t,ht,hm⟩ := runCall_move (W := False) hr hf
    (fun r hr => by
      refine ⟨fun _ _ _ _ _ _ => trivial,fun _ _ => trivial,fun _ => .inl trivial,?_,?_⟩
      · exact fun hb => nomatch (hx hb).symm.trans hr
      · intro _ hcmd
        rw [hcmd] at htr
        exact Bool.false_ne_true htr)
    (fun _ _ => trivial) (fun _ _ => trivial)
  obtain rfl := mem_unique ht h
  exact Move.keeps hm

def Reports (m : Media) (s s' : Dvd) : Prop :=
  ∀ c : Call, s'.called = s.called ++ [c] → transfers (s'.blk c.blk).cmd = true → Reported m s' c

theorem reports_none (h : s'.called = s.called) : Reports m s s' := by
  intro c hc
  rw [h] at hc
  exact absurd hc log_ne

theorem Counted.reports (h : Counted m b s s') : Reports m s s' := by
  cases h with
  | goes called going => exact reports_none called
  | ends c hc called reported =>
    intro c' hc' _
    obtain rfl := singleton_inj.mp (append_cancel_left (called.symm.trans hc'))
    exact reported

theorem Counted.ran {d : Prop} (hr : Ran d b s s')
    (hc : transfers (s'.blk b).cmd = true → Counted m b s s') :
    (∀ k, s'.executing = .block k → transfers (s'.blk k).cmd = true → Going m (s'.blk k) s'.mem) ∧
      Reports m s s' := by
  constructor
  · intro k hk htr
    rcases hr.result with ⟨hx,hcalled⟩ | ⟨hx,-⟩
    · obtain rfl := Exec.block.inj (hx.symm.trans hk)
      cases hc htr with
      | goes called going => exact going
      | ends c hc called reported => exact absurd (hcalled.symm.trans called) log_ne
    · cases hx.symm.trans hk
  · intro c hlog htr
    rcases hr.result with ⟨-,hcalled⟩ | ⟨-,y,rfl,hcalled⟩
    · exact absurd (hcalled.symm.trans hlog) log_ne
    · obtain rfl := singleton_inj.mp (append_cancel_left (hcalled.symm.trans hlog))
      exact (hc htr).reports y hcalled htr

theorem Inv.call_counted (h : Inv m s) (he : inner e = true) (hok : Ok e s)
    (hx : callOf e s = some x) (hr : Runs b s) (hf : Follows s x.1)
    (htr : transfers s.currcmd = true) (hcall : runCall x b (entered m e s) = some s')
    (ho : Outcome (closing e s = true) b (entered m e s) s') : Counted m b s s' := by
  have hmoved := entered_moved (m := m) e s
  have hkeeps : (x.1 = .busy → x.2 = none) → Counted m b s s' := by
    intro hbusy
    obtain ⟨hask,hmem,-⟩ := Outcome.kept ho
    have hgoing : Going m ((entered m e s).blk b) (entered m e s).mem := by
      rw [hmoved.blk]
      exact h.entered_going hok.1 hr htr
    refine .after hmoved.called (Going.keeps hgoing (runCall_keeps (hmoved.runs hr)
      (hmoved.follows x.1 hf) ?_ hbusy hcall) hask hmem)
    rw [hmoved.currcmd]
    exact htr
  cases e with
  | irq r =>
    obtain ⟨cb,hcb,rfl⟩ := map_eq_some_iff.mp hx
    by_cases hbusy : cb = .busy
    · subst hbusy
      have hp := h.piece hr hcb (.inl hok.1.2.2.1) htr
      obtain ⟨hw,hend⟩ := hok.2 b hr.executing hcb htr
      have hn : r.moved ≤ pieceSize (s.blk b) := hp.dmaLen ▸ hok.1.2.2.2
      cases hcall
      exact busy_counted (h.going b hr.executing (hr.currcmd ▸ htr)) hp hr.currcmd htr hn hw hend ho
    · exact hkeeps (fun hcb => absurd hcb hbusy)
  | timeout n =>
    obtain ⟨cb,hcb,rfl⟩ := map_eq_some_iff.mp hx
    exact hkeeps (fun _ => rfl)
  | run =>
    obtain ⟨cb,hcb,rfl⟩ := map_eq_some_iff.mp hx
    refine hkeeps (fun hbusy => ?_)
    cases h.wf with
    | rest _ calm => exact nomatch calm.tail.symm.trans hcb
    | runs b' runs pending =>
      exact absurd (((pending.tail _ hcb).size hbusy).symm.trans htr) Bool.false_ne_true
  | _ => exact absurd he Bool.false_ne_true

theorem Once.apart (h : Once s) (hx : s.executing = .block b) (hk : k ∈ waiting s) : k ≠ b := by
  rintro rfl
  have ho := h k
  have hw : 0 < waits s k := count_pos_iff.mpr hk
  have he : execs s k = 1 := if_pos hx
  omega

theorem Wf.runs_of (h : Wf s) (hx : s.executing = .block b) : Runs b s := by
  cases h with
  | rest hr _ => rcases hr with hr | hr <;> exact nomatch hr.symm.trans hx
  | runs b' runs _ =>
    obtain rfl := Exec.block.inj (runs.executing.symm.trans hx)
    exact runs

theorem Ran.after {d : Prop} {t : Dvd} (h : Ran d b t s') (hm : Moved s t) : Ran d b s s' := by
  refine ⟨?_,h.issued.trans hm.issued,h.started.trans hm.started,?_⟩
  · rw [← hm.queue]
    exact h.queue
  · rw [← hm.called]
    exact h.result

theorem Moved.once (hm : Moved s s') (h : Once s) : Once s' := by
  intro b
  have ho := h b
  unfold waits execs
  rw [hm.waiting, hm.executing]
  exact ho

section

variable (he : inner e = true) (h : Inv m s) (hok : Ok e s)
include he h hok

theorem quiet_keeps (hx : callOf e s = none)
    (hs : dvdStep m e s = some s') : Inv m s' ∧ Reports m s s' := by
  have hmoved := entered_moved (m := m) e s
  obtain ⟨t,ht,hwf,-⟩ := inner_inv he h.wf hok.1
  obtain rfl := mem_unique ht hs
  obtain rfl := mem_unique (inner_quiet he hok.1 hx) hs
  refine ⟨⟨hwf,Moved.once hmoved h.once,h.entered_aim,?_,?_⟩,reports_none hmoved.called⟩
  · intro b hb
    rw [hmoved.waiting] at hb
    rw [hmoved.blk]
    exact h.waiting b hb
  · intro b hb htr
    rw [hmoved.executing] at hb
    rw [hmoved.blk] at htr ⊢
    have hr := Wf.runs_of h.wf hb
    exact h.entered_going hok.1 hr (hr.currcmd ▸ htr)

theorem call_keeps (hx : callOf e s = some x)
    (hs : dvdStep m e s = some s') : Inv m s' ∧ Reports m s s' := by
  have hmoved := entered_moved (m := m) e s
  have hcalm := entered_calm (m := m) he h.wf hok.1
  obtain ⟨t,ht,hwf,-⟩ := inner_inv he h.wf hok.1
  obtain rfl := mem_unique ht hs
  obtain ⟨b,hr,hf⟩ := h.wf.follows hok.1 hx
  have hcall := (inner_call hx hr.executing).symm.trans hs
  obtain ⟨u,hu,hm⟩ := runCall_any (d := closing e s = true) (hmoved.runs hr)
    (hmoved.follows x.1 hf) (by
      intro hclose hclear
      rw [hmoved.currcmd] at hclear
      rw [closing_of_call hx, hclose, hclear]
      rfl)
  obtain rfl := mem_unique hu hcall
  have ho := hm.outcome (hmoved.runs hr) hcalm
  have hran := Outcome.ran ho
  obtain ⟨hask,hmem,hothers⟩ := Outcome.kept ho
  have hexec : (entered m e s).executing = .block b := hmoved.executing.trans hr.executing
  have hcounted : transfers s.currcmd = true → Counted m b s u :=
    fun htr => h.call_counted he hok hx hr hf htr hcall ho
  have hcmd : (u.blk b).cmd = s.currcmd := by
    rw [(asked_fields hask).1, hmoved.blk]
    exact hr.currcmd.symm
  obtain ⟨hgoing,hreports⟩ := Counted.ran (Ran.after hran hmoved) (fun htr => hcounted (hcmd ▸ htr))
  refine ⟨⟨hwf,(Moved.once hmoved h.once).ran hexec hran,?_,?_,hgoing⟩,hreports⟩
  · intro d y hd hy
    rcases Move.aimed hm d y hd hy with ⟨hdi,hcb⟩ | hcb
    · rw [hcb]
      exact h.entered_aim d y hdi hy
    · exact hcb
  · intro k hk
    have hmem : k ∈ waiting s := by
      rcases hran.queue with hq | ⟨-,hq⟩
      · rw [← hmoved.waiting]
        unfold DvdMachine.waiting at hk ⊢
        rw [hq] at hk
        exact hk
      · unfold DvdMachine.waiting at hk
        rw [hq] at hk
        exact absurd hk (by simp)
    rw [hothers k (Once.apart h.once hr.executing hmem), hmoved.blk]
    exact h.waiting k hmem

theorem inner_keeps (hs : dvdStep m e s = some s') : Inv m s' ∧ Reports m s s' := by
  cases hx : callOf e s with
  | none => exact quiet_keeps he h hok hx hs
  | some x => exact call_keeps he h hok hx hs

end

def launched (b : ℕ) (s : Dvd) : Dvd :=
  setState b 1 { s with executing := .block b, currcmd := (s.blk b).cmd }

theorem launched_blk : (launched b s).blk b = { s.blk b with state := 1 } := by
  rw [launched, setState, setBlk_self]

theorem launched_move {d B W : Prop} :
    Move d B W b (launched b s) (stateBusy b (launched b s)) := by
  apply stateBusy_move
  rw [launched_blk]
  rfl

theorem launched_outcome (hc : Calm s) :
    Outcome False b (launched b s) (stateBusy b (launched b s)) := by
  refine stateBusy_outcome rfl ?_ ⟨hc.tail,hc.alarm,hc.callback⟩
  rw [launched_blk]
  rfl

theorem startBlock_eq (b : ℕ) (s : Dvd) : startBlock b s =
    if s.fatalerror then finish b (-1) (setState b (-1) s) else stateBusy b (launched b s) := rfl

theorem launch_going (hsound : Sound (asked (s.blk b))) (hsize : (s.blk b).txdsize = 0) {x : ℤ}
    (hx : x ≠ 0) : Going m { s.blk b with state := x } s.mem := by
  refine ⟨hsound,?_,?_,?_,hx,?_⟩
  · change (s.blk b).txdsize ≤ (s.blk b).len
    rw [hsize]
    exact Nat.zero_le _
  · change (s.blk b).txdsize = (s.blk b).len → (s.blk b).len = 0
    rw [hsize]
    exact Eq.symm
  · change if reads (s.blk b).cmd then (s.blk b).txdsize % 4 = 0 else (s.blk b).txdsize = 0
    rw [hsize]
    simp
  · intro i hi
    exact absurd hi (by simp [hsize])

theorem start_counted (hc : Calm s) (hsound : Sound (asked (s.blk b)))
    (hsize : (s.blk b).txdsize = 0) :
    Counted m b s (startBlock b s) := by
  rw [startBlock_eq]
  split
  · have hself : (setState b (-1) s).blk b = { s.blk b with state := -1 } := by
      rw [setState, setBlk_self]
    have hg : Going m ((setState b (-1) s).blk b) s.mem :=
      hself ▸ launch_going hsound hsize (by decide)
    exact .ends ⟨b,-1,((setState b (-1) s).blk b).state⟩ rfl rfl
      (Going.reported (s := finish b (-1) (setState b (-1) s)) hg rfl)
  · have hg : Going m ((launched b s).blk b) (launched b s).mem :=
      launched_blk ▸ launch_going hsound hsize (by decide)
    obtain ⟨hask,hmem,-⟩ := Outcome.kept (launched_outcome hc)
    exact .after (t := launched b s) rfl
      (Going.keeps hg (Move.keeps (d := True) (B := True) launched_move) hask hmem)

theorem start_others (hc : Calm s) (hk : k ≠ b) : (startBlock b s).blk k = s.blk k := by
  rw [startBlock_eq]
  split
  · exact update_of_ne hk _ _
  · rw [(Outcome.kept (launched_outcome hc)).2.2 k hk]
    exact update_of_ne hk _ _

theorem start_cmd (hc : Calm s) : ((startBlock b s).blk b).cmd = (s.blk b).cmd := by
  rw [startBlock_eq]
  split
  · change ((setState b (-1) s).blk b).cmd = _
    rw [setState, setBlk_self]
  · rw [(asked_fields (Outcome.kept (launched_outcome hc)).1).1, launched_blk]

theorem start_aimed : Aimed s (startBlock b s) := by
  rw [startBlock_eq]
  split
  · exact fun _ _ hd _ => .inl ⟨hd,rfl⟩
  · exact Move.aimed (d := True) (B := True) (W := True) (s := launched b s) launched_move

theorem mem_popped (hp : p < 4) (h : Once s) (hq : s.queue p = b::rest)
    (hqueue : s'.queue = update s.queue p rest) (hk : k ∈ waiting s') : k ∈ waiting s ∧ k ≠ b := by
  have hu := waits_update hp hqueue k
  have ho := h k
  have hpos : 0 < waits s' k := count_pos_iff.mpr hk
  rw [hq, count_cons] at hu
  refine ⟨count_pos_iff.mp ?_,?_⟩
  · change 0 < waits s k
    split at hu <;> omega
  · rintro rfl
    simp only [beq_self_eq_true, if_true] at hu
    omega

theorem ready_keeps (hwf : Wf s) (hx : ∀ k, s.executing ≠ .block k) (h : Inv m s) :
    Inv m (stateReady s) ∧ Reports m s (stateReady s) := by
  have hc := hwf.calm hx
  rcases stateReady_cases s with ⟨hw,heq⟩ | ⟨p,b,rest,hp,hq,-,heq⟩
  · rw [heq]
    refine ⟨⟨.rest (.inl rfl) ⟨hc.tail,hc.alarm,hc.callback⟩,?_,h.aim,h.waiting,fun _
      hk => by cases hk⟩,
      reports_none rfl⟩
    intro b
    have hwaits : waits { s with executing := .idle } b = 0 := waits_zero hw b
    rw [hwaits]
    exact Nat.zero_le 1
  · have hpop : Calm (popped p b rest s) := ⟨hc.tail,hc.alarm,hc.callback⟩
    obtain ⟨hran,hwf'⟩ := startBlock_ran hpop
    have hqueue : (startBlock b (popped p b rest s)).queue = update s.queue p rest := hran.queue_eq
    have hb : b ∈ waiting s := by
      have hmem : b ∈ s.queue p := hq ▸ mem_cons_self
      simp only [waiting]
      interval_cases p <;> simp [hmem]
    have hcounted : transfers (s.blk b).cmd = true →
        Counted m b (popped p b rest s) (startBlock b (popped p b rest s)) :=
      fun htr => start_counted hpop (h.waiting b hb htr).1 (h.waiting b hb htr).2
    have hcmd : ((startBlock b (popped p b rest s)).blk b).cmd = (s.blk b).cmd := start_cmd hpop
    rw [heq]
    obtain ⟨hgoing,hreports⟩ := Counted.ran hran (fun htr => hcounted (hcmd ▸ htr))
    refine ⟨⟨hwf',h.once.popped hp hq hran,?_,?_,hgoing⟩,hreports⟩
    · intro d y hd hy
      rcases start_aimed d y hd hy with ⟨hdi,hcb⟩ | hcb
      · rw [hcb]
        exact h.aim d y hdi hy
      · exact hcb
    · intro k hk
      obtain ⟨hmem,hne⟩ := mem_popped hp h.once hq hqueue hk
      rw [start_others hpop hne]
      exact h.waiting k hmem

theorem push_keeps (h : Inv m s) (hok : Ok (.issue p b c) s) : Inv m (push p b c s) := by
  obtain ⟨⟨hp,hb,hx,-⟩,hsound⟩ := hok
  have hother : ∀ k, k ≠ b → (push p b c s).blk k = s.blk k :=
    fun k hk => update_of_ne hk _ _
  refine ⟨push_wf h.wf p c hx,h.once.push c hp hb hx,h.aim,?_,?_⟩
  · intro k hk htr
    by_cases hkb : k = b
    · subst hkb
      have hself : (push p k c s).blk k = ⟨c.cmd,2,c.offset,c.len,c.buf,(s.blk k).currtxsize,0⟩ :=
        update_self _ _ _
      rw [hself] at htr ⊢
      exact ⟨hsound htr,rfl⟩
    · rw [hother k hkb] at htr ⊢
      have hu := waits_update (t := push p b c s) hp rfl k
      have hpos : 0 < waits (push p b c s) k := count_pos_iff.mpr hk
      rw [count_append, count_singleton, if_neg (by simpa using Ne.symm hkb)] at hu
      refine h.waiting k (count_pos_iff.mp ?_) htr
      change 0 < waits s k
      omega
  · intro k hk htr
    have hkb : k ≠ b := fun hkb => hx (hkb ▸ hk)
    rw [hother k hkb] at htr ⊢
    exact h.going k hk htr

theorem step_keeps (h : Inv m s) (hok : Ok e s) (hs : dvdStep m e s = some s') :
    Inv m s' ∧ Reports m s s' := by
  cases e with
  | irq r | timeout n | run => exact inner_keeps rfl h hok hs
  | ret =>
    cases hs
    have hdummy : s.executing = .dummy := hok.1
    exact ready_keeps h.wf (fun k hk => nomatch hdummy.symm.trans hk) h
  | reset low =>
    cases hs
    exact ⟨⟨reset_wf h.wf low,h.once,h.aim,h.waiting,h.going⟩,reports_none rfl⟩
  | issue p b c =>
    have hpush := push_keeps h hok
    have heq : issueCommand p b c s = s' := some.inj hs
    unfold issueCommand at heq
    split at heq
    · rename_i hidle
      subst heq
      exact ready_keeps hpush.wf (fun k hk => nomatch hidle.symm.trans hk) hpush
    · subst heq
      exact ⟨hpush,reports_none rfl⟩

end Runs

theorem init_inv (m : Media) (blk : ℕ → Block) (mem : ℕ → BitVec 8) : Inv m (dvdInit blk mem) :=
  ⟨.rest (.inl rfl) ⟨rfl,rfl,.inl rfl⟩,fun _ => Nat.zero_le 1,nofun,nofun,nofun⟩

/-- What a transfer has counted is in the buffer, from the place that was asked
for; what it still asks for goes behind it and comes from behind it. A block
that is called back has succeeded if and only if all its bytes are there, unless
it asked for none. -/
theorem transfers_counted (m : Media) (blk : ℕ → Block) (mem : ℕ → BitVec 8) {s : Dvd}
    (h : Reach (dvdStep m) Ok (dvdInit blk mem) s) :
    (∀ b, b ∈ waiting s ∨ s.executing = .block b → transfers (s.blk b).cmd = true →
      Holds m (s.blk b) s.mem) ∧
    (∀ b, s.executing = .block b → transfers (s.blk b).cmd = true → s.callback = some .busy →
      s.masked = false ∨ s.alarm = true →
      ∃ d, s.di = some d ∧ d.target = some ((s.blk b).buf+(s.blk b).txdsize) ∧
        (s.blk b).txdsize+d.len ≤ (s.blk b).len ∧
        (reads (s.blk b).cmd = true → 4*d.word = (s.blk b).offset+(s.blk b).txdsize)) ∧
    (∀ e s' c, Ok e s → dvdStep m e s = some s' → s'.called = s.called ++ [c] →
      transfers (s'.blk c.blk).cmd = true →
      Holds m (s'.blk c.blk) s'.mem ∧
        (c.state = 0 → (s'.blk c.blk).txdsize = (s'.blk c.blk).len) ∧
        ((s'.blk c.blk).len ≠ 0 →
          (c.state = 0 ↔ (s'.blk c.blk).txdsize = (s'.blk c.blk).len))) := by
  have hinv : Inv m s :=
    reach_invariant (init_inv m blk mem) (fun e s s' hi hok hs => (step_keeps hi hok hs).1) h
  refine ⟨?_,?_,?_⟩
  · intro b hb htr
    rcases hb with hb | hb
    · have hzero := (hinv.waiting b hb htr).2
      refine ⟨?_,fun i hi => absurd hi (by simp [hzero])⟩
      rw [hzero]
      exact Nat.zero_le _
    · exact (hinv.going b hb htr).holds
  · intro b hb htr hcb hlive
    have hg := hinv.going b hb htr
    have hr := Wf.runs_of hinv.wf hb
    have hp := hinv.piece hr hcb hlive (hr.currcmd ▸ htr)
    have hle := pieceSize_le hg
    have hlt := hg.size
    refine ⟨_,hp.di,piece_target hg,?_,piece_word hg⟩
    rw [piece_len]
    omega
  · intro e s' c hok hs hc htr
    have hrep := (step_keeps hinv hok hs).2 c hc htr
    exact ⟨hrep.holds,hrep.success,fun hne => ⟨hrep.success,fun heq => hrep.whole heq hne⟩⟩

/-! Runs on a disk whose bytes are numbered. -/

def numbered : Media := ⟨fun i => BitVec.ofNat 8 i,fun i => BitVec.ofNat 8 i,fun _ => 0⟩

def moves (n : ℕ) : Irq := { direct with moved := n }

instance (c : Cmd) : Decidable (Sound c) :=
  inferInstanceAs (Decidable (_ ∧ if reads c.cmd then
    c.offset % 4 = 0 ∧ c.offset < 17179869184 ∧ c.offset+c.len ≤ 17179869184 else c.len = 32))

def regularHere : Event → Dvd → Bool
  | .issue _ _ c, _ => !transfers c.cmd || decide (Sound c)
  | .irq r, s => match s.executing with
    | .block b => decide (Whole (s.blk b) r.moved) &&
      (decide ((s.blk b).txdsize+r.moved ≠ (s.blk b).len ∨ (s.blk b).len = 0) || ends s.currcmd r)
    | _ => true
  | _, _ => true

theorem regularHere_regular {e : Event} {s : Dvd} (h : regularHere e s = true) : Regular e s := by
  cases e with
  | issue p b c =>
    intro htr
    simpa [regularHere, htr] using h
  | irq r =>
    intro b hb _ _
    simp only [regularHere, hb, Bool.and_eq_true, Bool.or_eq_true, decide_eq_true_eq] at h
    exact ⟨h.1,fun heq hne => h.2.resolve_left (fun hor => hor.elim (absurd heq) (absurd · hne))⟩
  | _ => trivial

theorem transfers_counted_half : ∃ s, Reach (dvdStep numbered) Ok fresh s ∧
    s.executing = .block 0 ∧ (s.blk 0).txdsize = 32 ∧ s.mem (8192+5) = 133 := by
  have hrun : (runChecked (dvdStep numbered) (fun e s => decide (Possible e s) && regularHere e s)
      [.issue 2 0 (readAbsAsyncPrio 8192 64 128),.irq (moves 32)] fresh).any
      (fun s => decide (s.executing = .block 0 ∧ (s.blk 0).cmd = 1 ∧ (s.blk 0).txdsize = 32 ∧
        (s.blk 0).buf = 8192 ∧ (s.blk 0).offset = 128)) = true := by
    decide +kernel
  obtain ⟨s,hreach,hexec,hcmd,hsize,hbuf,hoffset⟩ :=
    run_reaches (check_and (fun _ _ => of_decide_eq_true) fun _ _ => regularHere_regular) hrun
  have hholds := (transfers_counted numbered _ _ hreach).1 0 (.inr hexec) (by rw [hcmd]; rfl)
  have hbyte := hholds.bytes 5 (by omega)
  rw [hbuf] at hbyte
  refine ⟨s,hreach,hexec,hsize,hbyte.trans ?_⟩
  simp only [askedByte, hcmd, hoffset]
  rfl

/-- The ID of the disk is read in two pieces: the second one starts from the
beginning, and more is counted than was asked for. -/
theorem disk_id_overcounted : ∃ s, Reach (dvdStep numbered) Possible fresh s ∧
    s.executing = .block 0 ∧ (s.blk 0).cmd = 5 ∧ (s.blk 0).len < (s.blk 0).txdsize := by
  have hrun : (runChecked (dvdStep numbered) (fun e s => decide (Possible e s))
      [.issue 2 0 (readDiskID 4096),.irq (moves 8),.irq (moves 32)] fresh).any
      (fun s => decide (s.executing = .block 0 ∧ (s.blk 0).cmd = 5 ∧
        (s.blk 0).len < (s.blk 0).txdsize)) = true := by
    decide +kernel
  exact run_reaches (fun e s h => of_decide_eq_true h) hrun

end Libogc.DvdTransfers
