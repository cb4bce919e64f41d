import Libogc.Dvd.Machine
import Libogc.Library.GuardedReach

/-!
# What a state function does

A state function goes on with the executing block, ends it, or ends it and
drops the blocks that wait. Whatever is called next finds the pointers that it
follows set.
-/

set_option autoImplicit false

namespace Libogc.DvdControl
open Option GuardedReach DvdMachine Bool Function

def asked (k : Block) : Cmd := ⟨k.cmd,k.offset,k.len,k.buf⟩

/-- Nothing moves between the queues, and no block but `b` is changed. -/
structure Frame (b : ℕ) (s s' : Dvd) : Prop where
  executing : s'.executing = s.executing
  queue : s'.queue = s.queue
  issued : s'.issued = s.issued
  started : s'.started = s.started
  called : s'.called = s.called
  currcmd : s'.currcmd = s.currcmd
  masked : s'.masked = s.masked
  mem : s'.mem = s.mem
  others : ∀ c, c ≠ b → s'.blk c = s.blk c
  asked : asked (s'.blk b) = asked (s.blk b)

theorem Frame.trans {b : ℕ} {s t u : Dvd} (h : Frame b s t) (h' : Frame b t u) : Frame b s u :=
  ⟨h'.executing.trans h.executing,h'.queue.trans h.queue,h'.issued.trans h.issued,
    h'.started.trans h.started,h'.called.trans h.called,h'.currcmd.trans h.currcmd,
    h'.masked.trans h.masked,h'.mem.trans h.mem,
    fun c hc => (h'.others c hc).trans (h.others c hc),h'.asked.trans h.asked⟩

def pieceSize (k : Block) : ℕ :=
  if k.cmd = 1 ∨ k.cmd = 4 then
    if sub32 k.len k.txdsize < 524288 then sub32 k.len k.txdsize else 524288
  else 32

def pieceOf (k : Block) : Di :=
  if k.cmd = 1 ∨ k.cmd = 4 then
    ⟨.sector,some (k.buf+k.txdsize),u32 ((k.offset+k.txdsize)/4),pieceSize k⟩
  else if k.cmd = 5 then ⟨.diskId,some k.buf,0,32⟩
  else ⟨.inquiry,some k.buf,0,32⟩

structure Piece (s : Dvd) (k : Block) : Prop where
  di : s.di = some (pieceOf k)
  dmaLen : s.dmaLen = pieceSize k
  size : k.currtxsize = pieceSize k

def Spun (s : Dvd) : Prop :=
  (s.finalsudcb = some .busy ∧ transfers s.currcmd = false) ∨ s.finalsudcb = some .retry ∨
    s.finalsudcb = some .coverClosedSpinup

def Unlocked (s : Dvd) : Prop :=
  (s.finalunlockcb = some .cntrlDrive ∧ Spun s) ∨
    (s.finalunlockcb = some .handleSpinup ∧ Spun s) ∨
    (s.finalunlockcb = some .fwPatch ∧ Spun s ∧ s.finalpatchcb = some .spinupDrive) ∨
    (s.finalunlockcb = some .setGcmOffset ∧ s.finaloffsetcb = some .busy ∧
      transfers s.currcmd = false)

def Follows (s : Dvd) : LowCb → Prop
  | .cntrlDrive => Spun s
  | .setGcmOffset => s.finaloffsetcb = some .busy ∧ transfers s.currcmd = false
  | .handleSpinup => Spun s
  | .fwPatch => Spun s ∧ s.finalpatchcb = some .spinupDrive
  | .checkAddons => Spun s ∧ s.finaladdoncb = some .spinupDrive
  | .spinupDrive => Spun s
  | .patchDrive => Spun s ∧ s.finalpatchcb = some .spinupDrive
  | .unlockDrive => Unlocked s
  | _ => True

structure Ready (s : Dvd) (b : ℕ) (cb : LowCb) : Prop where
  follows : Follows s cb
  piece : cb = .busy → transfers s.currcmd = true → Piece s (s.blk b)

def calledDirectly (cb : LowCb) : Bool :=
  cb == .spinupDrive || cb == .busy || cb == .retry || cb == .coverClosedSpinup

structure Direct (s : Dvd) (cb : LowCb) : Prop where
  follows : Follows s cb
  kind : calledDirectly cb = true
  size : cb = .busy → transfers s.currcmd = false

structure Calm (s : Dvd) : Prop where
  tail : s.tail = none
  alarm : s.alarm = false
  callback : s.callback = none ∨ s.masked = true

structure Runs (b : ℕ) (s : Dvd) : Prop where
  executing : s.executing = .block b
  currcmd : s.currcmd = (s.blk b).cmd
  laststate : s.laststate ≠ none

structure Pending (b : ℕ) (s : Dvd) : Prop where
  callback : ∀ cb, s.callback = some cb → s.masked = false ∨ s.alarm = true → Ready s b cb
  tail : ∀ cb, s.tail = some cb → Direct s cb
  apart : s.tail ≠ none → s.alarm = false ∧ (s.callback = none ∨ s.masked = true)

/-- The waiting blocks are dropped only if `d` holds. -/
inductive Outcome (d : Prop) (b : ℕ) (s s' : Dvd) : Prop
  | goes (frame : Frame b s s') (runs : Runs b s') (pending : Pending b s')
  | ends (r : ℤ) (t : Dvd) (frame : Frame b s t) (calm : Calm t) (h : s' = finish b r t)
  | drops (hd : d) (t : Dvd) (frame : Frame b s t) (calm : Calm t)
      (h : s' = finish b (-4) { t with queue := fun _ => [] })

variable {cb : LowCb}

def watched (s : Dvd) :=
  (s.executing,s.queue,s.issued,s.started,s.called,s.currcmd,s.masked,s.mem,s.di,s.tail,s.alarm,
    s.callback)

/-- The block `b` is changed, and what the library keeps for itself. Bytes are
counted and a success is noted only if `W` holds. -/
structure Near (W : Prop) (b : ℕ) (s t : Dvd) : Prop where
  watched : watched t = watched s
  others : ∀ c, c ≠ b → t.blk c = s.blk c
  asked : asked (t.blk b) = asked (s.blk b)
  laststate : s.laststate ≠ none → t.laststate ≠ none
  kept : W ∨ (t.blk b).txdsize = (s.blk b).txdsize ∧ ((s.blk b).state ≠ 0 → (t.blk b).state ≠ 0)

/-- What a state function does. The waiting blocks are dropped only if `d`
holds, and the state of a block that ends is left unset only if `B` holds. -/
inductive Move (d B W : Prop) (b : ℕ) (s : Dvd) : Dvd → Prop
  | stay (t : Dvd) (near : Near W b s t) : Move d B W b s t
  | start (t : Dvd) (cb : LowCb) (armed : Bool) (di : Option Di) (near : Near W b s t)
      (ready : Ready (lowStart (some cb) armed di t) b cb)
      (aim : cb = .busy ∨ ∀ x, di = some x → x.target = none)
      (told : cb = .error → B ∨ (t.blk b).state = -1) :
      Move d B W b s (lowStart (some cb) armed di t)
  | call (t : Dvd) (cb : LowCb) (near : Near W b s t)
      (direct : Direct { t with tail := some cb } cb) : Move d B W b s { t with tail := some cb }
  | ends (r : ℤ) (t : Dvd) (near : Near W b s t)
      (told : B ∨ (t.blk b).state = 0 ∨ (t.blk b).state = -1 ∨ (t.blk b).state = 10) :
      Move d B W b s (finish b r t)
  | drops (hd : d) (t : Dvd) (near : Near W b s t) :
      Move d B W b s (finish b (-4) { t with queue := fun _ => [] })

section Functions

variable {d B W : Prop} {b : ℕ} {s t u s' : Dvd}

theorem Calm.dead (h : Calm s) (hcb : s.callback = some cb) :
    ¬(s.masked = false ∨ s.alarm = true) := by
  rintro (hlive | hlive)
  · rcases h.callback with hn | hm
    · exact nomatch hn.symm.trans hcb
    · exact false_ne_true (hlive.symm.trans hm)
  · exact false_ne_true (h.alarm.symm.trans hlive)

theorem Pending.of_calm (h : Calm s) : Pending b s :=
  ⟨fun _ hcb hlive => absurd hlive (h.dead hcb),fun _ hcb => (nomatch h.tail.symm.trans hcb),
    fun _ => ⟨h.alarm,h.callback⟩⟩

theorem Outcome.after (hf : Frame b s t) (h : Outcome d b t s') : Outcome d b s s' := by
  cases h with
  | goes frame runs pending => exact .goes (hf.trans frame) runs pending
  | ends r u frame calm h => exact .ends r u (hf.trans frame) calm h
  | drops hd u frame calm h => exact .drops hd u (hf.trans frame) calm h

/-! What stays near a state. -/

theorem near_set (h : watched t = watched s) (hblk : t.blk = s.blk)
    (hl : s.laststate ≠ none → t.laststate ≠ none) : Near W b s t := by
  refine ⟨h,fun c _ => congrFun hblk c,?_,hl,.inr ⟨?_,?_⟩⟩
  · rw [hblk]
  · rw [hblk]
  · rw [hblk]
    exact id

theorem near_of (h : (watched t,t.blk,t.laststate) = (watched s,s.blk,s.laststate)) :
    Near W b s t := by
  simp only [Prod.mk.injEq] at h
  obtain ⟨h,hblk,hl⟩ := h
  exact near_set h hblk (hl ▸ id)

section

variable (h : Near W b s t)
include h

theorem Near.trans (h' : Near W b t u) : Near W b s u := by
  refine ⟨h'.watched.trans h.watched,fun c hc => (h'.others c hc).trans (h.others c hc),
    h'.asked.trans h.asked,fun hl => h'.laststate (h.laststate hl),?_⟩
  rcases h.kept with hw | ⟨hsize,hstate⟩
  · exact .inl hw
  · rcases h'.kept with hw | ⟨hsize',hstate'⟩
    · exact .inl hw
    · exact .inr ⟨hsize'.trans hsize,fun hs => hstate' (hstate hs)⟩

theorem Near.frame : Frame b s t := by
  have hw := h.watched
  simp only [DvdControl.watched, Prod.mk.injEq] at hw
  obtain ⟨hx,hq,hi,hst,hca,hcmd,hm,hmem,-⟩ := hw
  exact ⟨hx,hq,hi,hst,hca,hcmd,hm,hmem,h.others,h.asked⟩

theorem Near.drive : t.masked = s.masked ∧ t.di = s.di ∧ t.tail = s.tail ∧
    t.alarm = s.alarm ∧ t.callback = s.callback := by
  have hw := h.watched
  simp only [DvdControl.watched, Prod.mk.injEq] at hw
  obtain ⟨-,-,-,-,-,-,hm,-,hdrive⟩ := hw
  exact ⟨hm,hdrive⟩

theorem Near.calm (hc : Calm s) : Calm t := by
  obtain ⟨hm,-,ht,ha,hcb⟩ := h.drive
  refine ⟨ht.trans hc.tail,ha.trans hc.alarm,?_⟩
  rw [hcb, hm]
  exact hc.callback

theorem Near.currcmd (hcmd : s.currcmd = (s.blk b).cmd) : t.currcmd = (t.blk b).cmd :=
  h.frame.currcmd.trans (hcmd.trans (congrArg Cmd.cmd h.asked).symm)

theorem Near.runs (hr : Runs b s) : Runs b t :=
  ⟨h.frame.executing.trans hr.executing,h.currcmd hr.currcmd,h.laststate hr.laststate⟩

end

theorem setBlk_self (k : Block) : (setBlk b k s).blk b = k := update_self _ _ _

theorem near_setBlk {k : Block} (h : asked k = asked (s.blk b))
    (hk : W ∨ k.txdsize = (s.blk b).txdsize ∧ ((s.blk b).state ≠ 0 → k.state ≠ 0)) :
    Near W b s (setBlk b k s) := by
  refine ⟨rfl,fun _ hc => update_of_ne hc _ _,?_,id,?_⟩
  · rw [setBlk_self, h]
  · rw [setBlk_self]
    exact hk

variable {x : ℤ} {r : Irq} {v : BitVec 32}

theorem near_setState (hx : W ∨ x ≠ 0) : Near W b s (setState b x s) :=
  near_setBlk rfl (hx.imp_right (fun hx => ⟨rfl,fun _ => hx⟩))

theorem near_setSize (n : ℕ) : Near W b s (setSize b n s) := near_setBlk rfl (.inr ⟨rfl,id⟩)

/-! What a move does to the machine. -/

theorem Move.after (h : Move d B W b t s') (hn : Near W b s t) : Move d B W b s s' := by
  cases h with
  | stay _ near => exact .stay _ (hn.trans near)
  | start t cb armed di near ready aim told =>
    exact .start t cb armed di (hn.trans near) ready aim told
  | call t cb near direct => exact .call t cb (hn.trans near) direct
  | ends r t near told => exact .ends r t (hn.trans near) told
  | drops hd t near => exact .drops hd t (hn.trans near)

theorem Move.outcome (h : Move d B W b s s') (hr : Runs b s) (hc : Calm s) : Outcome d b s s' := by
  cases h with
  | stay _ near => exact .goes near.frame (near.runs hr) (.of_calm (near.calm hc))
  | start t cb armed di near ready aim told =>
    have hr' := near.runs hr
    have hc' := near.calm hc
    refine .goes (near.frame.trans ⟨rfl,rfl,rfl,rfl,rfl,rfl,rfl,rfl,fun _ _ => rfl,rfl⟩)
      ⟨hr'.executing,hr'.currcmd,hr'.laststate⟩ ⟨?_,?_,fun hne => absurd hc'.tail hne⟩
    · intro x hx _
      cases hx
      exact ready
    · exact fun x hx => nomatch hc'.tail.symm.trans hx
  | call t cb near direct =>
    have hr' := near.runs hr
    have hc' := near.calm hc
    refine .goes (near.frame.trans ⟨rfl,rfl,rfl,rfl,rfl,rfl,rfl,rfl,fun _ _ => rfl,rfl⟩)
      ⟨hr'.executing,hr'.currcmd,hr'.laststate⟩ ⟨?_,?_,fun _ => ⟨hc'.alarm,hc'.callback⟩⟩
    · exact fun x hx hlive => absurd hlive (hc'.dead hx)
    · intro x hx
      cases hx
      exact direct
  | ends r t near told => exact .ends r t near.frame (near.calm hc) rfl
  | drops hd t near => exact .drops hd t near.frame (near.calm hc) rfl

def plain (cb : LowCb) : Bool :=
  cb == .retry || cb == .unrecoveredErrorRetry || cb == .unrecoveredError || cb == .error ||
    cb == .gettingError || cb == .motorStopped || cb == .coverClosed || cb == .checkId1 ||
    cb == .gotoRetry || cb == .coverClosedSpinup

theorem ready_plain (h : plain cb = true) : Ready s b cb := by
  constructor
  · cases cb <;> trivial
  · rintro rfl
    exact absurd h false_ne_true

/-! Commands of the drive. -/

theorem plain_move (cb : LowCb) (h : plain cb = true) (hne : cb ≠ .error) (armed : Bool) :
    Move d B W b s (lowStart (some cb) armed none s) :=
  .start s cb armed none (near_of rfl) (ready_plain h) (.inr nofun) (fun he => absurd he hne)

theorem follows_move {armed : Bool} {di : Option Di}
    (h : Follows (lowStart (some cb) armed di s) cb) (hcb : (cb == .busy || cb == .error) = false)
    (hdi : ∀ x, di = some x → x.target = none) :
      Move d B W b s (lowStart (some cb) armed di s) := by
  refine .start s cb armed di (near_of rfl) ⟨h,?_⟩ (.inr hdi) ?_
  · rintro rfl
    cases hcb
  · rintro rfl
    cases hcb

theorem timed_move (hcmd : s.currcmd = (s.blk b).cmd) (h : transfers (s.blk b).cmd = false) :
    Move d B W b s (lowTimed .busy s) := by
  refine .start s .busy true none (near_of rfl) ⟨trivial,fun _ htr => ?_⟩ (.inl rfl) nofun
  have htr' : transfers s.currcmd = true := htr
  rw [hcmd, h] at htr'
  exact absurd htr' false_ne_true

theorem piece_len (k : Block) : (pieceOf k).len = pieceSize k := by
  unfold pieceOf
  by_cases hr : k.cmd = 1 ∨ k.cmd = 4
  · rw [if_pos hr]
  · rw [pieceSize, if_neg hr]
    split <;> rfl

theorem piece_move (b : ℕ) (s : Dvd) : Move d B W b s
    (lowStart (some .busy) true (some (pieceOf (s.blk b)))
      (setSize b (pieceSize (s.blk b)) s)) := by
  refine .start _ .busy true _ (near_setSize _) ⟨trivial,fun _ _ => ?_⟩ (.inl rfl) nofun
  have hblk : (setSize b (pieceSize (s.blk b)) s).blk b =
      { s.blk b with currtxsize := pieceSize (s.blk b) } := setBlk_self _
  have hpiece : pieceOf { s.blk b with currtxsize := pieceSize (s.blk b) } =
    pieceOf (s.blk b) := rfl
  change Piece _ ((setSize b (pieceSize (s.blk b)) s).blk b)
  rw [hblk]
  exact ⟨congrArg some hpiece.symm,piece_len _,rfl⟩

theorem spinUp_move (h : Spun { s with finalsudcb := some cb }) :
    Move d B W b s (lowSpinUpDrive cb s) :=
  .call { s with finalsudcb := some cb } .spinupDrive (near_of rfl) ⟨h,rfl,nofun⟩

theorem unlock_move (h : Unlocked { s with finalunlockcb := some cb }) :
    Move d B W b s (lowUnlockDrive cb s) :=
  .after (follows_move h rfl nofun) (near_of rfl)

/-! The states. -/

theorem stateError_move (h : B ∨ (s.blk b).state = -1) : Move d B W b s (stateError s) :=
  .start s .error true none (near_of rfl) (ready_plain rfl) (.inr nofun) (fun _ => h)

theorem failState_move : Move d B W b s (failState b s) := by
  refine .after (stateError_move (.inr ?_)) (near_setState (.inr (by decide)))
  rw [setState, setBlk_self]

theorem gettingError_move : Move d B W b s (stateGettingError s) :=
  plain_move .gettingError rfl nofun true

theorem motorStopped_move (hx : x ≠ 0) : Move d B W b s (stateMotorStopped (setState b x s)) :=
  .after (plain_move .motorStopped rfl nofun false) (near_setState (.inr hx))

theorem coverClosedCmd_move : Move d B W b s (stateCoverClosedCmd s) := by
  refine .start s .coverClosed true _ (near_of rfl) (ready_plain rfl) (.inr ?_) nofun
  intro x hx
  cases hx
  rfl

theorem finish_move (r : ℤ) (hx : W ∨ x ≠ 0) (h : B ∨ x = 0 ∨ x = -1 ∨ x = 10) :
    Move d B W b s (finish b r (setState b x s)) := by
  refine .ends r _ (near_setState hx) ?_
  rw [setState, setBlk_self]
  exact h

theorem finish_outcome (hc : Calm s) (x r : ℤ) : Outcome d b s (finish b r (setState b x s)) :=
  .ends r _ (near_setState (.inl trivial)).frame ⟨hc.tail,hc.alarm,hc.callback⟩ rfl

theorem done_move (hw : W) (r : ℤ) : Move d B W b s (finish b r (setState b 0 s)) :=
  finish_move r (.inl hw) (.inr (.inl rfl))

theorem errorCb_move (h : B ∨ (s.blk b).state = -1) : Move d B W b s (errorCb b s) :=
  .ends (-1) { s with fatalerror := true } (near_of rfl)
    (h.imp_right (fun h => .inr (.inl h)))

theorem reset_near (low : Bool) (s : Dvd) : Near W b s (dvdReset low s) := near_of rfl

theorem stateTimeout_move (h : B ∨ (s.blk b).state = -1) : Move d B W b s (stateTimeout b s) :=
  .after (errorCb_move h) (reset_near true s)

theorem timedOut_move : Move d B W b s (timedOut b s) := by
  refine .after (stateTimeout_move (.inr ?_)) (near_setState (.inr (by decide)))
  rw [setState, setBlk_self]

theorem stateBusy_move (hcmd : s.currcmd = (s.blk b).cmd) : Move d B W b s (stateBusy b s) := by
  have hn : Near W b s { s with laststate := some .busy } := near_set rfl rfl (fun _ => nofun)
  have htimed : ∀ {n}, (s.blk b).cmd = n → transfers n = false →
      Move d B W b s (lowTimed .busy { s with laststate := some .busy }) :=
    fun h ht => .after (timed_move hcmd (h ▸ ht)) hn
  have hpiece := (piece_move (d := d) (B := B) b { s with laststate := some .busy }).after hn
  have hread : (s.blk b).cmd = 1 ∨ (s.blk b).cmd = 4 →
      Move d B W b s (readChunk b { s with laststate := some .busy }) := by
    intro h
    simp only [pieceOf, pieceSize, if_pos h] at hpiece
    exact hpiece
  unfold stateBusy
  simp only
  split
  · exact hread (.inl ‹_›)
  · exact hread (.inr ‹_›)
  · exact htimed ‹_› rfl
  · exact htimed ‹_› rfl
  · exact htimed ‹_› rfl
  · rename_i h
    simp only [pieceOf, pieceSize, h] at hpiece
    exact hpiece
  · rename_i h
    refine .after (timed_move ?_ ?_) (hn.trans (near_setSize _))
    · rw [setSize, setBlk_self]
      exact hcmd
    · rw [setSize, setBlk_self]
      exact h ▸ rfl
  · exact htimed ‹_› rfl
  · rename_i h
    exact .after (timed_move hcmd (h ▸ rfl)) (near_set rfl rfl (fun _ => nofun))
  · exact htimed ‹_› rfl
  · exact htimed ‹_› rfl
  · exact htimed ‹_› rfl
  · exact htimed ‹_› rfl
  · exact htimed ‹_› rfl
  · rename_i h
    simp only [pieceOf, pieceSize, h] at hpiece
    exact hpiece
  · rename_i h
    refine .after (spinUp_move (.inl ⟨rfl,?_⟩)) (near_set rfl rfl (fun _ => nofun))
    rw [hcmd, h]
    rfl
  · rename_i h
    refine .after (unlock_move (.inl ⟨rfl,.inl ⟨rfl,?_⟩⟩)) (near_set rfl rfl (fun _ => nofun))
    rw [hcmd, h]
    rfl
  · rename_i h
    refine .after (unlock_move (.inr (.inr (.inr ⟨rfl,rfl,?_⟩))))
      (near_set rfl rfl (fun _ => nofun))
    rw [hcmd, h]
    rfl
  · exact .stay _ hn

/-- The last state is set first, so it need not be known. -/
theorem stateBusy_outcome (hx : s.executing = .block b) (hcmd : s.currcmd = (s.blk b).cmd)
    (hc : Calm s) : Outcome d b s (stateBusy b s) := by
  have hr : Runs b { s with laststate := some .busy } := ⟨hx,hcmd,nofun⟩
  have hm : Move d True True b { s with laststate := some .busy } (stateBusy b s) :=
    stateBusy_move hcmd
  have hf : Frame b s { s with laststate := some .busy } :=
    ⟨rfl,rfl,rfl,rfl,rfl,rfl,rfl,rfl,fun _ _ => rfl,rfl⟩
  exact .after hf (hm.outcome hr ⟨hc.tail,hc.alarm,hc.callback⟩)

/-- The commands for which the waiting blocks are dropped when the cover was
closed. -/
def clears (cmd : ℕ) : Bool := cmd == 4 || cmd == 5 || cmd == 13 || cmd == 15 || cmd == 16

theorem coverClosed_move (hd : clears s.currcmd = true → d) :
    Move d B W b s (stateCoverClosed b (setState b 3 s)) := by
  refine .after ?_ (near_setState (x := 3) (.inr (by decide)))
  unfold stateCoverClosed
  split
  · rename_i h
    exact .drops (hd h) _ (near_of rfl)
  · exact spinUp_move (.inr (.inr rfl))

theorem checkId_move (hcmd : s.currcmd = (s.blk b).cmd) (hwin : s.currcmd = 16 → W) (r : Irq) :
    Move d B W b s (stateCheckId b r s) := by
  unfold stateCheckId
  split
  · exact plain_move .checkId1 rfl nofun true
  · split
    · rename_i h
      exact done_move (hwin (beq_iff_eq.mp h)) 0
    · split
      · exact finish_move (-1) (.inr (by decide)) (.inr (.inr (.inl rfl)))
      · exact stateBusy_move hcmd

/-! What categorizing and counting change. -/

theorem categorize_near (b : ℕ) (v : BitVec 32) (s : Dvd) :
    Near W b s (categorizeError b v s).2 := by
  have hset : ∀ (n : ℕ) (e : BitVec 32), Near W b s
    { s with internalretries := n, lasterror := e } :=
    fun n e => near_of rfl
  unfold categorizeError
  split
  · exact hset s.internalretries v
  · split
    · exact hset s.internalretries s.lasterror
    · simp only
      split
      · exact hset _ _
      · split <;> exact hset _ _

theorem categorize_kind (b : ℕ) (v : BitVec 32) (s : Dvd) :
    ((categorizeError b v s).1 = 0 ∧ mediumError (errorOf v) = true) ∨
      (categorizeError b v s).1 = 1 ∨ (categorizeError b v s).1 = 2 ∨
      (categorizeError b v s).1 = 3 := by
  unfold categorizeError
  split
  · exact .inr (.inl rfl)
  · split
    · rename_i h
      exact .inl ⟨rfl,h⟩
    · simp only
      split
      · exact .inr (.inl rfl)
      · split
        · exact .inr (.inr (.inr rfl))
        · exact .inr (.inr (.inl rfl))

theorem account_near (hw : W) : Near W b s (account b s) := by
  unfold account
  split
  · exact near_setBlk rfl (.inl hw)
  · exact near_of rfl

theorem account_size : ((account b s).blk b).currtxsize = (s.blk b).currtxsize := by
  unfold account
  split
  · rw [setBlk_self]
  · rfl

theorem retries_near (s : Dvd) : Near W b s { s with internalretries := 0 } := near_of rfl

/-! The callbacks. -/

theorem retryCb_move (hcmd : s.currcmd = (s.blk b).cmd) (h : r.de = true → B) :
    Move d B W b s (retryCb b r s) := by
  unfold retryCb
  split
  · rename_i hde
    exact stateError_move (.inl (h hde))
  · split
    · exact stateBusy_move hcmd
    · exact .stay _ (near_of rfl)

theorem unrecoveredErrorCb_move (r : Irq) : Move d B W b s (unrecoveredErrorCb r s) := by
  unfold unrecoveredErrorCb
  split
  · exact plain_move .gotoRetry rfl nofun true
  · split
    · exact .stay _ (near_of rfl)
    · exact plain_move .unrecoveredErrorRetry rfl nofun true

theorem retryCommand_move (hcmd : s.currcmd = (s.blk b).cmd) (v : BitVec 32) :
    Move d B W b s (retryCommand b v s) := by
  unfold retryCommand
  split
  · split
    · exact .after (spinUp_move (.inr (.inl rfl))) (near_of rfl)
    · exact stateBusy_move hcmd
  · exact plain_move .gotoRetry rfl nofun true

theorem lastState_move (hcmd : s.currcmd = (s.blk b).cmd) (hl : s.laststate ≠ none) :
    ∃ s', lastState b s = some s' ∧ Move d B W b s s' := by
  unfold lastState
  split
  · rename_i h
    exact absurd h hl
  · exact ⟨_,rfl,stateBusy_move hcmd⟩
  · exact ⟨_,rfl,coverClosedCmd_move⟩

theorem mediumState_move (hd : statusOf v = 2 → clears s.currcmd = true → d) :
    Move d B W b s (mediumState b v s) := by
  unfold mediumState
  split
  · exact motorStopped_move (by decide)
  · split
    · rename_i h
      exact coverClosed_move (hd (beq_iff_eq.mp h))
    · split
      · exact motorStopped_move (by decide)
      · exact failState_move

theorem handleError_move (hr : Runs b s)
    (hd : mediumError (errorOf v) = true → statusOf v = 2 → clears s.currcmd = true → d) :
    ∃ s', handleError b v s = some s' ∧ Move d B W b s s' := by
  have hn : Near W b s (categorizeError b v s).2 := categorize_near b v s
  have hr' := hn.runs hr
  have hkind := categorize_kind b v s
  unfold handleError
  simp only
  split
  · exact ⟨_,rfl,failState_move.after hn⟩
  · exact ⟨_,rfl,.after (retryCommand_move hr'.currcmd v) hn⟩
  · split
    · exact ⟨_,rfl,.after (plain_move .unrecoveredError rfl nofun true) hn⟩
    · obtain ⟨s',hs',hm⟩ := lastState_move hr'.currcmd hr'.laststate
      exact ⟨s',hs',hm.after hn⟩
  · rename_i h1 h2 h3
    rcases hkind with ⟨-,hmedium⟩ | h | h | h
    · refine ⟨_,rfl,.after (mediumState_move ?_) hn⟩
      rw [hn.frame.currcmd]
      exact hd hmedium
    · exact absurd h h1
    · exact absurd h h2
    · exact absurd h h3

def coverCloses (cb : LowCb) (r : Irq) : Bool :=
  cb == .motorStopped || (cb == .gettingError && r.done && mediumError (errorOf r.imm) &&
    statusOf r.imm == 2)

theorem gettingErrorCb_move (hr : Runs b s)
    (hd : coverCloses .gettingError r = true → clears s.currcmd = true → d) :
    ∃ s', gettingErrorCb b r s = some s' ∧ Move d B W b s s' := by
  unfold gettingErrorCb
  split
  · exact ⟨_,rfl,failState_move⟩
  · split
    · rename_i hdone
      refine handleError_move hr ?_
      intro hmedium hstatus
      apply hd
      simp [coverCloses, hdone, hmedium, hstatus]
    · exact ⟨_,rfl,.stay _ (near_of rfl)⟩

section

variable (hcmd : s.currcmd = (s.blk b).cmd)
  (hwin : (transfers s.currcmd = true → (s.blk b).txdsize = (s.blk b).len) → W)
include hcmd hwin

theorem busyDone_move
    (hbad : s.currcmd = 6 → (s.blk b).currtxsize = 0 → r.imm.getLsbD 0 = true → B) :
    Move d B W b s (busyDone b r s) := by
  unfold busyDone
  simp only
  split
  · split
    · exact stateBusy_move hcmd
    · rename_i heq
      exact done_move (hwin (fun _ => by simpa using heq)) _
  · rename_i htr
    have hw : W := hwin (fun h => absurd h htr)
    split
    · exact done_move hw _
    · split
      · exact done_move hw _
      · split
        · rename_i hsix
          simp only [and_eq_true, beq_iff_eq] at hsix
          split
          · rename_i hend
            exact finish_move _ (.inl hw) (.inl (hbad hsix.1 hsix.2 hend))
          · have ha : Near W b s { s with autofinishing := false } := near_of rfl
            refine .after (timed_move ?_ ?_) (ha.trans (near_setSize 1))
            · rw [setSize, setBlk_self]
              exact hcmd
            · rw [setSize, setBlk_self, ← hcmd]
              exact not_eq_true _ ▸ htr
        · split
          · exact done_move hw _
          · exact done_move hw _

theorem busyAccounted_move
    (hbad : s.currcmd = 6 → (s.blk b).currtxsize = 0 → r.tc = true → r.brk = false →
      r.imm.getLsbD 0 = true → B) : Move d B W b s (busyAccounted b r s) := by
  unfold busyAccounted
  split
  · exact finish_move (-3) (.inr (by decide)) (.inr (.inr (.inr rfl)))
  · rename_i hbrk
    split
    · rename_i htc
      refine .after (busyDone_move ?_ ?_ ?_) (retries_near s)
      · exact hcmd
      · exact hwin
      · exact fun h h0 => hbad h h0 htc (by simpa using hbrk)
    · split
      · exact failState_move
      · split
        · rename_i heq
          simp only [and_eq_true, beq_iff_eq] at heq
          exact done_move (hwin (fun _ => heq.2)) _
        · exact gettingError_move

end

theorem busyCb_move (hcmd : s.currcmd = (s.blk b).cmd) (hw : W)
    (hbad : s.currcmd = 6 → (s.blk b).currtxsize = 0 → r.tc = true → r.brk = false →
      r.imm.getLsbD 0 = true → B) : Move d B W b s (busyCb b r s) := by
  have hn : Near W b s (account b s) := account_near hw
  unfold busyCb
  split
  · exact failState_move
  · split
    · exact .after (motorStopped_move (by decide)) (retries_near s)
    · refine .after (busyAccounted_move (hn.currcmd hcmd) (fun _ => hw) ?_) hn
      rw [hn.frame.currcmd, account_size]
      exact hbad

theorem coverClosedCb_move (hcmd : s.currcmd = (s.blk b).cmd) (hwin : s.currcmd = 16 → W)
    (r : Irq) : Move d B W b s (coverClosedCb b r s) := by
  unfold coverClosedCb
  split
  · refine .after (checkId_move ?_ ?_ r) (retries_near s)
    · exact hcmd
    · exact hwin
  · split
    · exact gettingError_move
    · exact .stay _ (near_of rfl)

theorem gotoRetryCb_move (r : Irq) : Move d B W b s (gotoRetryCb b r s) := by
  unfold gotoRetryCb
  split
  · exact failState_move
  · split
    · simp only
      split
      · exact .after (motorStopped_move (by decide)) (retries_near s)
      · exact .stay _ (retries_near s)
    · exact .stay _ (near_of rfl)

/-! The callbacks of the spin-up. -/

theorem spun_move (h : Spun s) : Move d B W b s (lowPlain s.finalsudcb s) := by
  rcases h with ⟨h,htr⟩ | h | h
  · rw [h]
    refine .start s .busy false none (near_of rfl) ⟨trivial,fun _ htr' => ?_⟩ (.inl rfl) nofun
    exact absurd (htr.symm.trans htr') false_ne_true
  · rw [h]
    exact plain_move .retry rfl nofun false
  · rw [h]
    exact plain_move .coverClosedSpinup rfl nofun false

theorem callFinal_move (h : Spun s) :
    ∃ s', callFinal s.finalsudcb s = some s' ∧ Move d B W b s s' := by
  have hcall : ∀ {cb}, s.finalsudcb = some cb → Direct { s with tail := some cb } cb →
      ∃ s', callFinal s.finalsudcb s = some s' ∧ Move d B W b s s' := by
    intro cb h hd
    rw [h]
    exact ⟨_,rfl,.call s cb (near_of rfl) hd⟩
  rcases h with ⟨h,htr⟩ | h | h
  · exact hcall h ⟨trivial,rfl,fun _ => htr⟩
  · exact hcall h ⟨trivial,rfl,nofun⟩
  · exact hcall h ⟨trivial,rfl,nofun⟩

theorem unlockDrive_move (h : Unlocked s) : Move d B W b s (lowPlain s.finalunlockcb s) := by
  rcases h with ⟨h,hs⟩ | ⟨h,hs⟩ | ⟨h,hs⟩ | ⟨h,hs⟩
  · exact h ▸ follows_move hs rfl nofun
  · exact h ▸ follows_move hs rfl nofun
  · exact h ▸ follows_move hs rfl nofun
  · exact h ▸ follows_move hs rfl nofun

theorem cntrlDriveCb_move (h : Spun s) (r : Irq) :
    Move d B W b s (unlockedCb s.finalsudcb r s) := by
  unfold unlockedCb
  split
  · exact spun_move h
  · exact gettingError_move

theorem setGcmOffsetCb_move (r : Irq)
    (h : s.finaloffsetcb = some .busy ∧ transfers s.currcmd = false) :
    Move d B W b s (unlockedCb s.finaloffsetcb r s) := by
  unfold unlockedCb
  split
  · rw [h.1]
    exact .start s .busy false none (near_of rfl)
      ⟨trivial,fun _ htr => absurd (h.2.symm.trans htr) false_ne_true⟩ (.inl rfl) nofun
  · exact gettingError_move

theorem handleSpinupCb_move (h : Spun s) (r : Irq) :
    ∃ s', handleSpinupCb r s = some s' ∧ Move d B W b s s' := by
  unfold handleSpinupCb
  split
  · exact ⟨_,rfl,.after (follows_move h rfl nofun) (near_of rfl)⟩
  · split
    · exact ⟨_,rfl,.after (follows_move h rfl nofun) (near_of rfl)⟩
    · split
      · split
        · exact ⟨_,rfl,.after (spun_move h) (near_of rfl)⟩
        · obtain ⟨s',hs',hm⟩ := callFinal_move
            (s := { s with spinStep := 0 }) h
          exact ⟨s',hs',hm.after (near_of rfl)⟩
      · exact ⟨_,rfl,.after gettingError_move (near_of rfl)⟩

theorem patchDriveCb_move (h : Spun s ∧ s.finalpatchcb = some .spinupDrive) :
    Move d B W b s (patchDriveCb s) := by
  have hnext : ∀ stage nPos, Move d B W b s
      (lowPlain (some .patchDrive) { s with stage := stage, nPos := nPos }) :=
    fun _ _ => .after (follows_move h rfl nofun) (near_of rfl)
  unfold patchDriveCb
  split
  · exact .stay _ (near_of rfl)
  · split
    · exact hnext _ _
    · split
      · obtain ⟨hspun,hcb⟩ := h
        generalize s.finalpatchcb = f at *
        subst hcb
        exact .after (follows_move hspun rfl nofun) (near_of rfl)
      · exact hnext _ s.nPos

theorem fwPatchCb_move (h : Spun s ∧ s.finalpatchcb = some .spinupDrive) (r : Irq) :
    Move d B W b s (fwPatchCb r s) := by
  unfold fwPatchCb
  split
  · exact .after (unlock_move (.inr (.inr (.inl ⟨rfl,h⟩)))) (near_of rfl)
  · split
    · exact .after (patchDriveCb_move h) (near_of rfl)
    · exact .after gettingError_move (near_of rfl)

theorem checkAddonsCb_move (h : Spun s ∧ s.finaladdoncb = some .spinupDrive) (tc : Bool) :
    Move d B W b s (checkAddonsCb tc s) := by
  unfold checkAddonsCb
  simp only
  split
  · refine .after (follows_move h rfl ?_) (near_of rfl)
    intro x hx
    cases hx
    rfl
  · rw [h.2]
    exact .call { s with drivechecked := true, chipPresent := _, finaladdoncb := none } .spinupDrive
      (near_of rfl) ⟨h.1,rfl,nofun⟩

theorem spinupDriveCb_move (h : Spun s) (r : Irq) :
    ∃ s', spinupDriveCb r s = some s' ∧ Move d B W b s s' := by
  have hread : ∀ (x : Di), (none : Option ℕ) = x.target →
      ∀ y, some x = some y → y.target = none := by
    intro x hx y hy
    cases hy
    exact hx.symm
  unfold spinupDriveCb
  split
  · exact ⟨_,rfl,gettingError_move⟩
  · split
    · exact ⟨_,rfl,.after (follows_move ⟨h,rfl⟩ rfl (hread _ rfl)) (near_of rfl)⟩
    · split
      · exact callFinal_move h
      · split
        · exact ⟨_,rfl,unlock_move (.inr (.inl ⟨rfl,h⟩))⟩
        · have hinquiry : ∀ t : Dvd, Spun t → Move d B W b t
              (lowInquiry none .fwPatch { t with finalpatchcb := some .spinupDrive }) :=
            fun t h => .after (follows_move ⟨h,rfl⟩ rfl (hread _ rfl)) (near_of rfl)
          refine ⟨_,rfl,?_⟩
          split
          · exact hinquiry s h
          · exact .after (hinquiry _ h) (reset_near true s)

theorem coverClosedSpinup_move :
    Move d B W b s (stateCoverClosedCmd { s with laststate := some .coverClosedCmd }) :=
  .after coverClosedCmd_move (near_set rfl rfl (fun _ => nofun))

/-- A callback of an interrupt may leave the state of a block that ends unset
for `B`, and may report success for `W`. -/
structure Allows (B W : Prop) (cb : LowCb) (b : ℕ) (r : Irq) (s : Dvd) : Prop where
  stream : cb = .busy → s.currcmd = 6 → (s.blk b).currtxsize = 0 → r.tc = true → r.brk = false →
    r.imm.getLsbD 0 = true → B
  retry : cb = .retry → r.de = true → B
  error : cb = .error → B ∨ (s.blk b).state = -1
  busy : cb = .busy → W
  spinUp : cb = .coverClosed → s.currcmd = 16 → W

theorem lowCall_move (hr : Runs b s) (hf : Follows s cb) (ha : Allows B W cb b r s)
    (hd : coverCloses cb r = true → clears s.currcmd = true → d) :
    ∃ s', lowCall cb b r s = some s' ∧ Move d B W b s s' := by
  cases cb with
  | busy => exact ⟨_,rfl,busyCb_move hr.currcmd (ha.busy rfl) (ha.stream rfl)⟩
  | retry => exact ⟨_,rfl,retryCb_move hr.currcmd (ha.retry rfl)⟩
  | unrecoveredErrorRetry => exact ⟨_,rfl,failState_move⟩
  | unrecoveredError => exact ⟨_,rfl,unrecoveredErrorCb_move r⟩
  | error => exact ⟨_,rfl,errorCb_move (ha.error rfl)⟩
  | gettingError => exact gettingErrorCb_move hr hd
  | motorStopped => exact ⟨_,rfl,coverClosed_move (hd rfl)⟩
  | coverClosed => exact ⟨_,rfl,coverClosedCb_move hr.currcmd (ha.spinUp rfl) r⟩
  | checkId1 => exact ⟨_,rfl,.stay _ (near_of rfl)⟩
  | gotoRetry => exact ⟨_,rfl,gotoRetryCb_move r⟩
  | cntrlDrive => exact ⟨_,rfl,cntrlDriveCb_move hf r⟩
  | setGcmOffset => exact ⟨_,rfl,setGcmOffsetCb_move r hf⟩
  | handleSpinup => exact handleSpinupCb_move hf r
  | fwPatch => exact ⟨_,rfl,fwPatchCb_move hf r⟩
  | checkAddons => exact ⟨_,rfl,checkAddonsCb_move hf r.tc⟩
  | spinupDrive => exact spinupDriveCb_move hf r
  | coverClosedSpinup => exact ⟨_,rfl,coverClosedSpinup_move⟩
  | patchDrive => exact ⟨_,rfl,patchDriveCb_move hf⟩
  | unlockDrive => exact ⟨_,rfl,unlockDrive_move hf⟩

def leavesState (cb : LowCb) : Bool :=
  cb == .cntrlDrive || cb == .setGcmOffset || cb == .handleSpinup || cb == .fwPatch ||
    cb == .spinupDrive

theorem lowTimeout_move (hf : Follows s cb) (hbad : leavesState cb = true → B)
    (hd : cb = .motorStopped → clears s.currcmd = true → d) :
    Move d B W b s (lowTimeout cb b s) := by
  cases cb with
  | motorStopped => exact coverClosed_move (hd rfl)
  | checkId1 => exact .stay _ (near_of rfl)
  | cntrlDrive | setGcmOffset | handleSpinup | fwPatch | spinupDrive =>
    exact stateTimeout_move (.inl (hbad rfl))
  | checkAddons => exact checkAddonsCb_move hf false
  | coverClosedSpinup => exact coverClosedSpinup_move
  | patchDrive => exact patchDriveCb_move hf
  | unlockDrive => exact unlockDrive_move hf
  | _ => exact timedOut_move

end Functions

end Libogc.DvdControl
