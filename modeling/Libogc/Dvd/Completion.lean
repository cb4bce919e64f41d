import Libogc.Dvd.Commands

/-!
# The state of a completed block

The functions that wait for a block look for the states 0, -1 and 10. The
routines that call the callback after an error leave the state to their
callers, and some of these do not set it.
-/

set_option autoImplicit false

namespace Libogc.DvdCompletion
open Option GuardedReach DvdMachine DvdControl DvdCommands Bool

/-- The loop of `DVD_ReadPrio` and the other waiting functions goes on. -/
def keepsWaiting (state : ℤ) : Bool := state != 0 && state != -1 && state != 10

def Told (b : ℕ) (s : Dvd) : Prop :=
  s.callback = some .error → s.masked = false ∨ s.alarm = true → (s.blk b).state = -1

inductive Tells (b : ℕ) (s s' : Dvd) : Prop
  | goes (called : s'.called = s.called) (told : Told b s')
  | ends (c : Call) (called : s'.called = s.called ++ [c]) (state : keepsWaiting c.state = false)

section Functions

variable {b : ℕ} {s t s' : Dvd}

theorem Tells.after (h : t.called = s.called) (h' : Tells b t s') : Tells b s s' := by
  cases h' with
  | goes called told => exact .goes (called.trans h) told
  | ends c called state => exact .ends c (called.trans (congrArg (· ++ [c]) h)) state

theorem Move.tells {W : Prop} (h : Move False False W b s s') (hc : Calm s) : Tells b s s' := by
  cases h with
  | start t cb armed di near ready aim told =>
    refine .goes near.frame.called (fun herr _ => ?_)
    exact (told (some.inj herr)).resolve_left id
  | stay _ near | call t cb near direct =>
    exact .goes near.frame.called (fun herr hlive => absurd hlive ((near.calm hc).dead herr))
  | ends r t near told =>
    refine .ends ⟨b,r,(t.blk b).state⟩ (congrArg (· ++ [_]) near.frame.called) ?_
    rcases told.resolve_left id with h | h | h
    · rw [h]
      rfl
    · rw [h]
      rfl
    · rw [h]
      rfl
  | drops hd => exact absurd hd id

def streamEnds (b : ℕ) (r : Irq) (s : Dvd) : Bool :=
  s.currcmd == 6 && (s.blk b).currtxsize == 0 && r.tc && !r.brk && r.imm.getLsbD 0

/-- The callback sets the state of the block that it ends. The interrupt is
missing when the timeout alarm calls. -/
def settles (b : ℕ) : LowCb → Option Irq → Dvd → Bool
  | .busy, some r, s => !streamEnds b r s
  | .retry, some r, _ => !r.de
  | .cntrlDrive, none, _ => false
  | .setGcmOffset, none, _ => false
  | .handleSpinup, none, _ => false
  | .fwPatch, none, _ => false
  | .spinupDrive, none, _ => false
  | _, _, _ => true

end Functions

section Runs

variable {m : Media} {e : Event} {p b : ℕ} {c : Cmd} {x : LowCb × Option Irq} {s s' : Dvd}

theorem runCall_tells (hr : Runs b s) (hc : Calm s) (hf : Follows s x.1)
    (hset : settles b x.1 x.2 s = true) (hclose : closes x = true → clears s.currcmd = false)
    (hstate : x.1 = .error → (s.blk b).state = -1) (h : runCall x b s = some s') :
    Tells b s s' := by
  obtain ⟨cb,r⟩ := x
  obtain ⟨t,ht,hm⟩ := runCall_move hr hf
    (fun r hx => by
      cases hx
      refine ⟨?_,?_,fun h => .inr (hstate h),fun _ => trivial,fun _ _ => trivial⟩
      · rintro rfl hcmd hsize htc hbrk himm
        simp only [settles, streamEnds, hcmd, hsize, htc, hbrk, himm] at hset
        exact absurd hset false_ne_true
      · rintro rfl hde
        simp [settles, hde] at hset)
    (fun hx hl => by
      cases hx
      cases cb <;> first | exact absurd hset false_ne_true | exact absurd hl false_ne_true)
    (fun hx hclear => absurd ((hclose hx).symm.trans hclear) false_ne_true)
  obtain rfl := mem_unique ht h
  exact Move.tells hm hc

/-- The state of the block that a step ends is set: the cover is not closed
under a command that is dropped then, and the callback sets the state. -/
def Settled (e : Event) (s : Dvd) : Prop :=
  closing e s = false ∧ ∀ x b, callOf e s = some x → s.executing = .block b →
    settles b x.1 x.2 s = true

def Ok (e : Event) (s : Dvd) : Prop := Possible e s ∧ Settled e s

theorem Ok.kept (h : Ok e s) : DvdCommands.Ok e s :=
  ⟨h.1,fun hc => absurd (h.2.1.symm.trans hc) false_ne_true⟩

structure Inv (s : Dvd) : Prop where
  commands : DvdCommands.Inv s
  told : ∀ b, s.executing = .block b → Told b s
  states : ∀ c ∈ s.called, keepsWaiting c.state = false

theorem settles_moved (h : Moved s s') (cb : LowCb) (r : Option Irq) :
    settles b cb r s' = settles b cb r s := by
  have hstream : ∀ r, streamEnds b r s' = streamEnds b r s := by
    intro r
    simp only [streamEnds, h.currcmd, h.blk]
  cases cb <;> cases r <;> simp only [settles, hstream]

theorem error_state (h : DvdCommands.Inv s) (ht : Told b s) (hok : Possible e s)
    (hx : callOf e s = some x) (herr : x.1 = .error) : (s.blk b).state = -1 := by
  cases e with
  | irq r =>
    obtain ⟨cb,hcb,rfl⟩ := map_eq_some_iff.mp hx
    exact ht (hcb.trans (congrArg some herr)) (.inl hok.2.2.1)
  | timeout n =>
    obtain ⟨cb,hcb,rfl⟩ := map_eq_some_iff.mp hx
    exact ht (hcb.trans (congrArg some herr)) (.inr hok.2.2.1)
  | run =>
    obtain ⟨cb,hcb,rfl⟩ := map_eq_some_iff.mp hx
    obtain rfl : cb = .error := herr
    cases h.wf with
    | rest _ calm => exact nomatch calm.tail.symm.trans hcb
    | runs c runs pending => exact absurd (pending.tail _ hcb).kind false_ne_true
  | _ => exact nomatch hx

theorem states_tells (h : ∀ c ∈ s.called, keepsWaiting c.state = false) (ht : Tells b s s') :
    ∀ c ∈ s'.called, keepsWaiting c.state = false := by
  cases ht with
  | goes called told =>
    rw [called]
    exact h
  | ends c called state =>
    rw [called]
    intro k hk
    rcases List.mem_append.mp hk with hk | hk
    · exact h k hk
    · rw [List.mem_singleton.mp hk]
      exact state

theorem Inv.tells (h : Inv s) (hinv : DvdCommands.Inv s') (ht : Tells b s s')
    (hx : s'.executing = .dummy ∨ s'.executing = .block b ∧ s'.called = s.called) : Inv s' := by
  refine ⟨hinv,?_,states_tells h.states ht⟩
  intro k hk
  rcases hx with hx | ⟨hx,hcalled⟩
  · exact nomatch hx.symm.trans hk
  · obtain rfl := Exec.block.inj (hx.symm.trans hk)
    cases ht with
    | goes called told => exact told
    | ends c called state =>
      rw [hcalled] at called
      exact absurd called log_ne

theorem inner_keeps (he : inner e = true) (h : Inv s) (hok : Ok e s)
    (hs : dvdStep m e s = some s') : Inv s' := by
  obtain ⟨t,ht,hinv⟩ := DvdCommands.step_inv h.commands hok.kept
  obtain rfl := mem_unique ht hs
  have hmoved := entered_moved (m := m) e s
  have hcalm := entered_calm (m := m) he h.commands.wf hok.1
  cases hx : callOf e s with
  | none =>
    obtain rfl := mem_unique (inner_quiet he hok.1 hx) hs
    refine ⟨hinv,fun b hb herr hlive => absurd hlive (hcalm.dead herr),?_⟩
    rw [hmoved.called]
    exact h.states
  | some x =>
    obtain ⟨b,hr,hf⟩ := h.commands.wf.follows hok.1 hx
    have hcall := (inner_call hx hr.executing).symm.trans hs
    have hclose : closes x = true → clears (entered m e s).currcmd = false := by
      intro hc
      have hcl := hok.2.1
      rw [closing_of_call hx, hc] at hcl
      rw [hmoved.currcmd]
      exact hcl
    have htells : Tells b (entered m e s) t := by
      refine runCall_tells (hmoved.runs hr) hcalm (hmoved.follows x.1 hf) ?_ hclose ?_ hcall
      · rw [settles_moved hmoved]
        exact hok.2.2 x b hx hr.executing
      · rw [hmoved.blk]
        exact error_state h.commands (h.told b hr.executing) hok.1 hx
    refine h.tells hinv (.after hmoved.called htells) ?_
    obtain ⟨u,hu,ho⟩ := runCall_outcome (d := closing e s = true) (hmoved.runs hr) hcalm
      (hmoved.follows x.1 hf) (by
        intro hc hclear
        exact absurd ((hclose hc).symm.trans hclear) false_ne_true)
    obtain rfl := mem_unique hu hcall
    rcases (Outcome.ran ho).result with ⟨hexec,hcalled⟩ | ⟨hexec,-⟩
    · exact .inr ⟨hexec,hcalled.trans hmoved.called⟩
    · exact .inl hexec

theorem startBlock_tells (hc : Calm s) : Tells b s (startBlock b s) := by
  unfold startBlock
  split
  · exact Move.tells (finish_move (-1) (.inl trivial) (.inr (.inr (.inl rfl)))) hc
  · have hcalm : Calm (setState b 1 { s with executing := .block b, currcmd := (s.blk b).cmd }) :=
      ⟨hc.tail,hc.alarm,hc.callback⟩
    refine .after (t := setState b 1 { s with executing := .block b, currcmd := (s.blk b).cmd }) rfl
      (Move.tells (W := True) (stateBusy_move ?_) hcalm)
    rw [setState, setBlk_self]
    rfl

theorem ready_keeps (hx : ∀ b, s.executing ≠ .block b) (hwf : Wf s)
    (hstates : ∀ c ∈ s.called, keepsWaiting c.state = false)
    (hinv : DvdCommands.Inv (stateReady s)) : Inv (stateReady s) := by
  have hc := hwf.calm hx
  rcases stateReady_cases s with ⟨-,heq⟩ | ⟨p,b,rest,-,-,-,heq⟩
  · refine ⟨hinv,?_,?_⟩
    · intro b hb
      rw [heq] at hb
      exact nomatch hb
    · rw [heq]
      exact hstates
  · have hpop : Calm (popped p b rest s) := ⟨hc.tail,hc.alarm,hc.callback⟩
    have htells : Tells b (popped p b rest s) (stateReady s) := heq ▸ startBlock_tells hpop
    refine ⟨hinv,?_,states_tells (s := popped p b rest s) hstates htells⟩
    intro k hk
    have hran := (startBlock_ran (b := b) hpop).1.result
    rw [← heq] at hran
    rcases hran with ⟨hexec,hcalled⟩ | ⟨hexec,-⟩
    · obtain rfl := Exec.block.inj (hexec.symm.trans hk)
      cases htells with
      | goes called told => exact told
      | ends c called state =>
        rw [hcalled] at called
        exact absurd called log_ne
    · exact nomatch hexec.symm.trans hk

theorem push_told (h : Inv s) (hx : s.executing ≠ .block b) :
    ∀ k, (push p b c s).executing = .block k → Told k (push p b c s) := by
  intro k hk
  have hne : k ≠ b := fun hkb => hx (hkb ▸ hk)
  have hblk : (push p b c s).blk k = s.blk k := Function.update_of_ne hne _ _
  have ht := h.told k hk
  unfold Told at ht ⊢
  rw [hblk]
  exact ht

theorem step_keeps (h : Inv s) (hok : Ok e s) (hs : dvdStep m e s = some s') : Inv s' := by
  obtain ⟨t,ht,hinv⟩ := DvdCommands.step_inv h.commands hok.kept
  obtain rfl := mem_unique ht hs
  cases e with
  | irq r | timeout n | run => exact inner_keeps rfl h hok hs
  | ret =>
    cases hs
    have hdummy : s.executing = .dummy := hok.1
    exact ready_keeps (fun k hk => nomatch hdummy.symm.trans hk) h.commands.wf h.states hinv
  | reset low =>
    cases hs
    exact ⟨hinv,h.told,h.states⟩
  | issue p b c =>
    obtain ⟨-,-,hx,-⟩ := hok.1
    have heq : issueCommand p b c s = t := some.inj hs
    unfold issueCommand at heq
    split at heq
    · rename_i hidle
      subst heq
      exact ready_keeps (fun k hk => nomatch hidle.symm.trans hk) (push_wf h.commands.wf p c hx)
        h.states hinv
    · subst heq
      exact ⟨hinv,push_told h hx,h.states⟩

end Runs

theorem init_inv (blk : ℕ → Block) (mem : ℕ → BitVec 8) : Inv (dvdInit blk mem) :=
  ⟨DvdCommands.init_inv blk mem,nofun,nofun⟩

/-- A block that is called back is done, failed or cancelled, and who waits for
it returns. -/
theorem blocks_complete (m : Media) (blk : ℕ → Block) (mem : ℕ → BitVec 8) {s : Dvd}
    (h : Reach (dvdStep m) Ok (dvdInit blk mem) s) :
    ∀ c ∈ s.called, (c.state = 0 ∨ c.state = -1 ∨ c.state = 10) ∧ keepsWaiting c.state = false := by
  have hinv : Inv s :=
    reach_invariant (init_inv blk mem) (fun e s s' hi hok hs => step_keeps hi hok hs) h
  intro c hc
  have hstate := hinv.states c hc
  refine ⟨?_,hstate⟩
  simp only [keepsWaiting, and_eq_false_iff, bne_eq_false_iff_eq] at hstate
  omega

def settledHere (e : Event) (s : Dvd) : Bool :=
  !closing e s && (callOf e s).all (fun x => match s.executing with
    | .block b => settles b x.1 x.2 s
    | _ => true)

theorem settledHere_settled {e : Event} {s : Dvd} (h : settledHere e s = true) : Settled e s := by
  simp only [settledHere, and_eq_true, not_eq_true', all_eq_true] at h
  refine ⟨h.1,fun x b hx hb => ?_⟩
  have hset := h.2 x hx
  simp only [hb] at hset
  exact hset

/-- A read whose transfer fails: its block is called back after the error was
read. -/
theorem blocks_complete_read : ∃ s c, Reach (dvdStep blank) Ok fresh s ∧ c ∈ s.called ∧
    c.blk = 0 ∧ keepsWaiting c.state = false := by
  have hrun : (runChecked (dvdStep blank) (fun e s => decide (Possible e s) && settledHere e s)
      [.issue 2 0 (readAbsAsyncPrio 8192 32 0),.irq deviceError,.irq (answer 0x00020400),
        .irq (answer 0)] fresh).any (fun s => decide (s.called.map Call.blk = [0])) = true := by
    decide +kernel
  obtain ⟨s,hreach,hd⟩ :=
    run_reaches (check_and (fun _ _ => of_decide_eq_true) fun _ _ => settledHere_settled) hrun
  have hmem : 0 ∈ s.called.map Call.blk := by
    rw [hd]
    exact List.mem_singleton_self 0
  obtain ⟨c,hc,hblk⟩ := List.mem_map.mp hmem
  exact ⟨s,c,hreach,hc,hblk,(blocks_complete blank _ _ hreach c hc).2⟩

/-- The inquiry that comes with the spin-up is not answered: the block is
called back with the state of a running command, and `DVD_SpinUpDrive` waits on. -/
theorem spin_up_waits : ∃ s, Reach (dvdStep blank) Possible fresh s ∧
    s.called = [⟨0,-1,1⟩] ∧ keepsWaiting 1 = true := by
  have hrun : (runChecked (dvdStep blank) (fun e s => decide (Possible e s))
      [.issue 1 0 spinUpDriveAsync,.run,.irq deviceError,.run,.timeout 0] fresh).any
      (fun s => decide (s.called = [⟨0,-1,1⟩] ∧ keepsWaiting 1 = true)) = true := by
    decide +kernel
  exact run_reaches (fun e s h => of_decide_eq_true h) hrun

end Libogc.DvdCompletion
