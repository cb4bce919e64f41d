import Libogc.Dvd.Control
import Mathlib.Tactic.IntervalCases

/-!
# No command is lost

A block waits in the queue of its priority, is executed, or is called back. The
queues are emptied when the cover was closed under some commands, so a block
that waits then is lost.
-/

set_option autoImplicit false

namespace Libogc.DvdCommands
open Function GuardedReach DvdMachine DvdControl List Option Prod

inductive Wf (s : Dvd) : Prop
  | rest (h : s.executing = .idle ∨ s.executing = .dummy) (calm : Calm s)
  | runs (b : ℕ) (runs : Runs b s) (pending : Pending b s)

variable {e : Event} {x : LowCb × Option Irq}

section Wf

variable {m : Media} {d : Prop} {b : ℕ} {s s' : Dvd} {cb : LowCb} {n : ℕ}

theorem Outcome.wf (h : Outcome d b s s') : Wf s' := by
  cases h with
  | goes frame runs pending => exact .runs b runs pending
  | ends r t frame calm h | drops hd t frame calm h =>
    subst h
    exact .rest (.inr rfl) ⟨calm.tail,calm.alarm,calm.callback⟩

structure Moved (s s' : Dvd) : Prop where
  executing : s'.executing = s.executing
  queue : s'.queue = s.queue
  blk : s'.blk = s.blk
  currcmd : s'.currcmd = s.currcmd
  laststate : s'.laststate = s.laststate
  issued : s'.issued = s.issued
  started : s'.started = s.started
  called : s'.called = s.called
  follows : ∀ cb, Follows s cb → Follows s' cb

theorem moveData_moved (n : ℕ) (s : Dvd) : Moved s (moveData m n s) := by
  unfold moveData
  split
  · exact ⟨rfl,rfl,rfl,rfl,rfl,rfl,rfl,rfl,fun _ h => h⟩
  · refine ⟨rfl,rfl,rfl,rfl,rfl,rfl,rfl,rfl,?_⟩
    intro cb h
    cases cb <;> exact h

theorem moveData_tail (n : ℕ) (s : Dvd) : (moveData m n s).tail = s.tail := by
  unfold moveData
  split <;> rfl

theorem Moved.runs (h : Moved s s') (hr : Runs b s) : Runs b s' := by
  refine ⟨h.executing.trans hr.executing,?_,?_⟩
  · rw [h.currcmd, h.blk]
    exact hr.currcmd
  · rw [h.laststate]
    exact hr.laststate

def taken (m : Media) (n : ℕ) (s : Dvd) : Dvd :=
  { moveData m n s with alarm := false, callback := none }

def alarmed (m : Media) (n : ℕ) (s : Dvd) : Dvd :=
  { moveData m n s with alarm := false, masked := true }

theorem Moved.set (h : Moved s s') (masked : Bool) (cb : Option LowCb) :
    Moved s { s' with alarm := false, masked := masked, callback := cb } := by
  refine ⟨h.executing,h.queue,h.blk,h.currcmd,h.laststate,h.issued,h.started,h.called,?_⟩
  intro cb hcb
  have hcb' := h.follows cb hcb
  cases cb <;> exact hcb'

theorem taken_moved (n : ℕ) (s : Dvd) : Moved s (taken m n s) := (moveData_moved n s).set _ none

theorem alarmed_moved (n : ℕ) (s : Dvd) : Moved s (alarmed m n s) :=
  (moveData_moved n s).set true _

theorem taken_calm (ht : s.tail = none) : Calm (taken m n s) :=
  ⟨(moveData_tail n s).trans ht,rfl,.inl rfl⟩

theorem alarmed_calm (ht : s.tail = none) : Calm (alarmed m n s) :=
  ⟨(moveData_tail n s).trans ht,rfl,.inr rfl⟩

/-! The steps on the executing block. -/

def callOf : Event → Dvd → Option (LowCb × Option Irq)
  | .irq r, s => s.callback.map (fun cb => (cb,some r))
  | .timeout _, s => s.callback.map (fun cb => (cb,none))
  | .run, s => s.tail.map (fun cb => (cb,some direct))
  | _, _ => none

def closing (e : Event) (s : Dvd) : Bool :=
  (callOf e s).any (fun x => match x.2 with
    | some r => coverCloses x.1 r
    | none => x.1 == .motorStopped) && clears s.currcmd

def inner : Event → Bool
  | .irq _ => true
  | .timeout _ => true
  | .run => true
  | _ => false

theorem Wf.follows (h : Wf s) (hok : Possible e s) (hx : callOf e s = some x) :
    ∃ b, Runs b s ∧ Follows s x.1 := by
  have hlive : (s.callback = some x.1 ∧ (s.masked = false ∨ s.alarm = true)) ∨
      s.tail = some x.1 := by
    cases e with
    | irq r =>
      obtain ⟨cb,hcb,rfl⟩ := map_eq_some_iff.mp hx
      exact .inl ⟨hcb,.inl hok.2.2.1⟩
    | timeout n =>
      obtain ⟨cb,hcb,rfl⟩ := map_eq_some_iff.mp hx
      exact .inl ⟨hcb,.inr hok.2.2.1⟩
    | run =>
      obtain ⟨cb,hcb,rfl⟩ := map_eq_some_iff.mp hx
      exact .inr hcb
    | _ => exact nomatch hx
  cases h with
  | rest h calm =>
    rcases hlive with ⟨hcb,hlive⟩ | htail
    · exact absurd hlive (calm.dead hcb)
    · exact nomatch calm.tail.symm.trans htail
  | runs b runs pending =>
    rcases hlive with ⟨hcb,hlive⟩ | htail
    · exact ⟨b,runs,(pending.callback _ hcb hlive).follows⟩
    · exact ⟨b,runs,(pending.tail _ htail).follows⟩

theorem runTail_eq (ht : s.tail = some cb) (hx : s.executing = .block b) :
    runTail s = lowCall cb b direct { s with tail := none } := by
  unfold runTail
  split
  · rename_i ht' hx'
    obtain rfl := mem_unique ht' ht
    obtain rfl := Exec.block.inj (hx'.symm.trans hx)
    rfl
  · rename_i hne
    exact absurd hx (hne cb b ht)

def entered (m : Media) : Event → Dvd → Dvd
  | .irq r, s => taken m r.moved s
  | .timeout n, s => alarmed m n s
  | .run, s => { s with tail := none }
  | _, s => s

theorem entered_moved (e : Event) (s : Dvd) : Moved s (entered m e s) := by
  have hfollows : ∀ cb, Follows s cb → Follows { s with tail := none } cb := by
    intro cb h
    cases cb <;> exact h
  cases e with
  | irq r => exact taken_moved r.moved s
  | timeout n => exact alarmed_moved n s
  | run => exact ⟨rfl,rfl,rfl,rfl,rfl,rfl,rfl,rfl,hfollows⟩
  | _ => exact ⟨rfl,rfl,rfl,rfl,rfl,rfl,rfl,rfl,fun _ h => h⟩

theorem entered_calm (he : inner e = true) (h : Wf s) (hok : Possible e s) :
    Calm (entered m e s) := by
  cases e with
  | irq r => exact taken_calm hok.2.1
  | timeout n => exact alarmed_calm hok.2.1
  | run =>
    cases h with
    | rest _ calm => exact ⟨rfl,calm.alarm,calm.callback⟩
    | runs b runs pending => exact ⟨rfl,(pending.apart hok).1,(pending.apart hok).2⟩
  | _ => exact absurd he Bool.false_ne_true

def runCall (x : LowCb × Option Irq) (b : ℕ) (s : Dvd) : Option Dvd :=
  match x.2 with
  | some r => lowCall x.1 b r s
  | none => some (lowTimeout x.1 b s)

theorem inner_call (hx : callOf e s = some x) (hr : s.executing = .block b) :
    dvdStep m e s = runCall x b (entered m e s) := by
  cases e with
  | irq r =>
    obtain ⟨cb,hcb,rfl⟩ := map_eq_some_iff.mp hx
    simp only [dvdStep, interrupt, hcb, hr]
    rfl
  | timeout n =>
    obtain ⟨cb,hcb,rfl⟩ := map_eq_some_iff.mp hx
    simp only [dvdStep, timeoutHandler, hcb, hr]
    rfl
  | run =>
    obtain ⟨cb,hcb,rfl⟩ := map_eq_some_iff.mp hx
    exact runTail_eq hcb hr
  | _ => exact nomatch hx

theorem inner_quiet (he : inner e = true) (hok : Possible e s) (hx : callOf e s = none) :
    dvdStep m e s = some (entered m e s) := by
  cases e with
  | irq r =>
    have hcb := map_eq_none_iff.mp hx
    simp only [dvdStep, interrupt, hcb]
    rfl
  | timeout n =>
    have hcb := map_eq_none_iff.mp hx
    simp only [dvdStep, timeoutHandler, hcb]
    rfl
  | run => exact absurd (map_eq_none_iff.mp hx) hok
  | _ => exact absurd he Bool.false_ne_true

def closes (x : LowCb × Option Irq) : Bool :=
  match x.2 with
  | some r => coverCloses x.1 r
  | none => x.1 == .motorStopped

theorem closing_of_call (hx : callOf e s = some x) :
    closing e s = (closes x && clears s.currcmd) := by
  unfold closing
  rw [hx]
  rfl

theorem runCall_move {B W : Prop} (hr : Runs b s) (hf : Follows s x.1)
    (ha : ∀ r, x.2 = some r → Allows B W x.1 b r s) (hbad : x.2 = none → leavesState x.1 = true → B)
    (hd : closes x = true → clears s.currcmd = true → d) :
    ∃ s', runCall x b s = some s' ∧ Move d B W b s s' := by
  obtain ⟨cb,r⟩ := x
  cases r with
  | some r => exact lowCall_move hr hf (ha r rfl) hd
  | none => exact ⟨_,rfl,lowTimeout_move hf (hbad rfl) (fun h => hd (beq_iff_eq.mpr h))⟩

theorem runCall_any (hr : Runs b s) (hf : Follows s x.1)
    (hd : closes x = true → clears s.currcmd = true → d) :
    ∃ s', runCall x b s = some s' ∧ Move d True True b s s' :=
  runCall_move hr hf
    (fun _ _ => ⟨fun _ _ _ _ _ _ => trivial,fun _ _ => trivial,fun _ => .inl trivial,
    fun _ => trivial,fun _ _ => trivial⟩) (fun _ _ => trivial) hd

theorem runCall_outcome (hr : Runs b s) (hc : Calm s) (hf : Follows s x.1)
    (hd : closes x = true → clears s.currcmd = true → d) :
    ∃ s', runCall x b s = some s' ∧ Outcome d b s s' := by
  obtain ⟨s',hs',hm⟩ := runCall_any hr hf hd
  exact ⟨s',hs',hm.outcome hr hc⟩

theorem inner_outcome (he : inner e = true) (h : Wf s) (hok : Possible e s) :
    ∃ s', dvdStep m e s = some s' ∧ ((callOf e s = none ∧ Moved s s' ∧ Calm s') ∨
      ∃ b t, Runs b s ∧ Moved s t ∧ Calm t ∧ Outcome (closing e s = true) b t s') := by
  have hmoved := entered_moved (m := m) e s
  have hcalm := entered_calm (m := m) he h hok
  cases hx : callOf e s with
  | none => exact ⟨_,inner_quiet he hok hx,.inl ⟨rfl,hmoved,hcalm⟩⟩
  | some x =>
    obtain ⟨b,hr,hf⟩ := h.follows hok hx
    obtain ⟨s',hs',ho⟩ := runCall_outcome (d := closing e s = true) (hmoved.runs hr) hcalm
      (hmoved.follows x.1 hf) (by
        intro hclose hclear
        rw [hmoved.currcmd] at hclear
        rw [closing_of_call hx, hclose, hclear]
        rfl)
    exact ⟨s',(inner_call hx hr.executing).trans hs',.inr ⟨b,_,hr,hmoved,hcalm,ho⟩⟩

end Wf

/-! The queues. -/

def execs (s : Dvd) (b : ℕ) : ℕ := if s.executing = .block b then 1 else 0

def waits (s : Dvd) (b : ℕ) : ℕ := (waiting s).count b

def ofPrio (p : ℕ) (l : List (ℕ × ℕ)) : List ℕ :=
  (l.filter (fun x => decide (x.2 = p))).map Prod.fst

structure Books (s : Dvd) : Prop where
  fifo : ∀ p < 4, ofPrio p s.issued = ofPrio p s.started ++ s.queue p
  done : ∀ b, (s.started.map Prod.fst).count b = (s.called.map Call.blk).count b+execs s b
  once : ∀ b, waits s b+execs s b ≤ 1
  prios : ∀ x ∈ s.issued, x.2 < 4
  starts : ∀ x ∈ s.started, x.2 < 4

structure Ran (d : Prop) (b : ℕ) (s s' : Dvd) : Prop where
  queue : s'.queue = s.queue ∨ d ∧ s'.queue = fun _ => []
  issued : s'.issued = s.issued
  started : s'.started = s.started
  result : (s'.executing = .block b ∧ s'.called = s.called) ∨
    (s'.executing = .dummy ∧ ∃ c : Call, c.blk = b ∧ s'.called = s.called ++ [c])

section Books

variable {d : Prop} {p b : ℕ} {rest : List ℕ} {s s' t : Dvd}

theorem log_ne {α : Type*} {l : List α} {x : α} : l ≠ l ++ [x] :=
  fun h => cons_ne_nil x [] (self_eq_append_right.mp h)

theorem Ran.queue_eq (h : Ran False b s s') : s'.queue = s.queue :=
  h.queue.resolve_right (fun hd => hd.1)

theorem Outcome.ran (h : Outcome d b s s') : Ran d b s s' := by
  cases h with
  | goes frame runs pending =>
    exact ⟨.inl frame.queue,frame.issued,frame.started,.inl ⟨runs.executing,frame.called⟩⟩
  | ends r t frame calm h =>
    subst h
    refine ⟨.inl frame.queue,frame.issued,frame.started,.inr ⟨rfl,⟨b,r,(t.blk b).state⟩,rfl,?_⟩⟩
    change t.called ++ _ = _
    rw [frame.called]
  | drops hd t frame calm h =>
    subst h
    refine ⟨.inr ⟨hd,rfl⟩,frame.issued,frame.started,.inr ⟨rfl,⟨b,-4,(t.blk b).state⟩,rfl,?_⟩⟩
    change t.called ++ _ = _
    rw [frame.called]

theorem waits_update (hp : p < 4) (hq : t.queue = update s.queue p rest) (b : ℕ) :
    waits t b+(s.queue p).count b = waits s b+rest.count b := by
  unfold waits waiting
  rw [hq]
  interval_cases p <;> simp [count_append] <;> omega

theorem waits_zero (h : waiting s = []) (b : ℕ) : waits s b = 0 := by simp [waits, h]

theorem queue_of_waiting (h : waiting s = []) (hp : p < 4) : s.queue p = [] := by
  simp only [waiting, append_eq_nil_iff] at h
  interval_cases p
  · exact h.1.1.1
  · exact h.1.1.2
  · exact h.1.2
  · exact h.2

theorem ofPrio_append (p : ℕ) (l : List (ℕ × ℕ)) (x : ℕ × ℕ) :
    ofPrio p (l ++ [x]) = ofPrio p l ++ if x.2 = p then [x.1] else [] := by
  unfold ofPrio
  by_cases h : x.2 = p <;> simp [h]

theorem count_prios (l : List (ℕ × ℕ)) (h : ∀ x ∈ l, x.2 < 4) (b : ℕ) :
    (l.map Prod.fst).count b = (ofPrio 0 l).count b+(ofPrio 1 l).count b+(ofPrio 2 l).count b+
      (ofPrio 3 l).count b := by
  induction l with
  | nil => rfl
  | cons x l ih =>
    have hx : x.2 < 4 := h x mem_cons_self
    have htail := ih (fun y hy => h y (mem_cons_of_mem _ hy))
    obtain ⟨c,p⟩ := x
    rw [map_cons, count_cons, htail]
    have hcons : ∀ q, (ofPrio q ((c,p)::l)).count b =
        (ofPrio q l).count b+if p = q ∧ c = b then 1 else 0 := by
      intro q
      by_cases hq : p = q
      · simp [ofPrio, hq, count_cons]
      · simp [ofPrio, hq]
    simp only [hcons]
    by_cases hc : c = b
    · interval_cases p <;> simp [hc] <;> omega
    · simp [hc]

theorem Ran.counts (hr : Ran d b s s') (c : ℕ) : (s'.called.map Call.blk).count c+execs s' c =
    (s.called.map Call.blk).count c+if b = c then 1 else 0 := by
  rcases hr.result with ⟨hx,hc⟩ | ⟨hx,x,rfl,hc⟩
  · simp [execs, hx, hc]
  · simp [execs, hx, hc, count_singleton]

theorem Ran.execs_le (hr : Ran d b s s') (c : ℕ) : execs s' c ≤ if b = c then 1 else 0 := by
  unfold execs
  rcases hr.result with ⟨hx',-⟩ | ⟨hx',-⟩
  · simp [hx']
  · simp [hx']

def Once (s : Dvd) : Prop := ∀ b, waits s b+execs s b ≤ 1

theorem Once.ran (h : Once s) (hx : s.executing = .block b) (hr : Ran d b s s') : Once s' := by
  intro c
  have hwaits : waits s' c ≤ waits s c := by
    unfold waits waiting
    rcases hr.queue with hq | ⟨-,hq⟩
    · rw [hq]
    · rw [hq]
      exact Nat.zero_le _
  have hle : execs s' c ≤ execs s c := by
    have hbc := hr.execs_le c
    have hexec : execs s c = if b = c then 1 else 0 := by simp [execs, hx]
    rw [hexec]
    exact hbc
  have := h c
  omega

theorem Books.ran (h : Books s) (hx : s.executing = .block b) (hr : Ran d b s s')
    (hd : d → waiting s = []) : Books s' := by
  have hqueue : ∀ p < 4, s'.queue p = s.queue p := by
    intro p hp
    rcases hr.queue with hq | ⟨hdrop,hq⟩
    · rw [hq]
    · rw [hq, queue_of_waiting (hd hdrop) hp]
  refine ⟨?_,?_,?_,?_,?_⟩
  · intro p hp
    rw [hr.issued, hr.started, hqueue p hp]
    exact h.fifo p hp
  · intro c
    rw [hr.started, h.done c, hr.counts c]
    simp [execs, hx]
  · exact Once.ran h.once hx hr
  · rw [hr.issued]
    exact h.prios
  · rw [hr.started]
    exact h.starts

def popped (p b : ℕ) (rest : List ℕ) (s : Dvd) : Dvd :=
  { s with queue := update s.queue p rest, started := s.started ++ [(b,p)] }

theorem Once.popped (h : Once s) (hp : p < 4) (hq : s.queue p = b::rest)
    (hr : Ran False b (popped p b rest s) s') : Once s' := by
  have hqueue : s'.queue = update s.queue p rest := hr.queue_eq
  intro c
  have hu := waits_update hp hqueue c
  have ho := h c
  have hexec := hr.execs_le c
  rw [hq, count_cons] at hu
  by_cases hc : b = c
  · simp only [hc, beq_self_eq_true] at hu hexec
    omega
  · simp only [beq_iff_eq] at hu hexec
    omega

theorem Books.popped (h : Books s) (hx : ∀ c, s.executing ≠ .block c) (hp : p < 4)
    (hq : s.queue p = b::rest) (hr : Ran False b (popped p b rest s) s') : Books s' := by
  have hqueue : s'.queue = update s.queue p rest := hr.queue_eq
  have hstarted : s'.started = s.started ++ [(b,p)] := hr.started
  have hidle : ∀ c, execs s c = 0 := fun c => if_neg (hx c)
  have hcalls : s.called = (DvdCommands.popped p b rest s).called := rfl
  refine ⟨?_,?_,?_,?_,?_⟩
  · intro q hq'
    rw [hr.issued, hstarted, hqueue, ofPrio_append]
    change ofPrio q s.issued = _
    rw [h.fifo q hq']
    by_cases hpq : p = q
    · subst hpq
      simp [hq]
    · simp [hpq, update_of_ne (Ne.symm hpq)]
  · intro c
    have hc := hr.counts c
    rw [hstarted, map_append, count_append, h.done c, hidle c, hc, hcalls]
    simp [count_singleton]
  · exact Once.popped h.once hp hq hr
  · rw [hr.issued]
    exact h.prios
  · rw [hstarted]
    intro x hx
    rcases mem_append.mp hx with hx | hx
    · exact h.starts x hx
    · rw [mem_singleton.mp hx]
      exact hp

theorem Once.push (h : Once s) (c : Cmd) (hp : p < 4) (hb : b ∉ waiting s)
    (hx : s.executing ≠ .block b) : Once (push p b c s) := by
  intro x
  have hu := waits_update (t := DvdMachine.push p b c s) hp rfl x
  rw [count_append, count_singleton] at hu
  have ho := h x
  change _+execs s x ≤ 1
  by_cases hbx : b = x
  · subst hbx
    have h0 : waits s b = 0 := count_eq_zero_of_not_mem hb
    have h1 : execs s b = 0 := if_neg hx
    simp only [beq_self_eq_true, if_true] at hu
    omega
  · simp only [hbx, beq_iff_eq, if_false] at hu
    omega

theorem Books.push (h : Books s) (c : Cmd) (hp : p < 4) (hb : b ∉ waiting s)
    (hx : s.executing ≠ .block b) : Books (push p b c s) := by
  refine ⟨?_,h.done,?_,?_,h.starts⟩
  · intro q hq
    change ofPrio q (s.issued ++ [(b,p)]) = ofPrio q s.started ++ update s.queue p _ q
    rw [ofPrio_append, h.fifo q hq]
    by_cases hpq : p = q
    · subst hpq
      simp
    · simp [hpq, update_of_ne (Ne.symm hpq)]
  · exact Once.push h.once c hp hb hx
  · intro x hx
    rcases mem_append.mp hx with hx | hx
    · exact h.prios x hx
    · rw [mem_singleton.mp hx]
      exact hp

theorem stateReady_cases (s : Dvd) :
    (waiting s = [] ∧ stateReady s = { s with executing := .idle }) ∨
      ∃ p b rest, p < 4 ∧ s.queue p = b::rest ∧ (∀ q < p, s.queue q = []) ∧
        stateReady s = startBlock b (popped p b rest s) := by
  cases hn : nextPrio s with
  | none =>
    left
    have hall := find?_eq_none.mp hn
    have hq : ∀ p < 4, s.queue p = [] := fun p hp => by
      simpa using hall p (mem_range.mpr hp)
    refine ⟨?_,?_⟩
    · simp [waiting, hq 0, hq 1, hq 2, hq 3]
    · simp only [stateReady, hn]
  | some p =>
    right
    obtain ⟨hp,hmem,hfirst⟩ := find?_range_eq_some.mp hn
    cases hq : s.queue p with
    | nil => simp [hq] at hp
    | cons b rest =>
      refine ⟨p,b,rest,mem_range.mp hmem,hq,?_,?_⟩
      · intro q hlt
        simpa using hfirst q hlt
      · simp only [stateReady, hn, hq]
        rfl

theorem startBlock_ran (hc : Calm s) : Ran False b s (startBlock b s) ∧ Wf (startBlock b s) := by
  unfold startBlock
  split
  · have ho : Outcome False b s (finish b (-1) (setState b (-1) s)) := finish_outcome hc (-1) (-1)
    exact ⟨Outcome.ran ho,Outcome.wf ho⟩
  · have hcmd : (setState b 1 { s with executing := .block b, currcmd := (s.blk b).cmd }).currcmd =
        ((setState b 1 { s with executing := .block b, currcmd := (s.blk b).cmd }).blk b).cmd := by
      rw [setState, setBlk_self]
      rfl
    have ho : Outcome False b _ (stateBusy b (setState b 1 { s with
        executing := .block b, currcmd := (s.blk b).cmd })) :=
      stateBusy_outcome rfl hcmd ⟨hc.tail,hc.alarm,hc.callback⟩
    have hr := Outcome.ran ho
    exact ⟨⟨hr.queue,hr.issued,hr.started,hr.result⟩,Outcome.wf ho⟩

def Idle (s : Dvd) : Prop := s.executing = .idle → waiting s = []

theorem stateReady_books (h : Books s) (hc : Calm s) (hx : ∀ c, s.executing ≠ .block c) :
    Books (stateReady s) ∧ Wf (stateReady s) ∧ Idle (stateReady s) := by
  rcases stateReady_cases s with ⟨hw,heq⟩ | ⟨p,b,rest,hp,hq,-,heq⟩
  · rw [heq]
    refine ⟨⟨h.fifo,?_,?_,h.prios,h.starts⟩,.rest (.inl rfl) ⟨hc.tail,hc.alarm,hc.callback⟩,
      fun _ => hw⟩
    · intro c
      have hd := h.done c
      rw [execs, if_neg (hx c)] at hd
      exact hd
    · intro c
      have ho := h.once c
      rw [execs, if_neg (hx c)] at ho
      exact ho
  · rw [heq]
    have hpop : Calm (popped p b rest s) := ⟨hc.tail,hc.alarm,hc.callback⟩
    obtain ⟨hr,hwf⟩ := startBlock_ran hpop
    refine ⟨h.popped hx hp hq hr,hwf,?_⟩
    intro hidle
    rcases hr.result with ⟨hx',-⟩ | ⟨hx',-⟩
    · exact nomatch hx'.symm.trans hidle
    · exact nomatch hx'.symm.trans hidle

/-! Runs. -/

structure Inv (s : Dvd) : Prop where
  wf : Wf s
  books : Books s
  idle : Idle s

/-- Nothing waits when the cover counts as closed under a command that drops
the waiting blocks. -/
def Kept (e : Event) (s : Dvd) : Prop := closing e s = true → waiting s = []

def Ok (e : Event) (s : Dvd) : Prop := Possible e s ∧ Kept e s

theorem init_inv (blk : ℕ → Block) (mem : ℕ → BitVec 8) : Inv (dvdInit blk mem) :=
  ⟨.rest (.inl rfl) ⟨rfl,rfl,.inl rfl⟩,⟨fun _ _ => rfl,fun _ => rfl,fun _ =>
    Nat.zero_le 1,nofun,nofun⟩,
    fun _ => rfl⟩

variable {m : Media} {e : Event}

theorem Wf.calm (h : Wf s) (hx : ∀ c, s.executing ≠ .block c) : Calm s := by
  cases h with
  | rest _ calm => exact calm
  | runs b runs _ => exact absurd runs.executing (hx b)

theorem Pending.congr {b : ℕ} (h : Pending b s) (hcb : s'.callback = s.callback)
    (htail : s'.tail = s.tail) (hmasked : s'.masked = s.masked) (halarm : s'.alarm = s.alarm)
    (hcmd : s'.currcmd = s.currcmd) (hf : ∀ cb, Follows s cb → Follows s' cb)
    (hdi : s'.di = s.di) (hdma : s'.dmaLen = s.dmaLen) (hblk : s'.blk b = s.blk b) :
    Pending b s' := by
  refine ⟨?_,?_,?_⟩
  · intro cb hx hlive
    rw [hcb] at hx
    rw [hmasked, halarm] at hlive
    have hr := h.callback cb hx hlive
    refine ⟨hf cb hr.follows,fun hb htr => ?_⟩
    rw [hcmd] at htr
    have hp := hr.piece hb htr
    rw [hblk]
    exact ⟨hdi.trans hp.di,hdma.trans hp.dmaLen,hp.size⟩
  · intro cb hx
    rw [htail] at hx
    have hd := h.tail cb hx
    refine ⟨hf cb hd.follows,hd.kind,fun hb => ?_⟩
    rw [hcmd]
    exact hd.size hb
  · intro hne
    rw [htail] at hne
    rw [halarm, hcb, hmasked]
    exact h.apart hne

theorem push_wf (h : Wf s) (p : ℕ) (c : Cmd) (hx : s.executing ≠ .block b) : Wf (push p b c s) := by
  cases h with
  | rest hx calm => exact .rest hx ⟨calm.tail,calm.alarm,calm.callback⟩
  | runs b' runs pending =>
    have hne : b' ≠ b := fun hb => hx (hb ▸ runs.executing)
    have hblk : (push p b c s).blk b' = s.blk b' := update_of_ne hne _ _
    refine .runs b' ⟨runs.executing,?_,runs.laststate⟩ ?_
    · rw [hblk]
      exact runs.currcmd
    · refine Pending.congr pending rfl rfl rfl rfl rfl ?_ rfl rfl hblk
      intro cb hcb
      cases cb <;> exact hcb

theorem reset_wf (h : Wf s) (low : Bool) : Wf (dvdReset low s) := by
  cases h with
  | rest hx calm => exact .rest hx ⟨calm.tail,calm.alarm,calm.callback⟩
  | runs b runs pending =>
    refine .runs b ⟨runs.executing,runs.currcmd,runs.laststate⟩ ?_
    refine Pending.congr pending rfl rfl rfl rfl rfl ?_ rfl rfl rfl
    intro cb hcb
    cases cb <;> exact hcb

theorem Moved.books (hm : Moved s s') (h : Books s) : Books s' := by
  refine ⟨?_,?_,?_,?_,?_⟩
  · rw [hm.issued, hm.started, hm.queue]
    exact h.fifo
  · rw [hm.started, hm.called]
    unfold execs
    rw [hm.executing]
    exact h.done
  · unfold waits waiting execs
    rw [hm.queue, hm.executing]
    exact h.once
  · rw [hm.issued]
    exact h.prios
  · rw [hm.started]
    exact h.starts

theorem Moved.waiting (hm : Moved s s') : waiting s' = waiting s := by
  unfold DvdMachine.waiting
  rw [hm.queue]

theorem inner_inv (he : inner e = true) (h : Wf s) (hok : Possible e s) :
    ∃ s', dvdStep m e s = some s' ∧ Wf s' ∧ (Inv s → Kept e s → Inv s') := by
  obtain ⟨s',hs',hcase⟩ := inner_outcome he h hok
  refine ⟨s',hs',?_⟩
  rcases hcase with ⟨-,hm,hcalm⟩ | ⟨b,t,hr,hm,hcalm,ho⟩
  · have hwf : Wf s' := by
      cases h with
      | rest hx _ =>
        rw [← hm.executing] at hx
        exact .rest hx hcalm
      | runs b runs _ => exact .runs b (hm.runs runs) (.of_calm hcalm)
    refine ⟨hwf,fun hinv _ => ⟨hwf,hm.books hinv.books,?_⟩⟩
    intro hidle
    rw [hm.waiting]
    exact hinv.idle (hm.executing.symm.trans hidle)
  · refine ⟨Outcome.wf ho,fun hinv hkept => ⟨Outcome.wf ho,?_,?_⟩⟩
    · refine (hm.books hinv.books).ran (hm.executing.trans hr.executing) (Outcome.ran ho) ?_
      rw [hm.waiting]
      exact hkept
    · intro hidle
      rcases (Outcome.ran ho).result with ⟨hx,-⟩ | ⟨hx,-⟩
      · exact nomatch hx.symm.trans hidle
      · exact nomatch hx.symm.trans hidle

theorem issue_inv {c : Cmd} (h : Inv s) (hok : Possible (.issue p b c) s) :
    Inv (issueCommand p b c s) := by
  obtain ⟨hp,hb,hx,-⟩ := hok
  have hbooks := h.books.push c hp hb hx
  have hwf := push_wf h.wf p c hx
  unfold issueCommand
  split
  · rename_i hidle
    have hne : ∀ k, (push p b c s).executing ≠ .block k := fun k hk => nomatch hidle.symm.trans hk
    obtain ⟨h1,h2,h3⟩ := stateReady_books hbooks (hwf.calm hne) hne
    exact ⟨h2,h1,h3⟩
  · rename_i hne
    exact ⟨hwf,hbooks,fun hidle => absurd hidle hne⟩

theorem ret_inv (h : Inv s) (hok : Possible .ret s) : Inv (stateReady s) := by
  have hne : ∀ k, s.executing ≠ .block k := fun k hk => nomatch (Eq.symm hok).trans hk
  obtain ⟨h1,h2,h3⟩ := stateReady_books h.books (h.wf.calm hne) hne
  exact ⟨h2,h1,h3⟩

theorem step_inv (h : Inv s) (hok : Ok e s) : ∃ s', dvdStep m e s = some s' ∧ Inv s' := by
  cases e with
  | issue p b c => exact ⟨_,rfl,issue_inv h hok.1⟩
  | ret => exact ⟨_,rfl,ret_inv h hok.1⟩
  | reset low =>
    exact ⟨_,rfl,reset_wf h.wf low,⟨h.books.fifo,h.books.done,h.books.once,h.books.prios,
      h.books.starts⟩,h.idle⟩
  | irq r | timeout n | run =>
    obtain ⟨s',hs',-,hinv⟩ := inner_inv rfl h.wf hok.1
    exact ⟨s',hs',hinv h hok.2⟩

theorem stateReady_first {x : ℕ × ℕ} (hx : (stateReady s).started = s.started ++ [x]) :
    x.2 < 4 ∧ (∀ q < x.2, s.queue q = []) ∧ ∃ rest, s.queue x.2 = x.1::rest := by
  rcases stateReady_cases s with ⟨-,heq⟩ | ⟨p,b,rest,hp,hq,hfirst,heq⟩
  · rw [heq] at hx
    exact absurd hx log_ne
  · have hstart : (stateReady s).started = s.started ++ [(b,p)] := by
      rw [heq]
      unfold startBlock
      split
      · rfl
      · have hbusy : ∀ t : Dvd, (stateBusy b t).started = t.started := by
          intro t
          unfold stateBusy readChunk
          simp only
          split <;> rfl
        exact hbusy _
    rw [hstart] at hx
    obtain rfl := singleton_inj.mp (append_cancel_left hx)
    exact ⟨hp,hfirst,rest,hq⟩

theorem step_first {x : ℕ × ℕ} (h : Inv s) (hok : Possible e s) (hs : dvdStep m e s = some s')
    (hx : s'.started = s.started ++ [x]) : ∀ q < x.2, s.queue q = [] := by
  have hinner : inner e = true → s'.started = s.started := by
    intro he
    obtain ⟨t,ht,hcase⟩ := inner_outcome he h.wf hok
    obtain rfl := mem_unique ht hs
    rcases hcase with ⟨-,hm,-⟩ | ⟨b,u,-,hm,-,ho⟩
    · exact hm.started
    · exact (Outcome.ran ho).started.trans hm.started
  have hsame : s'.started ≠ s.started := by
    intro heq
    rw [heq] at hx
    exact absurd hx log_ne
  cases e with
  | issue p b c =>
    cases hs
    unfold issueCommand at hx hsame
    split at hx
    · rename_i hidle
      obtain ⟨hp,-,-⟩ := stateReady_first hx
      exact fun q hq => queue_of_waiting (h.idle hidle) (by omega)
    · rename_i hidle
      rw [if_neg hidle] at hsame
      exact absurd rfl hsame
  | ret =>
    cases hs
    exact (stateReady_first hx).2.1
  | reset low =>
    cases hs
    exact absurd rfl hsame
  | irq r | timeout n | run => exact absurd (hinner rfl) hsame

end Books

/-- Every issued block waits in the queue of its priority, is executed or is
called back, once for each time it was issued; the blocks of a priority start
in their order, and none while a higher priority waits. -/
theorem no_command_lost (m : Media) (blk : ℕ → Block) (mem : ℕ → BitVec 8) {s : Dvd}
    (h : Reach (dvdStep m) Ok (dvdInit blk mem) s) :
    (∀ b, (s.issued.map Prod.fst).count b =
      (s.called.map Call.blk).count b+waits s b+execs s b ∧ waits s b+execs s b ≤ 1) ∧
    (∀ p < 4, ofPrio p s.issued = ofPrio p s.started ++ s.queue p) ∧
    (∀ e s' x, Ok e s → dvdStep m e s = some s' → s'.started = s.started ++ [x] →
      ∀ q < x.2, s.queue q = []) ∧
    (∀ e, Ok e s → (dvdStep m e s).isSome) := by
  have hinv : Inv s := by
    refine reach_invariant (init_inv blk mem) ?_ h
    intro e s s' hinv hok hs
    obtain ⟨t,ht,hinv'⟩ := step_inv hinv hok
    obtain rfl := mem_unique ht hs
    exact hinv'
  refine ⟨?_,hinv.books.fifo,?_,?_⟩
  · intro b
    refine ⟨?_,hinv.books.once b⟩
    have hall : (s.issued.map fst).count b = (s.started.map fst).count b+waits s b := by
      rw [count_prios _ hinv.books.prios b, count_prios _ hinv.books.starts b,
        hinv.books.fifo 0 (by decide), hinv.books.fifo 1 (by decide), hinv.books.fifo 2 (by decide),
        hinv.books.fifo 3 (by decide)]
      simp only [waits, waiting, count_append]
      omega
    have hdone := hinv.books.done b
    omega
  · exact fun e s' x hok hs hx => step_first hinv hok.1 hs hx
  · intro e hok
    obtain ⟨s',hs',-⟩ := step_inv hinv hok
    rw [hs']
    rfl

/-! Runs on a drive without data. -/

def blank : Media := ⟨fun _ => 0,fun _ => 0,fun _ => 0⟩

def fresh : Dvd := dvdInit (fun _ => ⟨0,0,0,0,0,0,0⟩) (fun _ => 0)

def answer (imm : BitVec 32) : Irq := { direct with imm := imm }

def deviceError : Irq := ⟨false,true,false,false,0,0,true,.unknown⟩

theorem no_command_lost_seeks : ∃ s, Reach (dvdStep blank) Ok fresh s ∧ execs s 1 = 1 ∧
    (s.called.map Call.blk).count 0 = 1 ∧ ofPrio 2 s.issued = ofPrio 2 s.started ++ s.queue 2 := by
  have hrun : (runChecked (dvdStep blank) (fun e s => decide (Possible e s) &&
      decide (closing e s = true → waiting s = [])) [.issue 2 0 (seekAbsAsyncPrio 64),
        .issue 0 1 (seekAbsAsyncPrio 32),.irq (answer 0),.ret] fresh).any
      (fun s => decide (execs s 1 = 1 ∧ waits s 0+execs s 0 = 0 ∧
        (s.issued.map fst).count 0 = 1)) = true := by
    decide +kernel
  obtain ⟨s,hreach,hexec,hgone,hissued⟩ :=
    run_reaches (check_and (fun _ _ => of_decide_eq_true) fun _ _ => of_decide_eq_true) hrun
  obtain ⟨hcount,hfifo,-⟩ := no_command_lost blank _ _ hreach
  have h0 := (hcount 0).1
  exact ⟨s,hreach,hexec,by omega,hfifo 2 (by decide)⟩

/-- A read waits while the disk ID is read. The disk was changed, and the read
is gone. -/
theorem read_lost : ∃ s, Reach (dvdStep blank) Possible fresh s ∧
    (s.issued.map Prod.fst).count 1 = 1 ∧ (s.called.map Call.blk).count 1 = 0 ∧ waits s 1 = 0 ∧
    execs s 1 = 0 := by
  have hrun : (runChecked (dvdStep blank) (fun e s => decide (Possible e s))
      [.issue 2 0 (readDiskID 4096),.issue 2 1 (readAbsAsyncPrio 8192 32 0),.irq deviceError,
        .irq (answer 0x02062800)] fresh).any
      (fun s => decide ((s.issued.map fst).count 1 = 1 ∧ (s.called.map Call.blk).count 1 = 0 ∧
        waits s 1 = 0 ∧ execs s 1 = 0)) = true := by
    decide +kernel
  exact run_reaches (fun e s h => of_decide_eq_true h) hrun

end Libogc.DvdCommands
