import Libogc.Dsp.TaskList
import Libogc.Library.CyclicVisit
import Libogc.Library.GuardedReach

/-!
# One task on the DSP

The task that runs is one of the list, and so is the one that is to take over
from it. A task that is added goes to the DSP at once only if it is the first
of the list, which is meant to say that the list was empty. A callback of a
task that is done can change the list between the choice of the successor and
the removal.
-/

set_option autoImplicit false

namespace Libogc.DspOneTask
open List GuardedReach CyclicVisit DspTask DspTaskList Option Bool

structure Live (s : Dsp) (l : List ℕ) : Prop where
  held : Held s l
  curr : l = [] ∧ s.curr = none ∨ ∃ c ∈ l, s.curr = some c
  rude : s.rudePend = true → ∃ r ∈ l, s.rude = some r
  undone : ∀ t ∈ l, (s.task t).state ≠ .done

/-! The calls. -/

/-- A task is added once, and not before all others; the task that is to run
next is one of the list. -/
def CallOk (l : List ℕ) (s : Dsp) : Call → Prop
  | .add t => t ∉ l ∧ ∀ f ∈ s.first, (s.task f).prio ≤ (s.task t).prio
  | .assert t => t ∈ l
  | .cancel _ => True

/-- The callback of the task `c` that is done appends no task to the list if
`c` is the last one, unless another task is to take over anyway, and does not
ask for `c`. -/
def DoneCallOk (e : Ending) (c : ℕ) (s : Dsp) : Call → Prop
  | .add t => e ≠ .rude → s.last = some c → (s.task t).prio < (s.task c).prio
  | .assert t => t ≠ c
  | .cancel _ => True

structure CallDone (k : Call) (s : Dsp) (l : List ℕ) (out : List Sent) (s' : Dsp) (l' : List ℕ) :
    Prop where
  live : Live s' l'
  mem : ∀ t, t ∈ l' ↔ t ∈ l ∨ k = .add t
  length : l'.length ≤ l.length+1
  out : out = [] ∨ l = [] ∧ ∃ t, out = [.boot t] ∧ s'.curr = some t
  curr : l ≠ [] → s'.curr = s.curr
  head : l ≠ [] → l'.head? = l.head?
  rude : s'.rude = s.rude ∧ s'.rudePend = s.rudePend ∨
    ∃ t, k = .assert t ∧ s'.rude = some t ∧ s'.rudePend = true
  last : ∀ e c, DoneCallOk e c s k → e ≠ .rude → l.getLast? = some c → l'.getLast? = some c
  inner : ∀ c ∈ l, l.getLast? ≠ some c → l'.getLast? ≠ some c

variable {k : Call} {s' : Dsp} {e : Ending} {ks : List Call} {out : List Sent} {c t : ℕ}

section Calls

variable {s : Dsp} {l : List ℕ} {n t : ℕ}

theorem Live.curr_mem (h : Live s l) (hl : l ≠ []) : ∃ c ∈ l, s.curr = some c := by
  rcases h.curr with ⟨rfl,-⟩ | hc
  · exact absurd rfl hl
  · exact hc

structure Added (t : ℕ) (us vs : List ℕ) (s s' : Dsp) : Prop where
  live : Live s' (us ++ t::vs)
  before : ∀ y ∈ us, (s.task y).prio ≤ (s.task t).prio
  behind : ∀ y, vs.head? = some y → (s.task t).prio < (s.task y).prio
  curr : s'.curr = if us ++ vs = [] then some t else s.curr
  rude : s'.rude = s.rude
  pend : s'.rudePend = s.rudePend
  apart : Apart t s s'
  cancel : (s'.task t).cancel = false

theorem mem_insert {y : ℕ} {us vs : List ℕ} : y ∈ us ++ t::vs ↔ y ∈ us ++ vs ∨ y = t := by
  simp only [mem_append, mem_cons]
  tauto

theorem addTask_added (h : Live s l) (hn : l.length < n) (ht : t ∉ l) :
    ∃ us vs s', l = us ++ vs ∧ Added t us vs s s' ∧ dspAddTask n t s =
      some (if (us ++ t::vs).head? = some t then [.boot t] else [],s') := by
  obtain ⟨u,us,vs,hins,rfl,hheld,hus,hvs,hcurr,hrel⟩ := inserttask_spec h.held ht hn
  let x : Task := { u.task t with state := .init, attach := true, cancel := false }
  have hfirst : u.first = (us ++ t::vs).head? := held_first hheld
  have hlive : Live (setTask t x u) (us ++ t::vs) := by
    refine ⟨held_setTask hheld rfl rfl,.inr ?_,?_,?_⟩
    · change ∃ c ∈ us ++ t::vs, u.curr = some c
      rw [hcurr]
      split
      · exact ⟨t,by simp,rfl⟩
      · rename_i hl
        obtain ⟨c,hc,hcc⟩ := h.curr_mem hl
        exact ⟨c,mem_insert.mpr (.inl hc),hcc⟩
    · intro hp
      obtain ⟨r,hr,hrr⟩ := h.rude (hrel.rudePend ▸ hp)
      exact ⟨r,mem_insert.mpr (.inl hr),hrel.rude.trans hrr⟩
    · intro y hy
      by_cases hyt : y = t
      · subst hyt
        simp [setTask]
      · rw [setTask_state x y hyt, hrel.state y]
        exact h.undone y ((mem_insert.mp hy).resolve_right hyt)
  refine ⟨us,vs,setTask t x u,rfl,⟨hlive,hus,hvs,hcurr,hrel.rude,hrel.rudePend,?_,?_⟩,?_⟩
  · exact hrel.apart.trans (apart_setTask rfl)
  · simp [setTask, x]
  · rw [dspAddTask, hins, ← hfirst]
    rfl

theorem addTask_done (h : Live s l) (hn : l.length < n) (hok : CallOk l s (.add t)) :
    ∃ out s' l', dspAddTask n t s = some (out,s') ∧ CallDone (.add t) s l out s' l' := by
  obtain ⟨us,vs,s',rfl,hadd,heq⟩ := addTask_added h hn hok.1
  have hmem : ∀ y, y ∈ us ++ t::vs ↔ y ∈ us ++ vs ∨ Call.add t = .add y := by
    intro y
    rw [mem_insert, Call.add.injEq, eq_comm]
  -- a task of the same or a smaller priority is first, so the new one is behind it
  have hhead : us ++ vs ≠ [] → us ≠ [] := by
    rintro hl rfl
    cases vs with
    | nil => exact hl rfl
    | cons v vs =>
      have hle := hok.2 v (by rw [held_first h.held]; rfl)
      exact absurd (hadd.behind v rfl) (Nat.not_lt.mpr hle)
  refine ⟨_,_,_,heq,hadd.live,hmem,by simp; omega,?_,?_,?_,.inl ⟨hadd.rude,hadd.pend⟩,?_,?_⟩
  · by_cases hl : us ++ vs = []
    · obtain ⟨rfl,rfl⟩ := append_eq_nil_iff.mp hl
      exact .inr ⟨rfl,t,by simp,hadd.curr⟩
    · left
      obtain ⟨f,fs,rfl⟩ := exists_cons_of_ne_nil (hhead hl)
      have hne : f ≠ t := by
        rintro rfl
        exact hok.1 (by simp)
      simp [hne]
  · intro hl
    exact hadd.curr.trans (if_neg hl)
  · intro hl
    obtain ⟨f,fs,rfl⟩ := exists_cons_of_ne_nil (hhead hl)
    rfl
  · intro e c hdone he hlast
    cases vs with
    | nil =>
      rw [append_nil] at hlast
      have hlt := hdone he (by rw [held_last h.held, append_nil, hlast])
      exact absurd hlt (Nat.not_lt.mpr (hadd.before c (mem_of_getLast? hlast)))
    | cons v vs =>
      rw [getLast?_append_cons] at hlast ⊢
      rwa [getLast?_cons_cons]
  · intro c hc hlast
    cases vs with
    | nil =>
      rw [getLast?_concat]
      rintro ⟨⟩
      exact hok.1 hc
    | cons v vs =>
      rw [getLast?_append_cons] at hlast ⊢
      rwa [getLast?_cons_cons]

theorem callDone_same (hk : ∀ t, k ≠ .add t) (h : Live s' l) (hcurr : s'.curr = s.curr)
    (hrude : s'.rude = s.rude ∧ s'.rudePend = s.rudePend ∨ ∃ t, k = .assert t ∧ s'.rude = some t ∧
      s'.rudePend = true) :
    CallDone k s l [] s' l where
  live := h
  mem t := (or_iff_left (hk t)).symm
  length := Nat.le_succ _
  out := .inl rfl
  curr _ := hcurr
  head _ := rfl
  rude := hrude
  last _ _ _ _ hc := hc
  inner _ _ hc := hc

theorem assertTask_done (h : Live s l) (hok : CallOk l s (.assert t)) :
    ∃ s', dspAssertTask t s = some s' ∧ CallDone (.assert t) s l [] s' l := by
  obtain ⟨c,-,hcc⟩ := h.curr_mem (ne_nil_of_mem hok)
  have hset : CallDone (.assert t) s l [] { s with rude := some t, rudePend := true } l :=
    callDone_same nofun ⟨held_congr h.held rfl rfl,h.curr,fun _ => ⟨t,hok,rfl⟩,h.undone⟩ rfl
      (.inr ⟨t,rfl,rfl,rfl⟩)
  have hsame : CallDone (.assert t) s l [] s l := callDone_same nofun h rfl (.inl ⟨rfl,rfl⟩)
  by_cases ht : c = t
  · exact ⟨_,if_pos (ht ▸ hcc),hset⟩
  · by_cases hprio : (s.task t).prio < (s.task c).prio
    · exact ⟨_,by simp [dspAssertTask, hcc, hprio],hset⟩
    · exact ⟨_,by simp [dspAssertTask, hcc, ht, hprio],hsame⟩

theorem live_setTask {x : Task} (h : Live s l) (hn : x.next = (s.task t).next)
    (hp : x.prev = (s.task t).prev) (hx : x.state ≠ .done) : Live (setTask t x s) l := by
  refine ⟨held_setTask h.held hn hp,h.curr,h.rude,?_⟩
  intro y hy
  by_cases hyt : y = t
  · subst hyt
    simpa [setTask] using hx
  · rw [setTask_state x y hyt]
    exact h.undone y hy

theorem cancelTask_done (h : Live s l) : CallDone (.cancel t) s l [] (dspCancelTask t s) l := by
  refine callDone_same nofun ⟨held_setTask h.held rfl rfl,h.curr,h.rude,?_⟩ rfl (.inl ⟨rfl,rfl⟩)
  intro y hy
  by_cases hyt : y = t
  · subst hyt
    simpa [dspCancelTask, setTask] using h.undone y hy
  · rw [dspCancelTask, setTask_state _ y hyt]
    exact h.undone y hy

theorem call_done (h : Live s l) (hn : l.length < n) (hok : CallOk l s k) :
    ∃ out s' l', dspCall n k s = some (out,s') ∧ CallDone k s l out s' l' := by
  cases k with
  | add t => exact addTask_done h hn hok
  | assert t =>
    obtain ⟨s',hs',hd⟩ := assertTask_done h hok
    exact ⟨[],s',l,by simp [dspCall, hs'],hd⟩
  | cancel t => exact ⟨[],_,l,rfl,cancelTask_done h⟩

end Calls

/-! The calls of the callback of a task that is done. -/

def CallsOk (e : Ending) (c : ℕ) : ℕ → List Call → Dsp → Prop
  | _, [], _ => True
  | n, k::ks, s => (∃ l, Held s l ∧ CallOk l s k) ∧ DoneCallOk e c s k ∧
    ∀ r, dspCall n k s = some r → CallsOk e c (n+1) ks r.2

structure CallsDone (e : Ending) (c : ℕ) (ks : List Call) (s : Dsp) (l : List ℕ) (s' : Dsp)
    (l' : List ℕ) : Prop where
  live : Live s' l'
  mem : ∀ t, t ∈ l' ↔ t ∈ l ∨ .add t ∈ ks
  curr : s'.curr = some c
  head : l'.head? = l.head?
  rude : s'.rude ≠ some c ∨ s'.rudePend = false
  pend : s.rudePend = true → s'.rudePend = true
  last : e ≠ .rude → l.getLast? = some c → l'.getLast? = some c
  inner : l.getLast? ≠ some c → l'.getLast? ≠ some c

section Callback

variable {s : Dsp} {l : List ℕ} {n c : ℕ} {e : Ending}

theorem calls_done (h : Live s l) (hc : c ∈ l) (hcurr : s.curr = some c)
    (hrude : s.rude ≠ some c ∨ s.rudePend = false) (hn : l.length < n) (hok : CallsOk e c n ks s) :
    ∃ s' l', dspCalls n ks s = some ([],s') ∧ CallsDone e c ks s l s' l' := by
  induction ks generalizing s l n with
  | nil =>
    refine ⟨s,l,rfl,h,by simp,hcurr,rfl,hrude,id,fun _ => id,id⟩
  | cons k ks ih =>
    obtain ⟨⟨l₀,hl₀,hk⟩,hdone,hrest⟩ := hok
    obtain rfl := held_unique h.held hl₀
    obtain ⟨out,u,m,hcall,hu⟩ := call_done h hn hk
    have hl : l ≠ [] := ne_nil_of_mem hc
    obtain rfl : out = [] := hu.out.resolve_right (fun he => hl he.1)
    have hrude' : u.rude ≠ some c ∨ u.rudePend = false := by
      rcases hu.rude with ⟨h1,h2⟩ | ⟨t,rfl,h1,-⟩
      · rwa [h1, h2]
      · left
        rw [h1]
        rintro ⟨⟩
        exact hdone rfl
    obtain ⟨s',l',hs',hd⟩ := ih hu.live ((hu.mem c).mpr (.inl hc)) ((hu.curr hl).trans hcurr) hrude'
      (Nat.lt_of_le_of_lt hu.length (Nat.succ_lt_succ hn)) (hrest _ hcall)
    refine ⟨s',l',by simp [dspCalls, hcall, hs'],hd.live,?_,hd.curr,hd.head.trans (hu.head hl),
      hd.rude,?_,?_,?_⟩
    · intro t
      rw [hd.mem t, hu.mem t, mem_cons, eq_comm]
      tauto
    · intro hp
      refine hd.pend ?_
      rcases hu.rude with ⟨-,h2⟩ | ⟨-,-,-,h2⟩
      · rwa [h2]
      · exact h2
    · exact fun he hlast => hd.last he (hu.last e c hdone he hlast)
    · exact fun hlast => hd.inner (hu.inner c hc hlast)

end Callback

/-! The mails. -/

/-- No task is booted, and the image that is sent is that of the task that runs
from then on. -/
def Handed (out : List Sent) (s : Dsp) : Prop :=
  ∀ x ∈ out, (∀ t, x ≠ .boot t) ∧ ∀ save t i, x = .exec save t i → s.curr = some t

section Mails

variable {s : Dsp} {l us vs : List ℕ} {c : ℕ}

theorem handed_exec {w : ℕ} {save : Option ℕ} {u : Dsp} (h : s.curr = some t) :
    Handed [.mail w, execTask save t u] s := by
  intro x hx
  rcases mem_cons.mp hx with rfl | hx
  · exact ⟨nofun,nofun⟩
  · obtain rfl := mem_singleton.mp hx
    refine ⟨nofun,?_⟩
    rintro save' t' i ⟨⟩
    exact h

theorem mem_middle {y : ℕ} (h : y ∈ us ++ c::vs) (hy : y ≠ c) : y ∈ us ++ vs := by
  simp only [mem_append, mem_cons] at h ⊢
  tauto

theorem erase_middle (h : (us ++ c::vs).Nodup) : (us ++ c::vs).erase c = us ++ vs := by
  have hc : c ∉ us := fun hm => (nodup_append.mp h).2.2 c hm c mem_cons_self rfl
  rw [erase_append_right _ hc, erase_cons_head]

structure Ready (c : ℕ) (s : Dsp) (l : List ℕ) : Prop where
  held : Held s l
  rude : s.rudePend = true → ∃ r ∈ l, r ≠ c ∧ s.rude = some r
  undone : ∀ t ∈ l, t ≠ c → (s.task t).state ≠ .done

theorem Live.ready (h : Live s l) (hrude : s.rude ≠ some c ∨ s.rudePend = false) : Ready c s l := by
  refine ⟨h.held,?_,fun t ht _ => h.undone t ht⟩
  intro hp
  obtain ⟨r,hr,hrr⟩ := h.rude hp
  refine ⟨r,hr,?_,hrr⟩
  rintro rfl
  exact hrude.elim (fun hne => hne hrr) (fun hf => absurd (hf.symm.trans hp) false_ne_true)

theorem Ready.finished (h : Ready c s l) (r : Option ℕ) :
    Ready c { setState c .done s with curr := r } l := by
  refine ⟨held_congr h.held ?_ ?_,h.rude,?_⟩
  · exact @nextNode_setTask s c { s.task c with state := .done } rfl
  · exact @prevNode_setTask s c { s.task c with state := .done } rfl
  · exact fun t ht hne => (setTask_state _ t hne).trans_ne (h.undone t ht hne)

structure Removed (c : ℕ) (us vs : List ℕ) (s u : Dsp) : Prop where
  held : Held u (us ++ vs)
  curr : u.curr = currAfter us vs s.curr
  rude : u.rudePend = true → ∃ x ∈ us ++ vs, u.rude = some x
  undone : ∀ t ∈ us ++ vs, (u.task t).state ≠ .done
  apart : Apart c s u
  pend : u.rudePend = s.rudePend

theorem Ready.removed (h : Ready c s (us ++ c::vs)) :
    ∃ u, dspRemovetask c s = some u ∧ Removed c us vs s u := by
  obtain ⟨u,hu,hheld',hcurr,hrel⟩ := removetask_spec h.held
  have hclear : Apart c s (clearTask c s) := apart_setTask rfl
  have hapart : Apart c s u := hclear.trans hrel.apart
  refine ⟨u,hu,hheld',hcurr,?_,?_,hapart,hrel.rudePend⟩
  · intro hp
    obtain ⟨x,hx,hxc,hxr⟩ := h.rude (hrel.rudePend.symm.trans hp)
    exact ⟨x,mem_middle hx hxc,hrel.rude.trans hxr⟩
  · intro t ht
    have htc : t ≠ c := fun he =>
      (nodup_cons.mp (nodup_middle.mp h.held.2)).1 (he ▸ ht)
    rw [(hapart.other t htc).1]
    refine h.undone t ?_ htc
    simp only [mem_append, mem_cons] at ht ⊢
    tauto

theorem Removed.of_finished {r : Option ℕ} {u : Dsp}
    (h : Removed c us vs { setState c .done s with curr := r } u) :
    Apart c s u ∧ u.rudePend = s.rudePend := by
  have hstate : Apart c s (setState c .done s) := apart_setTask rfl
  exact ⟨hstate.trans ⟨h.apart.prio,h.apart.other⟩,h.pend⟩

def Chosen (e : Ending) (c : ℕ) (s : Dsp) (l : List ℕ) : Prop :=
  match e with
  | .rude => s.rudePend = true
  | .single => l.getLast? = some c ∧ l.head? = some c
  | .last => l.getLast? = some c ∧ l.head? ≠ some c
  | .inner => l.getLast? ≠ some c

theorem ending_chosen (h : Live s l) (hc : c ∈ l) : Chosen (dspEnding c s) c s l := by
  have hlast := held_next_none h.held hc
  have hfirst := held_first h.held
  unfold dspEnding
  split
  · assumption
  · split
    · rename_i hnext
      rw [hfirst]
      split
      · exact ⟨hlast.mp hnext,‹_›⟩
      · exact ⟨hlast.mp hnext,‹_›⟩
    · rename_i hnext
      exact fun hl => hnext (hlast.mpr hl)

theorem CallsDone.chosen {l' : List ℕ} (h : CallsDone e c ks s l s' l') (hc : Chosen e c s l) :
    Chosen e c s' l' := by
  cases e with
  | rude => exact h.pend hc
  | single => exact ⟨h.last (by simp) hc.1,h.head.trans hc.2⟩
  | last => exact ⟨h.last (by simp) hc.1,h.head.trans_ne hc.2⟩
  | inner => exact h.inner hc

structure Finished (e : Ending) (c : ℕ) (s : Dsp) (l : List ℕ) (out : List Sent) (s' : Dsp) :
    Prop where
  live : Live s' (l.erase c)
  handed : Handed out s'
  apart : Apart c s s'
  pend : s'.rudePend = (s.rudePend && decide (e ≠ .rude))

theorem finish_rude (h : Ready c s l) (hc : c ∈ l) (he : s.rudePend = true) :
    ∃ out s', dspFinish .rude c s = some (out,s') ∧ Finished .rude c s l out s' := by
  obtain ⟨r,hr,hrc,hrr⟩ := h.rude he
  obtain ⟨us,vs,rfl⟩ := append_of_mem hc
  obtain ⟨u,hu,hrem⟩ := h.removed
  have herase := erase_middle h.held.2
  have hmem : r ∈ us ++ vs := mem_middle hr hrc
  refine ⟨[.mail 0xCDD10001, execTask none r s],
    { u with curr := some r, rudePend := false, rude := none },?_,?_,?_,?_,by simp⟩
  · simp only [dspFinish, hrr, hu, bind_some, map_some]
  · rw [herase]
    exact ⟨held_congr hrem.held rfl rfl,.inr ⟨r,hmem,rfl⟩,by simp,hrem.undone⟩
  · exact handed_exec rfl
  · exact ⟨hrem.apart.prio,hrem.apart.other⟩

theorem finish_single (h : Ready c s l) (hl : l.getLast? = some c ∧ l.head? = some c) :
    ∃ out s', dspFinish .single c s = some (out,s') ∧ Finished .single c s l out s' := by
  obtain ⟨l',rfl⟩ : ∃ l', l = c::l' := head?_eq_some_iff.mp hl.2
  obtain rfl : l' = [] := by
    cases l' with
    | nil => rfl
    | cons v vs =>
      rw [getLast?_cons_cons] at hl
      exact absurd (mem_of_getLast? hl.1) (nodup_cons.mp h.held.2).1
  obtain ⟨u,hu,hrem⟩ := @Ready.removed _ [] [] c (h.finished s.curr)
  refine ⟨[.mail 0xCDD10002],u,?_,?_,?_,hrem.of_finished.1,by simp [hrem.of_finished.2]⟩
  · exact congrArg (Option.map (fun u => ([Sent.mail 0xCDD10002],u))) hu
  · rw [erase_cons_head]
    exact ⟨hrem.held,.inl ⟨rfl,hrem.curr⟩,hrem.rude,by simp⟩
  · simp [Handed]

theorem finish_last (h : Ready c s l) (hl : l.getLast? = some c ∧ l.head? ≠ some c) :
    ∃ out s', dspFinish .last c s = some (out,s') ∧ Finished .last c s l out s' := by
  obtain ⟨us,rfl⟩ := getLast?_eq_some_iff.mp hl.1
  cases us with
  | nil => exact absurd rfl hl.2
  | cons f us =>
    have hfirst : s.first = some f := held_first h.held
    have hlast : s.last = some c := (held_last h.held).trans hl.1
    obtain ⟨u,hu,hrem⟩ := (h.finished (some f)).removed
    refine ⟨[.mail 0xCDD10001, execTask none f (setState c .done s)],u,?_,?_,
      handed_exec hrem.curr,hrem.of_finished.1,by simp [hrem.of_finished.2]⟩
    · simp only [dspFinish]
      change (s.first.bind _) = _
      rw [hfirst]
      change (s.last.bind _) = _
      rw [hlast, bind_some, hu, map_some]
    · rw [erase_middle h.held.2]
      exact ⟨hrem.held,.inr ⟨f,by simp,hrem.curr⟩,hrem.rude,hrem.undone⟩

theorem finish_inner (h : Ready c s l) (hc : c ∈ l) (hl : l.getLast? ≠ some c) :
    ∃ out s', dspFinish .inner c s = some (out,s') ∧ Finished .inner c s l out s' := by
  obtain ⟨us,vs,rfl⟩ := append_of_mem hc
  cases vs with
  | nil => exact absurd getLast?_concat hl
  | cons v vs =>
    have hnext := (held_around (h.finished (some v)).held).2
    have hprev : (_ : Option ℕ) = _ := (@held_around _ (us ++ [c]) vs v
      (by simpa using (h.finished (some v)).held)).1
    rw [getLast?_concat] at hprev
    obtain ⟨u,hu,hrem⟩ := (h.finished (some v)).removed
    have hv : u.curr = some v := by
      rw [hrem.curr, currAfter]
      split <;> simp
    refine ⟨[.mail 0xCDD10001, execTask none v (setState c .done s)],u,?_,?_,handed_exec hv,
      hrem.of_finished.1,by simp [hrem.of_finished.2]⟩
    · simp only [dspFinish]
      rw [hnext, head?_cons, bind_some, hprev, bind_some, hu, map_some]
    · rw [erase_middle h.held.2]
      exact ⟨hrem.held,.inr ⟨v,by simp,hv⟩,hrem.rude,hrem.undone⟩

theorem finish_done (h : Ready c s l) (hc : c ∈ l) (he : Chosen e c s l) :
    ∃ out s', dspFinish e c s = some (out,s') ∧ Finished e c s l out s' := by
  cases e with
  | rude => exact finish_rude h hc he
  | single => exact finish_single h he
  | last => exact finish_last h he
  | inner => exact finish_inner h hc he

theorem switchTo_live {hire : ℕ} (h : Live s l) (hh : hire ∈ l) :
    Live (switchTo c hire s).2 l ∧ Handed (switchTo c hire s).1 (switchTo c hire s).2 := by
  have hyield : Live (setState c .yield s) l := live_setTask h rfl rfl (by simp)
  exact ⟨⟨held_congr hyield.held rfl rfl,.inr ⟨hire,hh,rfl⟩,hyield.rude,hyield.undone⟩,
    handed_exec rfl⟩

theorem handed_calls (cb : TaskCb) (c : ℕ) (s u : Dsp) : Handed (calls cb c u) s := by
  unfold calls
  split <;> simp [Handed]

theorem handed_cons {w : ℕ} (h : Handed out s) : Handed (.mail w::out) s := by
  intro x hx
  rcases mem_cons.mp hx with rfl | hx
  · exact ⟨nofun,nofun⟩
  · exact h x hx

structure Yielded (c : ℕ) (s : Dsp) (l : List ℕ) (out : List Sent) (s' : Dsp) : Prop where
  live : Live s' l
  handed : Handed out s'
  fields : ∀ y, (s'.task y).prio = (s.task y).prio ∧ (s'.task y).cancel = (s.task y).cancel
  pend : s'.rudePend = false
  curr : s'.curr = if s.rudePend then s.rude else cyclicNext l c

theorem setState_fields (x : TaskState) (y : ℕ) : ((setState c x s).task y).prio = (s.task y).prio ∧
      ((setState c x s).task y).cancel = (s.task y).cancel := by
  by_cases hy : y = c
  · subst hy
    simp [setState, setTask]
  · simp [setState, setTask, hy]

theorem yield_rude (h : Live s l) (hcurr : s.curr = some c) (hp : s.rudePend = true) :
    ∃ out s', dspYield c s = some (out,s') ∧ Yielded c s l out s' := by
  obtain ⟨r,hr,hrr⟩ := h.rude hp
  rw [dspYield, if_pos hp, hrr]
  split
  · rename_i he
    refine ⟨_,_,rfl,⟨held_congr h.held rfl rfl,h.curr,by simp,h.undone⟩,
      handed_cons (handed_calls _ _ _ _),fun _ => ⟨rfl,rfl⟩,rfl,?_⟩
    rw [if_pos hp, hrr, he]
    exact hcurr
  · obtain ⟨hlive,hhand⟩ := @switchTo_live s l c r h hr
    refine ⟨_,_,rfl,⟨held_congr hlive.held rfl rfl,hlive.curr,by simp,hlive.undone⟩,hhand,
      setState_fields .yield,rfl,?_⟩
    rw [if_pos hp, hrr]
    rfl

theorem yield_next (h : Live s l) (hc : c ∈ l) (hcurr : s.curr = some c)
    (hp : s.rudePend = false) : ∃ out s', dspYield c s = some (out,s') ∧ Yielded c s l out s' := by
  obtain ⟨us,vs,rfl,hnot⟩ := eq_append_cons_of_mem hc
  have hswitch : ∀ n ∈ us ++ c::vs, cyclicNext (us ++ c::vs) c = some n →
      Yielded c s (us ++ c::vs) (switchTo c n s).1 (switchTo c n s).2 := by
    intro n hn hnext
    obtain ⟨hlive,hhand⟩ := @switchTo_live s _ c n h hn
    exact ⟨hlive,hhand,setState_fields .yield,hp,by rw [if_neg (by simp [hp]), hnext]; rfl⟩
  rw [dspYield, if_neg (by simp [hp]), (held_around h.held).2, held_first h.held]
  cases vs with
  | cons v vs =>
    refine ⟨_,_,rfl,hswitch v (by simp) ?_⟩
    rw [cyclicNext, behind_append _ hnot]
    rfl
  | nil =>
    cases us with
    | nil =>
      refine ⟨_,_,if_pos rfl,h,handed_cons (handed_calls _ _ _ _),fun _ => ⟨rfl,rfl⟩,hp,?_⟩
      rw [if_neg (by simp [hp]), cyclicNext, behind_append _ hnot]
      exact hcurr
    | cons u us =>
      have huc : ¬ (u::us ++ [c]).head? = some c := by
        rintro ⟨⟩
        exact hnot mem_cons_self
      refine ⟨_,_,if_neg huc,hswitch u (by simp) ?_⟩
      rw [cyclicNext, behind_append _ hnot]
      rfl

theorem yield_done (h : Live s l) (hc : c ∈ l) (hcurr : s.curr = some c) :
    ∃ out s', dspYield c s = some (out,s') ∧ Yielded c s l out s' := by
  cases hp : s.rudePend with
  | true => exact yield_rude h hcurr hp
  | false => exact yield_next h hc hcurr hp

end Mails

/-! Runs. -/

inductive Event where
  | call (k : Call)
  | mail (m : Mail) (ks : List Call)
  deriving DecidableEq, Repr

/-- An event, with a bound for the loop over the list. -/
structure Label where
  bound : ℕ
  event : Event

def dspAct (a : Label) (s : Dsp) : Option (List Sent × Dsp) :=
  match a.event with
  | .call k => dspCall a.bound k s
  | .mail m ks => dspTaskcb a.bound m ks s

def dspStep (a : Label) (s : Dsp) : Option Dsp := (dspAct a s).map Prod.snd

def Possible (a : Label) (s : Dsp) : Prop :=
  ∃ l, Held s l ∧ l.length < a.bound ∧ ∀ m ks, a.event = .mail m ks → l ≠ []

/-- The task that is done is not itself to run next, and its callback keeps to
its calls. -/
def Orderly (a : Label) (s : Dsp) : Prop :=
  (∀ k, a.event = .call k → ∃ l, Held s l ∧ CallOk l s k) ∧
  ∀ m ks c, a.event = .mail m ks → s.curr = some c → received m c s = .done →
    (s.rude ≠ some c ∨ s.rudePend = false) ∧
      CallsOk (dspEnding c s) c a.bound (doneCalls c ks s) s

/-- A task is booted into an empty list, a done mail takes the running task and
no other one out of the list, and the task whose image is sent is the one that
runs. -/
structure OneTask (a : Event) (s : Dsp) (l : List ℕ) (out : List Sent) (s' : Dsp) (l' : List ℕ) :
    Prop where
  boot : ∀ t, .boot t ∈ out → l = []
  removed : ∀ m ks c, a = .mail m ks → s.curr = some c → received m c s = .done →
    ∀ t, t ∈ l' ↔ t ≠ c ∧ (t ∈ l ∨ .add t ∈ doneCalls c ks s)
  kept : ∀ t, t ∈ l → t ∈ l' ∨ ∃ m ks c, a = .mail m ks ∧ s.curr = some c ∧ received m c s = .done
  sent : ∀ t, .boot t ∈ out ∨ (∃ save i, .exec save t i ∈ out) →
    s'.curr = some t ∧ t ∈ l' ∧ (s'.task t).state ≠ .done

section Run

variable {s : Dsp} {l : List ℕ}

theorem Live.running (h : Live s l) (ht : s.curr = some t) :
    s.curr = some t ∧ t ∈ l ∧ (s.task t).state ≠ .done := by
  rcases h.curr with ⟨-,hc⟩ | ⟨c,hc,hcc⟩
  · cases hc.symm.trans ht
  · obtain rfl := mem_unique hcc ht
    exact ⟨ht,hc,h.undone c hc⟩

theorem Handed.sent (h : Handed out s) (ht : .boot t ∈ out ∨ ∃ save i, .exec save t i ∈ out) :
    s.curr = some t := by
  rcases ht with ht | ⟨save,i,ht⟩
  · exact absurd rfl ((h _ ht).1 t)
  · exact (h _ ht).2 save t i rfl

theorem callDone_one {l' : List ℕ} (h : CallDone k s l out s' l') :
    OneTask (.call k) s l out s' l' := by
  refine ⟨?_,nofun,fun t ht => .inl ((h.mem t).mpr (.inl ht)),?_⟩
  · rintro t ht
    rcases h.out with rfl | ⟨hl,-⟩
    · cases ht
    · exact hl
  · intro t ht
    rcases h.out with rfl | ⟨-,b,rfl,hcurr⟩
    · simp at ht
    · obtain rfl : t = b := by simpa using ht
      exact h.live.running hcurr

theorem mail_one {m : Mail} (hcurr : s.curr = some c) (hm : received m c s ≠ .done)
    (h : Live s' l) (hout : Handed out s') : OneTask (.mail m ks) s l out s' l := by
  refine ⟨fun t ht => absurd rfl ((hout _ ht).1 t),?_,fun t ht => .inl ht,?_⟩
  · rintro m ks c' ⟨⟩ hc' hdone
    rw [hcurr] at hc'
    exact absurd (some.inj hc' ▸ hdone) hm
  · exact fun t ht => h.running (hout.sent ht)

theorem done_one {n : ℕ} {m : Mail} (h : Live s l) (hn : l.length < n) (hc : c ∈ l)
    (hcurr : s.curr = some c) (hrude : s.rude ≠ some c ∨ s.rudePend = false)
    (hm : received m c s = .done) (hks : CallsOk (dspEnding c s) c n (doneCalls c ks s) s) :
    ∃ out s' l', dspDone n c ks s = some (out,s') ∧ Live s' l' ∧
      OneTask (.mail m ks) s l out s' l' := by
  obtain ⟨u,lu,hcalls,hu⟩ := calls_done h hc hcurr hrude hn hks
  have hcu : c ∈ lu := (hu.mem c).mpr (.inl hc)
  obtain ⟨out,s',hfin,hlive,hout,-,-⟩ :=
    finish_done (hu.live.ready hu.rude) hcu (hu.chosen (ending_chosen h hc))
  have hall : Handed (calls .done c s ++ [] ++ out) s' := by
    intro x hx
    rw [append_nil] at hx
    exact (mem_append.mp hx).elim (handed_calls .done c s' s x) (hout x)
  have hmem : ∀ t, t ∈ lu.erase c ↔ t ≠ c ∧ (t ∈ l ∨ .add t ∈ doneCalls c ks s) := by
    intro t
    rw [hu.live.held.2.mem_erase_iff, hu.mem t]
  refine ⟨calls .done c s ++ [] ++ out,s',lu.erase c,?_,hlive,?_⟩
  · simp only [dspDone, hcalls, hu.curr, hfin, bind_some, map_some]
  · refine ⟨fun t ht => absurd rfl ((hall _ ht).1 t),?_,?_,?_⟩
    · rintro m ks c' ⟨⟩ hc' -
      obtain rfl := mem_unique hcurr hc'
      exact hmem
    · exact fun t _ => .inr ⟨m,ks,c,rfl,hcurr,hm⟩
    · exact fun t ht => hlive.running (hall.sent ht)

theorem act_one {a : Label} (h : Live s l) (ha : Possible a s) (hok : Orderly a s) :
    ∃ out s' l', dspAct a s = some (out,s') ∧ Live s' l' ∧ OneTask a.event s l out s' l' := by
  obtain ⟨n,a⟩ := a
  obtain ⟨l₀,hl₀,hn,hmail⟩ := ha
  obtain rfl := held_unique h.held hl₀
  cases a with
  | call k =>
    obtain ⟨l₀,hl₀,hk⟩ := hok.1 k rfl
    obtain rfl := held_unique h.held hl₀
    obtain ⟨out,s',l',hcall,hd⟩ := call_done h hn hk
    exact ⟨out,s',l',hcall,hd.live,callDone_one hd⟩
  | mail m ks =>
    obtain ⟨c,hc,hcurr⟩ := h.curr_mem (hmail m ks rfl)
    have hrun : Live (setState c .run s) l := live_setTask h rfl rfl (by simp)
    have hact : dspAct ⟨n,.mail m ks⟩ s = dspTaskcb n m ks s := rfl
    rw [hact, dspTaskcb, hcurr, bind_some]
    cases hm : received m c s with
    | init | resume =>
      exact ⟨_,_,l,rfl,hrun,mail_one hcurr (by simp [hm]) hrun (handed_calls _ _ _ _)⟩
    | yield =>
      obtain ⟨out,s',hy,hlive,hout,-,-,-⟩ := yield_done h hc hcurr
      exact ⟨out,s',l,hy,hlive,mail_one hcurr (by simp [hm]) hlive hout⟩
    | done =>
      obtain ⟨hrude,hks⟩ := hok.2 m ks c rfl hcurr hm
      exact done_one h hn hc hcurr hrude hm hks
    | req => exact ⟨_,_,l,rfl,h,mail_one hcurr (by simp [hm]) h (handed_calls _ _ _ _)⟩

end Run

theorem live_init (task : ℕ → Task) : Live (dspInit task) [] :=
  ⟨⟨isChain_cons_cons.mpr ⟨⟨rfl,rfl⟩,.singleton _⟩,nodup_nil⟩,.inl ⟨rfl,rfl⟩,nofun,nofun⟩

/-! The conditions are computed. -/

def tasksFrom : ℕ → Option ℕ → Dsp → List ℕ
  | n+1, some t, s => t::tasksFrom n (s.task t).next s
  | _, _, _ => []

instance (s : Dsp) (l : List ℕ) : Decidable (Held s l) :=
  inferInstanceAs (Decidable (List.IsChain _ _ ∧ _))

instance (l : List ℕ) (s : Dsp) (k : Call) : Decidable (CallOk l s k) :=
  match k with
  | .add _ => inferInstanceAs (Decidable (_ ∧ _))
  | .assert _ => inferInstanceAs (Decidable (_ ∈ _))
  | .cancel _ => instDecidableTrue

instance (e : Ending) (c : ℕ) (s : Dsp) (k : Call) : Decidable (DoneCallOk e c s k) :=
  match k with
  | .add _ => inferInstanceAs (Decidable (_ → _ → _))
  | .assert _ => inferInstanceAs (Decidable (_ ≠ _))
  | .cancel _ => instDecidableTrue

def callsCheck (e : Ending) (c : ℕ) : ℕ → List Call → Dsp → Bool
  | _, [], _ => true
  | n, k::ks, s => decide (Held s (tasksFrom n s.first s) ∧ CallOk (tasksFrom n s.first s) s k) &&
    decide (DoneCallOk e c s k) && (dspCall n k s).all (fun r => callsCheck e c (n+1) ks r.2)

def doneCheck (n c : ℕ) (m : Mail) (ks : List Call) (s : Dsp) : Bool :=
  decide (received m c s ≠ .done) || decide (s.rude ≠ some c ∨ s.rudePend = false) &&
    callsCheck (dspEnding c s) c n (doneCalls c ks s) s

def admits (a : Label) (s : Dsp) : Bool :=
  let l := tasksFrom a.bound s.first s
  decide (Held s l ∧ l.length < a.bound) &&
    match a.event with
    | .call k => decide (CallOk l s k)
    | .mail m ks => decide (l ≠ []) && s.curr.all (fun c => doneCheck a.bound c m ks s)

theorem callsCheck_ok {n : ℕ} {s : Dsp} (h : callsCheck e c n ks s = true) :
    CallsOk e c n ks s := by
  induction ks generalizing n s with
  | nil => trivial
  | cons k ks ih =>
    simp only [callsCheck, and_eq_true, decide_eq_true_eq] at h
    refine ⟨⟨_,h.1.1⟩,h.1.2,?_⟩
    intro r hr
    have hall := h.2
    rw [hr] at hall
    exact ih hall

theorem admits_ok {a : Label} {s : Dsp} (h : admits a s = true) : Possible a s ∧ Orderly a s := by
  obtain ⟨n,a⟩ := a
  rw [admits, and_eq_true, decide_eq_true_eq] at h
  cases a with
  | call k => exact ⟨⟨_,h.1.1,h.1.2,nofun⟩,fun k' hk => by
      cases hk
      exact ⟨_,h.1.1,of_decide_eq_true h.2⟩,nofun⟩
  | mail m ks =>
    obtain ⟨hheld,h⟩ := h
    simp only [and_eq_true, decide_eq_true_eq] at h
    refine ⟨⟨_,hheld.1,hheld.2,fun _ _ _ => h.1⟩,nofun,?_⟩
    rintro m' ks' c ⟨⟩ hc hdone
    have hcheck := h.2
    rw [hc] at hcheck
    have hboth : (s.rude ≠ some c ∨ s.rudePend = false) ∧
        callsCheck (dspEnding c s) c n (doneCalls c ks s) s = true := by
      simpa [doneCheck, hdone] using hcheck
    exact ⟨hboth.1,callsCheck_ok hboth.2⟩

theorem one_task_runs (task : ℕ → Task) {s : Dsp}
    (h : Reach dspStep (fun a s => Possible a s ∧ Orderly a s) (dspInit task) s) {a : Label}
    (ha : Possible a s) (hok : Orderly a s) :
    ∃ l out s' l', Held s l ∧ dspAct a s = some (out,s') ∧ Held s' l' ∧
      OneTask a.event s l out s' l' := by
  have hlive : ∃ l, Live s l := by
    refine reach_invariant (P := fun s => ∃ l, Live s l) ⟨[],live_init task⟩ ?_ h
    rintro a s s' ⟨l,hl⟩ ⟨ha,hok⟩ hs
    obtain ⟨out,t,l',hact,hl',-⟩ := act_one hl ha hok
    rw [dspStep, hact] at hs
    exact ⟨l',some.inj hs ▸ hl'⟩
  obtain ⟨l,hl⟩ := hlive
  obtain ⟨out,s',l',hact,hl',hone⟩ := act_one hl ha hok
  exact ⟨l,out,s',l',hl.held,hact,hl'.held,hone⟩

def numbered (t : ℕ) : Task := ⟨.done,t,false,false,fun _ => true,none,none⟩

/-- The first of two tasks is done, and its callback adds a third one and asks
for the second. -/
theorem one_task_runs_pair : ∃ s, Reach dspStep (fun a s => Possible a s ∧ Orderly a s)
    (dspInit numbered) s ∧ ∃ l out s' l', Held s l ∧
      dspAct ⟨3,.mail .done [.add 2, .assert 1]⟩ s = some (out,s') ∧ Held s' l' ∧
      OneTask (.mail .done [.add 2, .assert 1]) s l out s' l' := by
  have hrun : (runChecked dspStep admits [⟨1,.call (.add 0)⟩, ⟨2,.call (.add 1)⟩,
      ⟨3,.mail .init []⟩] (dspInit numbered)).any
        (fun s => decide (admits ⟨3,.mail .done [.add 2, .assert 1]⟩ s = true)) = true := by
    decide +kernel
  obtain ⟨s,hreach,ha⟩ := run_reaches (fun _ _ => admits_ok) hrun
  exact ⟨s,hreach,one_task_runs numbered hreach (admits_ok ha).1 (admits_ok ha).2⟩

/-- A task of a smaller priority number is booted while another one runs. -/
theorem urgent_task_booted : ∃ s out s', Reach dspStep Possible (dspInit numbered) s ∧
    Possible ⟨2,.call (.add 0)⟩ s ∧ Held s [1] ∧
    dspAct ⟨2,.call (.add 0)⟩ s = some (out,s') ∧ .boot 0 ∈ out ∧ s'.curr = some 1 := by
  have hrun : (runChecked dspStep admits [⟨1,.call (.add 1)⟩, ⟨2,.mail .init []⟩]
      (dspInit numbered)).any (fun s => decide (Held s [1] ∧
        ∃ r ∈ dspAct ⟨2,.call (.add 0)⟩ s, .boot 0 ∈ r.1 ∧ r.2.curr = some 1)) =
      true := by decide +kernel
  obtain ⟨s,hreach,hheld,⟨out,s'⟩,hact,hr⟩ := run_reaches (fun _ _ h => (admits_ok h).1) hrun
  exact ⟨s,out,s',hreach,⟨[1],hheld,by decide,nofun⟩,hheld,hact,hr⟩

end Libogc.DspOneTask
