import Libogc.Dsp.Task
import Libogc.Library.DoublyLinked

/-!
# The task list in memory

NULL ends the list of DSP tasks on both sides, and `firsttask` and `lasttask`
point at its ends. Two nodes that stand for the ends make of it a list between
sentinels, so that an insertion and a removal each replace a segment.
-/

set_option autoImplicit false

namespace Libogc.DspTaskList
open List Function DoublyLinked DspTask

inductive Node where
  | head
  | tail
  | task (t : ℕ)
  deriving DecidableEq, Repr

def toNext : Option ℕ → Node
  | none => .tail
  | some t => .task t

def toPrev : Option ℕ → Node
  | none => .head
  | some t => .task t

def nextNode (s : Dsp) : Node → Node
  | .head => toNext s.first
  | .tail => .tail
  | .task t => toNext (s.task t).next

def prevNode (s : Dsp) : Node → Node
  | .head => .head
  | .tail => toPrev s.last
  | .task t => toPrev (s.task t).prev

def Held (s : Dsp) (l : List ℕ) : Prop :=
  Listed (nextNode s) (prevNode s) .head .tail (l.map .task) ∧ l.Nodup

theorem toNext_inj {a b : Option ℕ} (h : toNext a = toNext b) : a = b := by
  cases a <;> cases b <;> simp_all [toNext]

theorem toPrev_inj {a b : Option ℕ} (h : toPrev a = toPrev b) : a = b := by
  cases a <;> cases b <;> simp_all [toPrev]

theorem getLastD_task (us : List ℕ) : (us.map Node.task).getLastD .head = toPrev us.getLast? := by
  rw [getLastD_eq_getLast?, getLast?_map]
  cases us.getLast? <;> rfl

theorem headD_task (vs : List ℕ) : (vs.map Node.task).headD .tail = toNext vs.head? := by
  cases vs <;> rfl

section Ends

variable {s : Dsp} {us vs l : List ℕ} {x : ℕ}

theorem held_around (h : Held s (us ++ x::vs)) :
    (s.task x).prev = us.getLast? ∧ (s.task x).next = vs.head? := by
  have hl := h.1
  rw [map_append] at hl
  obtain ⟨hp,hn⟩ := listed_around hl
  rw [getLastD_task] at hp
  rw [headD_task] at hn
  exact ⟨toPrev_inj hp,toNext_inj hn⟩

theorem held_first (h : Held s l) : s.first = l.head? := by
  have hl := (@listed_split _ _ _ _ _ [] [] (l.map Node.task)).mp h.1
  have hfirst := (isChain_cons_cons.mp hl.2.1).1.1
  rw [headD_task] at hfirst
  exact toNext_inj hfirst

theorem held_last (h : Held s l) : s.last = l.getLast? := by
  have hl := (@listed_split _ (nextNode s) (prevNode s) .head .tail (l.map Node.task) [] []).mp
    (by simpa using h.1)
  have hlast := (isChain_cons_cons.mp hl.2.1).1.2
  rw [getLastD_task] at hlast
  exact toPrev_inj hlast

theorem held_next_none (h : Held s l) (hx : x ∈ l) :
    (s.task x).next = none ↔ l.getLast? = some x := by
  obtain ⟨us,vs,rfl⟩ := append_of_mem hx
  rw [(held_around h).2]
  cases vs with
  | nil => simp
  | cons v vs =>
    have hnodup : (x::v::vs).Nodup := (nodup_append.mp h.2).2.1
    have hne : (v::vs).getLast? ≠ some x := by
      intro hlast
      exact (nodup_cons.mp hnodup).1 (mem_of_getLast? hlast)
    simpa using hne

theorem held_unique {l' : List ℕ} (h : Held s l) (h' : Held s l') : l = l' :=
  map_injective_iff.mpr (fun _ _ he => Node.task.inj he)
    (listed_unique h.1 h'.1 (by simp) (by simp))

end Ends

/-! The links are set. -/

section Set

variable (s : Dsp) (t : ℕ) (v : Option ℕ)

@[simp] theorem nextNode_setNext :
    nextNode (setNext t v s) = update (nextNode s) (.task t) (toNext v) := by
  funext n
  cases n with
  | head | tail => rfl
  | task x => by_cases hx : x = t <;> simp [nextNode, setNext, setTask, hx]

@[simp] theorem prevNode_setNext : prevNode (setNext t v s) = prevNode s := by
  funext n
  cases n with
  | head | tail => rfl
  | task x => by_cases hx : x = t <;> simp [prevNode, setNext, setTask, hx]

@[simp] theorem nextNode_setPrev : nextNode (setPrev t v s) = nextNode s := by
  funext n
  cases n with
  | head | tail => rfl
  | task x => by_cases hx : x = t <;> simp [nextNode, setPrev, setTask, hx]

@[simp] theorem prevNode_setPrev :
    prevNode (setPrev t v s) = update (prevNode s) (.task t) (toPrev v) := by
  funext n
  cases n with
  | head | tail => rfl
  | task x => by_cases hx : x = t <;> simp [prevNode, setPrev, setTask, hx]

theorem nextNode_first (c : Option ℕ) :
    nextNode { s with first := v, curr := c } = update (nextNode s) .head (toNext v) := by
  funext n
  cases n <;> simp [nextNode]

theorem prevNode_last (c : Option ℕ) :
    prevNode { s with last := v, curr := c } = update (prevNode s) .tail (toPrev v) := by
  funext n
  cases n <;> simp [prevNode]

end Set

/-! A task goes in or out. -/

section Change

variable {s s' : Dsp} {us vs l : List ℕ} {x : ℕ}

theorem nodes_nodup (h : l.Nodup) : (Node.head::l.map Node.task ++ [Node.tail]).Nodup := by
  have hmap : (l.map Node.task).Nodup := h.map (fun _ _ he => Node.task.inj he)
  refine nodup_cons.mpr ⟨by simp,?_⟩
  exact nodup_append.mpr ⟨hmap,nodup_singleton _,by simp⟩

theorem held_insert (h : Held s (us ++ vs)) (hx : x ∉ us ++ vs)
    (hn : nextNode s' = update (update (nextNode s) (.task x) (toNext vs.head?))
      (toPrev us.getLast?) (.task x)) (hp : prevNode s' = update (update (prevNode s) (.task x)
      (toPrev us.getLast?)) (toNext vs.head?) (.task x)) : Held s' (us ++ x::vs) := by
  have hl := h.1
  rw [map_append] at hl
  have hnodup :
    (Node.task x::(Node.head::(us.map .task ++ vs.map .task) ++ [Node.tail])).Nodup := by
    refine nodup_cons.mpr ⟨?_,?_⟩
    · simpa using hx
    · rw [← map_append]
      exact nodes_nodup h.2
  have hins := listed_insert hl hnodup
  rw [getLastD_task, headD_task, ← hn, ← hp] at hins
  refine ⟨?_,nodup_middle.mpr (nodup_cons.mpr ⟨hx,h.2⟩)⟩
  rw [map_append]
  exact hins

theorem held_remove (h : Held s (us ++ x::vs))
    (hn : nextNode s' = update (nextNode s) (toPrev us.getLast?) (toNext vs.head?))
    (hp : prevNode s' = update (prevNode s) (toNext vs.head?) (toPrev us.getLast?)) :
    Held s' (us ++ vs) := by
  have hrest : (us ++ vs).Nodup := (nodup_cons.mp (nodup_middle.mp h.2)).2
  have hl := h.1
  rw [map_append] at hl
  have hnodup : (Node.head::(us.map .task ++ vs.map .task) ++ [Node.tail]).Nodup := by
    rw [← map_append]
    exact nodes_nodup hrest
  have hrem := listed_remove hl hnodup
  rw [getLastD_task, headD_task, ← hn, ← hp] at hrem
  refine ⟨?_,hrest⟩
  rw [map_append]
  exact hrem

theorem held_congr (h : Held s l) (hn : nextNode s' = nextNode s) (hp : prevNode s' = prevNode s) :
    Held s' l := by
  refine ⟨?_,h.2⟩
  rw [hn, hp]
  exact h.1

end Change

/-! Insertion. -/

structure Relinked (s s' : Dsp) : Prop where
  task : ∀ y, { s'.task y with next := none, prev := none } =
    { s.task y with next := none, prev := none }
  rude : s'.rude = s.rude
  rudePend : s'.rudePend = s.rudePend

theorem relinked_setNext (t : ℕ) (v : Option ℕ) (s : Dsp) : Relinked s (setNext t v s) := by
  refine ⟨?_,rfl,rfl⟩
  intro y
  by_cases hy : y = t
  · subst hy
    simp [setNext, setTask]
  · simp [setNext, setTask, hy]

theorem relinked_setPrev (t : ℕ) (v : Option ℕ) (s : Dsp) : Relinked s (setPrev t v s) := by
  refine ⟨?_,rfl,rfl⟩
  intro y
  by_cases hy : y = t
  · subst hy
    simp [setPrev, setTask]
  · simp [setPrev, setTask, hy]

theorem relinked_ends (f l c : Option ℕ) (s : Dsp) :
    Relinked s { s with first := f, last := l, curr := c } := ⟨fun _ => rfl,rfl,rfl⟩

theorem Relinked.trans {s t u : Dsp} (h : Relinked s t) (h' : Relinked t u) : Relinked s u :=
  ⟨fun y => (h'.task y).trans (h.task y),h'.rude.trans h.rude,h'.rudePend.trans h.rudePend⟩

theorem Relinked.fields {s s' : Dsp} (h : Relinked s s') (y : ℕ) :
    (s'.task y).state = (s.task y).state ∧ (s'.task y).prio = (s.task y).prio ∧
      (s'.task y).cancel = (s.task y).cancel := by
  have htask := h.task y
  simp only [Task.mk.injEq] at htask
  exact ⟨htask.1,htask.2.1,htask.2.2.2.1⟩

theorem Relinked.state {s s' : Dsp} (h : Relinked s s') (y : ℕ) :
    (s'.task y).state = (s.task y).state := (h.fields y).1

section Insert

variable {s : Dsp} {us vs l : List ℕ} {x n : ℕ}

theorem findBehind_spec (prio : ℕ) (h : Held s (us ++ vs)) (hn : vs.length < n) :
    ∃ ws zs, vs = ws ++ zs ∧ findBehind prio n vs.head? s = some zs.head? ∧
      (∀ y ∈ ws, (s.task y).prio ≤ prio) ∧ ∀ y, zs.head? = some y → prio < (s.task y).prio := by
  induction vs generalizing us n with
  | nil =>
    obtain ⟨m,rfl⟩ := Nat.exists_eq_add_of_lt hn
    exact ⟨[],[],rfl,by simp [findBehind],by simp,by simp⟩
  | cons v vs ih =>
    obtain ⟨m,rfl⟩ : ∃ m, n = m+1 := ⟨n-1,by simp at hn; omega⟩
    by_cases hv : prio < (s.task v).prio
    · refine ⟨[],v::vs,rfl,by simp [findBehind, hv],by simp,?_⟩
      rintro y ⟨⟩
      exact hv
    · obtain ⟨ws,zs,rfl,hfind,hws,hzs⟩ := @ih (us ++ [v]) m (by simpa using h) (by simpa using hn)
      refine ⟨v::ws,zs,rfl,?_,?_,hzs⟩
      · rw [head?_cons, findBehind, if_neg hv, (held_around h).2]
        exact hfind
      · intro y hy
        rcases mem_cons.mp hy with rfl | hy
        · exact Nat.le_of_not_lt hv
        · exact hws y hy

theorem insertBefore_spec {y : ℕ} (h : Held s (us ++ y::vs)) (hx : x ∉ us ++ y::vs) :
    Held (insertBefore x y s) (us ++ x::y::vs) ∧ (insertBefore x y s).curr = s.curr ∧
      Relinked s (insertBefore x y s) := by
  have hprev := (held_around h).1
  have hxy : y ≠ x := by
    rintro rfl
    simp at hx
  have hlinks := ((relinked_setPrev x us.getLast? s).trans (relinked_setPrev y (some x) _)).trans
    (relinked_setNext x (some y) _)
  have hpx : ((setNext x (some y) (setPrev y (some x) (setPrev x us.getLast? s))).task x).prev =
      us.getLast? := by
    simp [setNext, setPrev, setTask, hxy.symm]
  cases hp : us.getLast? with
  | none =>
    rw [hp] at hlinks hpx hprev
    have heq : insertBefore x y s =
      { setNext x (some y) (setPrev y (some x) (setPrev x none s)) with
        first := some x } := by
      simp only [insertBefore, hprev, hpx]
    rw [heq]
    refine ⟨held_insert h hx ?_ ?_,rfl,⟨hlinks.task,hlinks.rude,hlinks.rudePend⟩⟩
    · rw [hp, nextNode_first, nextNode_setNext, nextNode_setPrev, nextNode_setPrev]
      rfl
    · rw [hp]
      change prevNode (setNext x (some y) (setPrev y (some x) (setPrev x none s))) = _
      rw [prevNode_setNext, prevNode_setPrev, prevNode_setPrev]
      rfl
  | some p =>
    rw [hp] at hlinks hpx hprev
    have heq : insertBefore x y s =
        setNext p (some x) (setNext x (some y) (setPrev y (some x) (setPrev x (some p) s))) := by
      simp only [insertBefore, hprev, hpx]
    rw [heq]
    refine ⟨held_insert h hx ?_ ?_,rfl,hlinks.trans (relinked_setNext p (some x) _)⟩
    · rw [hp]
      simp [toPrev, toNext]
    · rw [hp]
      simp [toPrev, toNext]

theorem appendTask_spec {p : ℕ} (h : Held s l) (hx : x ∉ l) (hp : l.getLast? = some p) :
    Held (appendTask x p s) (l ++ [x]) ∧ (appendTask x p s).curr = s.curr ∧
      Relinked s (appendTask x p s) := by
  have hlinks := ((relinked_setNext p (some x) s).trans (relinked_setNext x none _)).trans
    (relinked_setPrev x (some p) _)
  have hpx : (Node.task p) ≠ .task x := by
    rintro ⟨⟩
    exact hx (mem_of_getLast? hp)
  refine ⟨@held_insert s _ l [] x (by simpa using h) (by simpa using hx) ?_ ?_,rfl,
    ⟨hlinks.task,hlinks.rude,hlinks.rudePend⟩⟩
  · rw [hp]
    change nextNode (setPrev x (some p) (setNext x none (setNext p (some x) s))) = _
    rw [nextNode_setPrev, nextNode_setNext, nextNode_setNext]
    exact update_comm hpx _ _ _
  · rw [hp]
    change prevNode { setPrev x (some p) (setNext x none (setNext p (some x) s)) with
      last := some x, curr := s.curr } = _
    rw [prevNode_last, prevNode_setPrev, prevNode_setNext, prevNode_setNext]
    rfl

theorem inserttask_spec (h : Held s l) (hx : x ∉ l) (hn : l.length < n) :
    ∃ s' us vs, dspInserttask n x s = some s' ∧ l = us ++ vs ∧ Held s' (us ++ x::vs) ∧
      (∀ y ∈ us, (s.task y).prio ≤ (s.task x).prio) ∧
      (∀ y, vs.head? = some y → (s.task x).prio < (s.task y).prio) ∧
      s'.curr = (if l = [] then some x else s.curr) ∧ Relinked s s' := by
  have hfirst := held_first h
  have hlast := held_last h
  cases l with
  | nil =>
    have heq : dspInserttask n x s = some (setPrev x none (setNext x none
        { s with curr := some x, last := some x, first := some x })) := by
      rw [dspInserttask, hfirst, head?_nil]
    have hlinks := (relinked_setNext x none
      { s with curr := some x, last := some x, first := some x }).trans (relinked_setPrev x none _)
    refine ⟨_,[],[],heq,rfl,held_insert h hx ?_ ?_,by simp,by simp,rfl,
      ⟨hlinks.task,hlinks.rude,hlinks.rudePend⟩⟩
    · rw [nextNode_setPrev, nextNode_setNext]
      funext y
      cases y <;> simp [nextNode, toNext, toPrev, update_apply]
    · rw [prevNode_setPrev]
      funext y
      cases y <;> simp [prevNode, toNext, toPrev, update_apply]
  | cons f l =>
    obtain ⟨us,vs,hsplit,hfind,hus,hvs⟩ :=
      @findBehind_spec s [] (f::l) n (s.task x).prio h hn
    rw [head?_cons] at hfirst hfind
    rw [hsplit] at h hx hlast
    cases vs with
    | nil =>
      rw [append_nil] at h hx hlast hsplit
      obtain ⟨p,hp⟩ : ∃ p, us.getLast? = some p := by
        rw [← hsplit]
        exact ⟨_,getLast?_eq_some_getLast (cons_ne_nil f l)⟩
      have heq : dspInserttask n x s = some (appendTask x p s) := by
        rw [dspInserttask, hfirst]
        simp only [hfind, hlast, hp, head?_nil]
      obtain ⟨hheld,hcurr,hrel⟩ := appendTask_spec h hx hp
      exact ⟨_,us,[],heq,by rw [hsplit, append_nil],hheld,hus,by simp,by simpa using hcurr,hrel⟩
    | cons y vs =>
      have heq : dspInserttask n x s = some (insertBefore x y s) := by
        rw [dspInserttask, hfirst]
        simp only [hfind, head?_cons]
      obtain ⟨hheld,hcurr,hrel⟩ := insertBefore_spec h hx
      exact ⟨_,us,y::vs,heq,hsplit,hheld,hus,hvs,by simpa using hcurr,hrel⟩

end Insert

/-! Removal. -/

section Remove

variable {s : Dsp} {us vs : List ℕ} {x : ℕ} {y : Task}

theorem nextNode_setTask (h : y.next = (s.task x).next) :
    nextNode (setTask x y s) = nextNode s := by
  funext n
  cases n with
  | head | tail => rfl
  | task t => by_cases ht : t = x <;> simp [nextNode, setTask, ht, h]

theorem prevNode_setTask (h : y.prev = (s.task x).prev) :
    prevNode (setTask x y s) = prevNode s := by
  funext n
  cases n with
  | head | tail => rfl
  | task t => by_cases ht : t = x <;> simp [prevNode, setTask, ht, h]

theorem held_setTask {l : List ℕ} (h : Held s l) (hn : y.next = (s.task x).next)
    (hp : y.prev = (s.task x).prev) : Held (setTask x y s) l :=
  held_congr h (nextNode_setTask hn) (prevNode_setTask hp)

theorem setTask_state (y : Task) (t : ℕ) (ht : t ≠ x) :
    ((setTask x y s).task t).state = (s.task t).state := by
  simp [setTask, ht]

/-- The running task of a list from which a task is removed: it is left alone
only if the first one of several goes. -/
def currAfter (us vs : List ℕ) (curr : Option ℕ) : Option ℕ :=
  if us = [] then if vs = [] then none else curr
  else if vs = [] then us.head? else vs.head?

theorem removetask_spec (h : Held s (us ++ x::vs)) :
    ∃ s', dspRemovetask x s = some s' ∧ Held s' (us ++ vs) ∧ s'.curr = currAfter us vs s.curr ∧
      Relinked (clearTask x s) s' := by
  have hclear : Held (clearTask x s) (us ++ x::vs) := held_setTask h rfl rfl
  have hcurr : (clearTask x s).curr = s.curr := rfl
  rw [dspRemovetask]
  generalize clearTask x s = t at hclear hcurr
  obtain ⟨hprev,hnext⟩ := held_around hclear
  have hfirst := held_first hclear
  have hlast := held_last hclear
  have hnodup := nodup_append.mp hclear.2
  cases us with
  | nil =>
    rw [nil_append, head?_cons] at hfirst
    cases vs with
    | nil =>
      refine ⟨{ t with curr := none, last := none, first := none },?_,held_remove hclear ?_ ?_,rfl,
        relinked_ends none none none t⟩
      · simp [hfirst, hnext]
      · exact nextNode_first t none none
      · exact prevNode_last t none none
    | cons v vs =>
      refine ⟨setPrev v none { t with first := some v },?_,held_remove hclear ?_ ?_,hcurr,
        (relinked_ends (some v) t.last t.curr t).trans (relinked_setPrev v none _)⟩
      · simp [hfirst, hnext]
      · rw [nextNode_setPrev]
        exact nextNode_first t (some v) t.curr
      · exact prevNode_setPrev { t with first := some v } v none
  | cons u us =>
    have hux : u ≠ x := hnodup.2.2 u (by simp) x (by simp)
    obtain ⟨p,hp⟩ : ∃ p, (u::us).getLast? = some p :=
      ⟨_,getLast?_eq_some_getLast (cons_ne_nil u us)⟩
    rw [hp] at hprev
    rw [cons_append, head?_cons] at hfirst
    cases vs with
    | nil =>
      rw [getLast?_concat] at hlast
      refine ⟨{ setNext p none { t with last := some p } with curr := t.first },?_,
        held_remove hclear ?_ ?_,?_,?_⟩
      · simp [hfirst, hlast, hprev, hux]
      · rw [hp]
        exact nextNode_setNext { t with last := some p } p none
      · rw [hp]
        change prevNode (setNext p none { t with last := some p }) = _
        rw [prevNode_setNext]
        exact prevNode_last t (some p) t.curr
      · rw [hfirst]
        rfl
      · exact ((relinked_ends t.first (some p) t.curr t).trans (relinked_setNext p none _)).trans
          (relinked_ends t.first (some p) t.first _)
    | cons v vs =>
      have hxv : x ∉ v::vs := (nodup_cons.mp hnodup.2.1).1
      have hnotlast : (u::us ++ x::v::vs).getLast? ≠ some x := by
        rw [getLast?_append_cons, getLast?_cons_cons]
        exact fun he => hxv (mem_of_getLast? he)
      rw [← hlast] at hnotlast
      refine ⟨setPrev v (some p) (setNext p (some v) { t with curr := some v }),?_,
        held_remove hclear ?_ ?_,rfl,?_⟩
      · simp [hfirst, hnotlast, hprev, hnext, hux]
      · rw [hp, nextNode_setPrev]
        exact nextNode_setNext { t with curr := some v } p (some v)
      · rw [hp, prevNode_setPrev, prevNode_setNext]
        rfl
      · exact ((relinked_ends t.first t.last (some v) t).trans
          (relinked_setNext p (some v) _)).trans
          (relinked_setPrev v (some p) _)

structure Apart (x : ℕ) (s s' : Dsp) : Prop where
  prio : ∀ y, (s'.task y).prio = (s.task y).prio
  other : ∀ y, y ≠ x → (s'.task y).state = (s.task y).state ∧
    (s'.task y).cancel = (s.task y).cancel

theorem Apart.trans {t u : Dsp} (h : Apart x s t) (h' : Apart x t u) : Apart x s u :=
  ⟨fun y => (h'.prio y).trans (h.prio y),fun y hy =>
    ⟨(h'.other y hy).1.trans (h.other y hy).1,(h'.other y hy).2.trans (h.other y hy).2⟩⟩

theorem apart_setTask (h : y.prio = (s.task x).prio) : Apart x s (setTask x y s) := by
  refine ⟨?_,fun t ht => by simp [setTask, ht]⟩
  intro t
  by_cases ht : t = x <;> simp [setTask, ht, h]

theorem Relinked.apart {s' : Dsp} (h : Relinked s s') : Apart x s s' :=
  ⟨fun y => (h.fields y).2.1,fun y _ => ⟨(h.fields y).1,(h.fields y).2.2⟩⟩

end Remove

end Libogc.DspTaskList
