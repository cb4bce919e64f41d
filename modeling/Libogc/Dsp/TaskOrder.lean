import Libogc.Dsp.OneTask
import Libogc.Library.StableOrder

/-!
# The order of the task list

Beside the list of `dsp.c` the books say which tasks were added and have not
reported that they are done, in the order of their addition, and which of them
were cancelled since. The list is the books sorted by priority.
-/

set_option autoImplicit false

namespace Libogc.DspTaskOrder
open Option GuardedReach CyclicVisit StableOrder List
open DspTask DspTaskList
open DspOneTask (Live live_init tasksFrom mem_insert live_setTask addTask_added cancelTask_done
  finish_done yield_done ending_chosen setState_fields)

structure Books where
  dsp : Dsp
  added : List ℕ
  cancelled : List ℕ

def booksInit (task : ℕ → Task) : Books := ⟨dspInit task,[],[]⟩

/-- The callbacks of the tasks call no function of the DSP. -/
inductive Event where
  | call (k : Call)
  | mail (m : Mail)
  deriving DecidableEq, Repr

def act (e : Event) (b : Books) : Option (List Sent × Dsp) :=
  match e with
  | .call k => dspCall (b.added.length+1) k b.dsp
  | .mail m => dspTaskcb (b.added.length+1) m [] b.dsp

/-- The running task reports that it is done, or yields after it was
cancelled. -/
def leaves (m : Mail) (c : ℕ) (b : Books) : Bool :=
  decide (m = .done ∨ m = .yield ∧ c ∈ b.cancelled)

def record (e : Event) (b : Books) (s : Dsp) : Books :=
  match e with
  | .call (.add t) => ⟨s,b.added ++ [t],b.cancelled.filter (fun c => decide (c ≠ t))⟩
  | .call (.assert _) => ⟨s,b.added,b.cancelled⟩
  | .call (.cancel t) => ⟨s,b.added,t::b.cancelled⟩
  | .mail m => ⟨s,b.dsp.curr.elim b.added (fun c =>
      if leaves m c b then b.added.erase c else b.added),b.cancelled⟩

def taskStep (e : Event) (b : Books) : Option Books := (act e b).map (fun r => record e b r.2)

/-- Only a task that is not in the list is added, only one of the list that
does not run is asserted, and mails come while a task is in the list. -/
def Allowed (e : Event) (b : Books) : Prop :=
  match e with
  | .call (.add t) => t ∉ b.added
  | .call (.assert t) => t ∈ b.added ∧ b.dsp.curr ≠ some t
  | .call (.cancel _) => True
  | .mail _ => b.added ≠ []

/-! The list is followed from both ends. -/

def tasksBack : ℕ → Option ℕ → Dsp → List ℕ
  | n+1, some t, s => t::tasksBack n (s.task t).prev s
  | _, _, _ => []

section Ends

variable {s : Dsp} {us vs : List ℕ}

@[simp] theorem tasksFrom_none (n : ℕ) (s : Dsp) : tasksFrom n none s = [] := by
  cases n <;> rfl

@[simp] theorem tasksBack_none (n : ℕ) (s : Dsp) : tasksBack n none s = [] := by
  cases n <;> rfl

theorem tasksFrom_held (h : Held s (us ++ vs)) {n : ℕ} (hn : vs.length ≤ n) :
    tasksFrom n vs.head? s = vs := by
  induction vs generalizing us n with
  | nil => exact tasksFrom_none n s
  | cons v vs ih =>
    obtain ⟨m,rfl⟩ : ∃ m, n = m+1 := ⟨n-1,by simp at hn; omega⟩
    have hrest : Held s (us ++ [v] ++ vs) := by simpa using h
    rw [head?_cons, tasksFrom, (held_around h).2, ih hrest (by simpa using hn)]

theorem tasksBack_held (h : Held s (us ++ vs)) {n : ℕ} (hn : us.length ≤ n) :
    tasksBack n us.getLast? s = us.reverse := by
  induction us using reverseRecOn generalizing vs n with
  | nil => exact tasksBack_none n s
  | append_singleton us u ih =>
    obtain ⟨m,rfl⟩ : ∃ m, n = m+1 := ⟨n-1,by simp at hn; omega⟩
    rw [append_assoc] at h
    rw [getLast?_concat, tasksBack, (held_around h).1, ih h (by simpa using hn),
      reverse_concat]

end Ends

/-! The steps. -/

def prio (s : Dsp) (t : ℕ) : ℕ := (s.task t).prio

structure Kept (b : Books) (l : List ℕ) : Prop where
  live : Live b.dsp l
  order : StablySorted (prio b.dsp) l b.added
  rude : b.dsp.rudePend = true → b.dsp.rude ≠ b.dsp.curr
  cancel : ∀ t ∈ l, (b.dsp.task t).cancel = decide (t ∈ b.cancelled)

section Steps

variable {b : Books} {l : List ℕ} {c t : ℕ}

section

variable (h : Kept b l)
include h

theorem Kept.length : l.length = b.added.length := by
  refine (perm_iff_count.mpr ?_).length_eq
  intro a
  have hc := congrArg (count a) (h.order.stable (prio b.dsp a))
  rwa [count_filter (by simp), count_filter (by simp)] at hc

theorem Kept.bound : l.length < b.added.length+1 := by
  rw [h.length]
  exact Nat.lt_succ_self _

theorem Kept.same {s : Dsp} (hlive : Live s l)
    (hfields : ∀ y, (s.task y).prio = (b.dsp.task y).prio ∧
      (s.task y).cancel = (b.dsp.task y).cancel)
    (hrude : s.rudePend = true → s.rude ≠ s.curr) : Kept ⟨s,b.added,b.cancelled⟩ l :=
  ⟨hlive,h.order.congr (fun y => (hfields y).1),hrude,
    fun y hy => (hfields y).2.trans (h.cancel y hy)⟩

theorem add_kept (ht : t ∉ b.added) :
    ∃ b' l', taskStep (.call (.add t)) b = some b' ∧ Kept b' l' := by
  have htl : t ∉ l := fun hm => ht (h.order.mem_iff.mp hm)
  obtain ⟨us,vs,s',rfl,hadd,heq⟩ := addTask_added h.live h.bound htl
  refine ⟨⟨s',b.added ++ [t],b.cancelled.filter (fun c => decide (c ≠ t))⟩,us ++ t::vs,?_,
    hadd.live,?_,?_,?_⟩
  · rw [taskStep, act, dspCall, heq]
    rfl
  · exact (h.order.insert hadd.before hadd.behind).congr hadd.apart.prio
  · intro hp
    rw [hadd.pend] at hp
    obtain ⟨r,hr,-⟩ := h.live.rude hp
    have hcurr : s'.curr = b.dsp.curr := hadd.curr.trans (if_neg (ne_nil_of_mem hr))
    rw [hadd.rude, hcurr]
    exact h.rude hp
  · intro y hy
    by_cases hyt : y = t
    · subst hyt
      rw [hadd.cancel]
      simp
    · rw [(hadd.apart.other y hyt).2, h.cancel y ((mem_insert.mp hy).resolve_right hyt)]
      simp [hyt]

theorem assert_kept (ht : t ∈ b.added) (hc : b.dsp.curr ≠ some t) :
    ∃ b' l', taskStep (.call (.assert t)) b = some b' ∧ Kept b' l' := by
  have htl : t ∈ l := h.order.mem_iff.mpr ht
  obtain ⟨c,-,hcc⟩ := h.live.curr_mem (ne_nil_of_mem htl)
  have hct : c ≠ t := fun he => hc (he ▸ hcc)
  have hset : Kept ⟨{ b.dsp with rude := some t, rudePend := true },b.added,b.cancelled⟩ l := by
    refine h.same ⟨held_congr h.live.held rfl rfl,h.live.curr,fun _ => ⟨t,htl,rfl⟩,h.live.undone⟩
      (fun _ => ⟨rfl,rfl⟩) ?_
    exact fun _ he => hc he.symm
  by_cases hprio : (b.dsp.task t).prio < (b.dsp.task c).prio
  · exact ⟨_,l,by simp [taskStep, act, dspCall, dspAssertTask, hcc, hprio, record],hset⟩
  · exact ⟨b,l,by simp [taskStep, act, dspCall, dspAssertTask, hcc, hct, hprio, record],h⟩

theorem cancel_kept : ∃ b' l', taskStep (.call (.cancel t)) b = some b' ∧ Kept b' l' := by
  have hapart : Apart t b.dsp (dspCancelTask t b.dsp) := apart_setTask rfl
  refine ⟨⟨dspCancelTask t b.dsp,b.added,t::b.cancelled⟩,l,rfl,(cancelTask_done h.live).live,
    h.order.congr hapart.prio,h.rude,?_⟩
  intro y hy
  by_cases hyt : y = t
  · subst hyt
    simp [dspCancelTask, setTask]
  · rw [(hapart.other y hyt).2, h.cancel y hy]
    simp [hyt]

theorem received_done (hc : c ∈ l) (m : Mail) :
    leaves m c b = true ↔ received m c b.dsp = .done := by
  rw [leaves, received, h.cancel c hc]
  by_cases hm : c ∈ b.cancelled <;> cases m <;> simp [hm]

end

theorem mail_stays {m : Mail} (hcurr : b.dsp.curr = some c) (hm : leaves m c b = false)
    {r : List Sent × Dsp} (h : act (.mail m) b = some r) :
    taskStep (.mail m) b = some ⟨r.2,b.added,b.cancelled⟩ := by
  rw [taskStep, h, map_some, record, hcurr, elim_some, hm]
  rfl

theorem done_kept (h : Kept b l) (hc : c ∈ l) (hcurr : b.dsp.curr = some c) {m : Mail}
    (hm : received m c b.dsp = .done) :
    ∃ b', taskStep (.mail m) b = some b' ∧ Kept b' (l.erase c) := by
  have hrude : b.dsp.rude ≠ some c ∨ b.dsp.rudePend = false := by
    cases hp : b.dsp.rudePend with
    | true => exact .inl (hcurr ▸ h.rude hp)
    | false => exact .inr rfl
  obtain ⟨out,s',hfin,hd⟩ := finish_done (h.live.ready hrude) hc (ending_chosen h.live hc)
  have hcalls : doneCalls c [] b.dsp = [] := ite_self _
  have hdone : dspDone (b.added.length+1) c [] b.dsp =
    some (calls .done c b.dsp ++ [] ++ out,s') := by
    rw [dspDone, hcalls, dspCalls, bind_some, hcurr, bind_some, hfin, map_some]
  refine ⟨⟨s',b.added.erase c,b.cancelled⟩,?_,hd.live,?_,?_,?_⟩
  · rw [taskStep, act, dspTaskcb, hcurr, bind_some, hm]
    rw [hdone, map_some, record, hcurr, elim_some,
      if_pos ((received_done h hc m).mpr hm)]
  · exact (h.order.erase c).congr hd.apart.prio
  · -- a task that was to take over has, and otherwise none was
    intro hp
    rw [hd.pend, Bool.and_eq_true, decide_eq_true_eq] at hp
    rw [dspEnding, if_pos hp.1] at hp
    exact absurd rfl hp.2
  · intro y hy
    have hyc : y ≠ c := fun he => by
      rw [he, h.live.held.2.mem_erase_iff] at hy
      exact hy.1 rfl
    rw [(hd.apart.other y hyc).2]
    exact h.cancel y (mem_of_mem_erase hy)

theorem yield_kept (h : Kept b l) (hc : c ∈ l) (hcurr : b.dsp.curr = some c)
    (hcancel : c ∉ b.cancelled) : ∃ s', taskStep (.mail .yield) b = some ⟨s',b.added,b.cancelled⟩ ∧
      Kept ⟨s',b.added,b.cancelled⟩ l ∧ s'.rudePend = false ∧
      s'.curr = if b.dsp.rudePend then b.dsp.rude else cyclicNext l c := by
  have hleaves : leaves .yield c b = false := by simp [leaves, hcancel]
  have hrecv : received .yield c b.dsp = .yield := by
    rw [received, h.cancel c hc]
    simp [hcancel]
  obtain ⟨out,s',hy,hd⟩ := yield_done h.live hc hcurr
  have hact : act (.mail .yield) b = some (out,s') := by
    rw [act, dspTaskcb, hcurr, bind_some, hrecv]
    exact hy
  refine ⟨s',mail_stays hcurr hleaves hact,h.same hd.live hd.fields ?_,hd.pend,hd.curr⟩
  intro hp
  rw [hd.pend] at hp
  exact absurd hp Bool.false_ne_true

def quiet (m : Mail) : Bool := decide (m = .init ∨ m = .resume ∨ m = .req)

theorem quiet_kept (h : Kept b l) (hcurr : b.dsp.curr = some c) {m : Mail} (hm : quiet m = true) :
    ∃ s', taskStep (.mail m) b = some ⟨s',b.added,b.cancelled⟩ ∧
      Kept ⟨s',b.added,b.cancelled⟩ l ∧ s'.rudePend = b.dsp.rudePend ∧ s'.curr = some c := by
  have hrun : Kept ⟨setState c .run b.dsp,b.added,b.cancelled⟩ l :=
    h.same (live_setTask h.live rfl rfl (by simp)) (setState_fields .run) h.rude
  have hstays : leaves m c b = false := by
    cases m <;> simp_all [leaves, quiet]
  have hrecv : received m c b.dsp = m := by
    cases m <;> simp_all [received, quiet]
  have hact : ∃ out s', act (.mail m) b = some (out,s') ∧
      (s' = setState c .run b.dsp ∨ s' = b.dsp) := by
    rw [act, dspTaskcb, hcurr, bind_some, hrecv]
    cases m with
    | init | resume => exact ⟨_,_,rfl,.inl rfl⟩
    | req => exact ⟨_,_,rfl,.inr rfl⟩
    | yield | done => exact absurd hm (by decide)
  obtain ⟨out,s',hact,hs'⟩ := hact
  refine ⟨s',mail_stays hcurr hstays hact,?_⟩
  rcases hs' with rfl | rfl
  · exact ⟨hrun,rfl,hcurr⟩
  · exact ⟨h,rfl,hcurr⟩

theorem mail_kept (h : Kept b l) (hl : b.added ≠ []) (m : Mail) :
    ∃ b' l', taskStep (.mail m) b = some b' ∧ Kept b' l' := by
  have hne : l ≠ [] := by
    rintro rfl
    exact hl (length_eq_zero_iff.mp h.length.symm)
  obtain ⟨c,hc,hcurr⟩ := h.live.curr_mem hne
  by_cases hdone : leaves m c b = true
  · obtain ⟨b',hs,hk⟩ := done_kept h hc hcurr ((received_done h hc m).mp hdone)
    exact ⟨b',_,hs,hk⟩
  · by_cases hquiet : quiet m = true
    · obtain ⟨s',hs,hk,-⟩ := quiet_kept h hcurr hquiet
      exact ⟨_,l,hs,hk⟩
    · obtain ⟨rfl,hcancel⟩ : m = .yield ∧ c ∉ b.cancelled := by
        cases m <;> simp_all [leaves, quiet]
      obtain ⟨s',hs,hk,-⟩ := yield_kept h hc hcurr hcancel
      exact ⟨_,l,hs,hk⟩

theorem step_kept {e : Event} (h : Kept b l) (he : Allowed e b) :
    ∃ b' l', taskStep e b = some b' ∧ Kept b' l' := by
  cases e with
  | mail m => exact mail_kept h he m
  | call k =>
    cases k with
    | add t => exact add_kept h he
    | assert t => exact assert_kept h he.1 he.2
    | cancel t => exact cancel_kept h

end Steps

/-! Runs. -/

/-- The list from `firsttask` by `next` and from `lasttask` by `prev`. -/
structure Ordered (b : Books) (l : List ℕ) : Prop where
  forward : ∀ n, l.length ≤ n → tasksFrom n b.dsp.first b.dsp = l
  backward : ∀ n, l.length ≤ n → tasksBack n b.dsp.last b.dsp = l.reverse
  nodup : l.Nodup
  mem : ∀ t, t ∈ l ↔ t ∈ b.added
  sorted : l.Pairwise (fun t u => prio b.dsp t ≤ prio b.dsp u)
  stable : ∀ p, l.filter (fun t => decide (prio b.dsp t = p)) =
    b.added.filter (fun t => decide (prio b.dsp t = p))
  curr : ∀ c, b.dsp.curr = some c → c ∈ l
  empty : b.dsp.curr = none ↔ l = []

def mailsIn : List Mail → Books → Option Books
  | [], b => some b
  | m::ms, b => (taskStep (.mail m) b).bind (mailsIn ms)

/-- The tasks that run after each of a number of yields, with other mails
before each of them. -/
def yields : List (List Mail) → Books → Option (List ℕ)
  | [], _ => some []
  | ms::rest, b => (mailsIn ms b).bind (fun b => (taskStep (.mail .yield) b).bind (fun b' =>
    b'.dsp.curr.bind (fun c => (yields rest b').map (c::·))))

section Runs

variable {b : Books} {l : List ℕ} {c : ℕ}

theorem Kept.ordered (h : Kept b l) : Ordered b l where
  forward n hn := by
    rw [held_first h.live.held]
    exact @tasksFrom_held _ [] l h.live.held n hn
  backward n hn := by
    rw [held_last h.live.held]
    exact @tasksBack_held _ l [] (by simpa using h.live.held) n hn
  nodup := h.live.held.2
  mem _ := h.order.mem_iff
  sorted := h.order.sorted
  stable := h.order.stable
  curr c hc := (h.live.running hc).2.1
  empty := by
    rcases h.live.curr with ⟨hl,hc⟩ | ⟨c,hc,hcc⟩
    · exact iff_of_true hc hl
    · exact iff_of_false (by simp [hcc]) (ne_nil_of_mem hc)

theorem mailsIn_kept {ms : List Mail} (h : Kept b l) (hcurr : b.dsp.curr = some c)
    (hms : ∀ m ∈ ms, quiet m = true) :
    ∃ s', mailsIn ms b = some ⟨s',b.added,b.cancelled⟩ ∧ Kept ⟨s',b.added,b.cancelled⟩ l ∧
      s'.rudePend = b.dsp.rudePend ∧ s'.curr = some c := by
  induction ms generalizing b with
  | nil => exact ⟨b.dsp,rfl,h,rfl,hcurr⟩
  | cons m ms ih =>
    obtain ⟨u,hu,hk,hpend,hc⟩ := quiet_kept h hcurr (hms m mem_cons_self)
    obtain ⟨s',hs,hk',hpend',hc'⟩ := ih hk hc (fun n hn => hms n (mem_cons_of_mem _ hn))
    exact ⟨s',by rw [mailsIn, hu, bind_some, hs],hk',hpend'.trans hpend,hc'⟩

/-- By induction on the yields: each is one step round the list. -/
theorem yields_visits {mss : List (List Mail)} (h : Kept b l) (hcurr : b.dsp.curr = some c)
    (hpend : b.dsp.rudePend = false) (hcancel : ∀ t ∈ l, t ∉ b.cancelled)
    (hms : ∀ ms ∈ mss, ∀ m ∈ ms, quiet m = true) :
    yields mss b = visits (cyclicNext l) mss.length c := by
  induction mss generalizing b c with
  | nil => rfl
  | cons ms mss ih =>
    obtain ⟨u,hu,hk,hup,huc⟩ := mailsIn_kept h hcurr (hms ms mem_cons_self)
    have hc : c ∈ l := (hk.live.running huc).2.1
    obtain ⟨s',hs,hk',hp',hc'⟩ := yield_kept hk hc huc (hcancel c hc)
    rw [if_neg (by simp [hup, hpend])] at hc'
    obtain ⟨d,-,hd⟩ := hk'.live.curr_mem (ne_nil_of_mem hc)
    have hnext : cyclicNext l c = some d := hc'.symm.trans hd
    rw [yields, hu, bind_some, hs, bind_some, hd, bind_some,
      ih hk' hd hp' hcancel (fun ns hns => hms ns (mem_cons_of_mem _ hns)),
      length_cons, visits, hnext, bind_some]

theorem kept_init (task : ℕ → Task) : Kept (booksInit task) [] :=
  ⟨live_init task,stablySorted_nil,nofun,nofun⟩

theorem reach_kept {task : ℕ → Task} (h : Reach taskStep Allowed (booksInit task) b) :
    ∃ l, Kept b l := by
  refine reach_invariant (P := fun b => ∃ l, Kept b l) ⟨[],kept_init task⟩ ?_ h
  rintro e b b' ⟨l,hk⟩ he hs
  obtain ⟨b₁,l',hstep,hk'⟩ := step_kept hk he
  obtain rfl := mem_unique hstep hs
  exact ⟨l',hk'⟩

end Runs

/-- The next call or mail follows no NULL pointer and ends, and yields without
a task that is to run next go round the list. -/
structure Cyclic (b : Books) (l : List ℕ) : Prop where
  total : ∀ e, Allowed e b → ∃ b', taskStep e b = some b'
  next : ∀ c, b.dsp.curr = some c → b.dsp.rudePend = false → c ∉ b.cancelled →
    ∃ b', taskStep (.mail .yield) b = some b' ∧ Ordered b' l ∧ b'.dsp.curr = cyclicNext l c
  round : ∀ c, b.dsp.curr = some c → b.dsp.rudePend = false → (∀ t ∈ l, t ∉ b.cancelled) →
    ∀ mss : List (List Mail), mss.length = l.length →
      (∀ ms ∈ mss, ∀ m ∈ ms, m = .init ∨ m = .resume ∨ m = .req) →
      yields mss b = some (l.rotate (l.idxOf c+1))

theorem task_list_ordered (task : ℕ → Task) {b : Books}
    (h : Reach taskStep Allowed (booksInit task) b) : ∃ l, Ordered b l ∧ Cyclic b l := by
  obtain ⟨l,hk⟩ := reach_kept h
  refine ⟨l,hk.ordered,?_,?_,?_⟩
  · intro e he
    obtain ⟨b',-,hs,-⟩ := step_kept hk he
    exact ⟨b',hs⟩
  · intro c hcurr hpend hcancel
    obtain ⟨s',hs,hk',-,hnext⟩ := yield_kept hk (hk.live.running hcurr).2.1 hcurr hcancel
    exact ⟨_,hs,hk'.ordered,hnext.trans (if_neg (by simp [hpend]))⟩
  · intro c hcurr hpend hcancel mss hlen hms
    rw [yields_visits hk hcurr hpend hcancel (fun ms hm m hmm => decide_eq_true (hms ms hm m hmm)),
      hlen, visits_round hk.live.held.2 (hk.live.running hcurr).2.1]

instance (e : Event) (b : Books) : Decidable (Allowed e b) :=
  match e with
  | .call (.add _) => inferInstanceAs (Decidable (_ ∉ _))
  | .call (.assert _) => inferInstanceAs (Decidable (_ ∧ _))
  | .call (.cancel _) => instDecidableTrue
  | .mail _ => inferInstanceAs (Decidable (_ ≠ _))

def paired (t : ℕ) : Task := ⟨.done,t/2,false,false,fun _ => true,none,none⟩

/-- Of the tasks 3, 2, 1 and 0, added in this order, the first runs, is
cancelled and yields to the asserted task 1. -/
theorem task_list_ordered_paired : ∃ b, Reach taskStep Allowed (booksInit paired) b ∧
    b.added = [2, 1, 0] ∧ b.dsp.curr = some 1 ∧ tasksFrom 3 b.dsp.first b.dsp = [1, 0, 2] ∧
    ∃ l, Ordered b l ∧ Cyclic b l := by
  have hrun : (runChecked taskStep (fun e b => decide (Allowed e b)) [.call (.add 3), .mail .init,
      .call (.add 2), .call (.add 1), .call (.add 0), .call (.cancel 3), .call (.assert 1),
      .mail .yield] (booksInit paired)).any (fun b => decide (b.added = [2, 1, 0] ∧
        b.dsp.curr = some 1 ∧ tasksFrom 3 b.dsp.first b.dsp = [1, 0, 2])) = true := by
    decide +kernel
  obtain ⟨b,hreach,hadded,hcurr,hlist⟩ := run_reaches (fun _ _ => of_decide_eq_true) hrun
  exact ⟨b,hreach,hadded,hcurr,hlist,task_list_ordered paired hreach⟩

end Libogc.DspTaskOrder
