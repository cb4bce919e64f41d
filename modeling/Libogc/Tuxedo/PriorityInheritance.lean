import Mathlib.Data.List.Pairwise
import Libogc.Library.InheritedValue
import Libogc.Tuxedo.CallEffect

/-!
# Priority inheritance

In every reachable state the current priority of a live thread is the least of
its base priority and of the priorities of its waiters. A thread that waits
for a mutex has one owner to wait for, so the threads form the graph of a
partial function, and the priority of a running thread is the least base
priority among all threads that wait for it through any chain of owners.
-/

set_option autoImplicit false

namespace Libogc.PriorityInheritance
open Relation List
open GuardedReach InheritedValue ThreadKernel ThreadInvariant
open PrioUpdate KernelCall CallEffect

structure PrioritiesInherited (k : Kernel) : Prop where
  prio : ∀ t, Live k t →
    IsLeast (insert (k.baseprio t) (k.prio '' {w | w ∈ k.members (.waiters t)})) (k.prio t)
  queues : ∀ q, ByPrio k (k.members q)
  listed : ∀ t, t ∈ k.firstThread ↔ Live k t
  once : k.firstThread.Nodup
  sorted : ByPrio k k.firstThread
  idle_last : k.firstThread.getLast? = some idleThread

variable {k : Kernel} {e t : Tid}

theorem isLeast_of_prioAt (hs : Sorted k) (hp : PrioAt k t) :
    IsLeast (insert (k.baseprio t) (k.prio '' {w | w ∈ k.members (.waiters t)})) (k.prio t) := by
  constructor
  · rw [hp]
    rcases expectedPrio_attained k t with he | ⟨w,hw,he⟩
    · exact Or.inl he
    · exact Or.inr ⟨w,hw,he.symm⟩
  · rintro p (rfl | ⟨w,hw,rfl⟩)
    · rw [hp]
      exact expectedPrio_le_base k t
    · rw [hp]
      exact expectedPrio_le_waiter k t w (hs.queue _) hw

theorem prio_isLeast (h : Core k) (ht : Live k t) :
    IsLeast (insert (k.baseprio t) (k.prio '' {w | w ∈ k.members (.waiters t)})) (k.prio t) :=
  isLeast_of_prioAt h.sorted (h.prio t ht)

theorem prio_le_base (h : Core k) (ht : Live k t) :
    k.prio t ≤ k.baseprio t := (prio_isLeast h ht).2 (Or.inl rfl)

theorem prio_le_waiter (h : Core k) {w : Tid} (ht : Live k t)
    (hw : k.waitQueue w = some (.waiters t)) : k.prio t ≤ k.prio w :=
  (prio_isLeast h ht).2 (Or.inr ⟨w,(h.shape.queue_mem _ w).mpr hw,rfl⟩)

theorem idle_prio (h : Core k) : k.prio idleThread = minPrio+1 := by
  have hl := running_live h.shape.idle_running
  have hw : k.members (.waiters idleThread) = [] :=
    h.owned.no_waiters h.shape (fun m hm => (h.owned.live m _ hm).2 rfl)
  rw [show k.prio idleThread = expectedPrio k idleThread from h.prio _ hl, expectedPrio, hw]
  exact h.shape.idle_base

theorem idle_last (h : Core k) : k.firstThread.getLast? = some idleThread := by
  have hidle : idleThread ∈ k.firstThread :=
    (h.shape.first_live _).mpr (running_live h.shape.idle_running)
  have hne : k.firstThread ≠ [] := ne_nil_of_mem hidle
  rw [getLast?_eq_getLast_of_ne_nil hne, Option.some.injEq]
  by_contra hlast
  have hmem := getLast_mem hne
  have hlive := (h.shape.first_live _).mp hmem
  have hord : k.prio idleThread ≤ k.prio (k.firstThread.getLast hne) :=
    Pairwise.rel_getLast_of_rel_getLast_getLast h.sorted.first hidle (le_refl _)
  have hle := prio_le_base h hlive
  have hbase := h.shape.base _ hlive hlast
  rw [idle_prio h] at hord
  omega

/-- Every admitted call keeps the inheritance invariant, and every admitted
call returns unless a thread releases a mutex it does not own. -/
theorem priorities_inherited {k : Kernel} (h : Reach kernelCall Admitted kThreadInit k) :
    PrioritiesInherited k ∧
      ∀ c, Admitted c k → Holds c k → ∃ k', kernelCall c k = some k' := by
  have hi : Inv k := reach_inv (reach_mono (fun _ _ => admitted_sound) h)
  refine ⟨⟨fun t ht => prio_isLeast hi.toCore ht,hi.sorted.queue,hi.shape.first_live,
    hi.shape.first_nodup,hi.sorted.first,idle_last hi.toCore⟩,?_⟩
  intro c hc ho
  obtain ⟨-,k',hk',-⟩ := call_returns hi (admitted_sound hc) ho
  exact ⟨k',hk'⟩

theorem priorities_inherited_contended : ∃ k, Reach kernelCall Admitted kThreadInit k ∧
    k.prio mainThread = 10 ∧ k.baseprio mainThread = mainPrio ∧ PrioritiesInherited k := by
  have hrun : (runChecked kernelCall admits [.mutexLock 5, .prepare 2 10, .resume 2, .mutexLock 5]
      kThreadInit).any (fun k => decide (k.prio mainThread = 10 ∧
        k.baseprio mainThread = mainPrio)) = true := by decide +kernel
  obtain ⟨k,hr,hprio,hbase⟩ := run_reaches admits_admitted hrun
  exact ⟨k,hr,hprio,hbase,(priorities_inherited hr).1⟩

/-! The graph of the threads that wait for each other. -/

def ownerOf : KThrQueue → Option Tid
  | .waiters o => some o
  | _ => none

def waitsOn (k : Kernel) (t : Tid) : Option Tid := (k.waitQueue t).bind ownerOf

theorem waitsOn_iff {o : Tid} : waitsOn k t = some o ↔ k.waitQueue t = some (.waiters o) := by
  unfold waitsOn
  cases k.waitQueue t with
  | none => simp
  | some q => cases q <;> simp [ownerOf]

theorem running_end (h : Shape k) (he : k.state e = .running) : waitsOn k e = none := by
  rw [waitsOn, h.not_queued he]
  rfl

theorem leads_live (h : Shape k) (he : Live k e) (ht : Leads (waitsOn k) t e) : Live k t := by
  rcases ReflTransGen.cases_head ht with rfl | ⟨c,hc,-⟩
  · exact he
  · exact h.queued_live (waitsOn_iff.mp hc)

theorem live_inherits (h : Core k) (ht : Live k t) : Inherits (waitsOn k) k.baseprio k.prio t where
  le_base := prio_le_base h ht
  le_val w hw := prio_le_waiter h ht (waitsOn_iff.mp hw)
  attained := by
    rcases (prio_isLeast h ht).1 with hb | ⟨w,hw,he⟩
    · exact Or.inl hb
    · exact Or.inr ⟨w,waitsOn_iff.mpr ((h.shape.queue_mem _ w).mp hw),he⟩

theorem le_prio_iff (h : Core k) (he : k.state e = .running) (p : ℕ) :
    p ≤ k.prio e ↔ ∀ t, Leads (waitsOn k) t e → p ≤ k.baseprio t := by
  have hlive : ∀ t, Leads (waitsOn k) t e → Live k t :=
    fun t => leads_live h.shape (running_live he)
  apply le_inherited_iff _ (running_end h.shape he) (fun t ht => live_inherits h (hlive t ht))
  apply (finite_toSet k.firstThread).subset
  intro t ht
  exact (h.shape.first_live t).mpr (hlive t ht)

end Libogc.PriorityInheritance
