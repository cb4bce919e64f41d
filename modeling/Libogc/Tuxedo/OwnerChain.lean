import Libogc.Tuxedo.PriorityInheritance

/-!
# The walk along the owners

`KThreadUpdateDynamicPrio` is called in the middle of other functions, where
the priorities are not in order yet: when a base priority has been changed,
when the caller of a lock has become a waiter, and twice in a release, when the
waiters have changed lists. In each of these states the walk along the chain of
owners comes to an end, whatever the chain is, and leaves the priorities of the
chain in order.
-/

set_option autoImplicit false

namespace Libogc.OwnerChain
open Relation
open GuardedReach ThreadKernel ThreadInvariant PrioUpdate
open QueueLoop MutexStep KernelCall CallEffect PriorityInheritance

def Blocks (k : Kernel) (u v : Tid) : Prop :=
  k.state u = .waitingMutex ∧ k.owner (k.token u) = some v

def Chain (k : Kernel) : Tid → Tid → Prop := ReflTransGen (Blocks k)

/-- In the state `k`, or inside of a call that is made there, the priority of
the thread is updated in the given state. -/
inductive UpdateIn (k : Kernel) : Tid → Kernel → Prop
  | rest {t : Tid} (ht : Live k t) : UpdateIn k t k
  | setPrio {t : Tid} {prio : ℕ} (h : Admitted (.setPrio t prio) k) :
    UpdateIn k t (withBase t prio k)
  | lock {m : ℕ} {o : Tid} (h : Admitted (.mutexLock m) k) (ho : k.owner m = some o) :
    UpdateIn k o (enterQueue (.waiters o) .waitingMutex m k.self k)
  | oldOwner {m : ℕ} {o : Tid} {k' : Kernel} (h : Caller k) (ho : k.owner m = some k.self)
    (hr : removeWaiterLoop k.self m (k.members (.waiters k.self)) none k = (some o, k')) :
    UpdateIn k k.self k'
  | newOwner {m : ℕ} {o : Tid} {k' k'' : Kernel} (h : Caller k) (ho : k.owner m = some k.self)
    (hr : removeWaiterLoop k.self m (k.members (.waiters k.self)) none k = (some o, k'))
    (hu : kThreadUpdateDynamicPrio k.self k' = some k'') : UpdateIn k o k''

variable {k : Kernel} {t u : Tid}

theorem running_chain (hr : k.state t ≠ .waitingMutex) (hu : Chain k t u) : u = t := by
  rcases ReflTransGen.cases_head hu with rfl | ⟨v,hv,-⟩
  · rfl
  · exact absurd hv.1 hr

theorem chain_live (hw : Owned k) (ht : Live k t) (hu : Chain k t u) : Live k u := by
  induction hu with
  | refl => exact ht
  | tail _ hb _ => exact (hw.live _ _ hb.2).1

theorem settled_chain {k' : Kernel} (hw : Owned k) (ht : Live k t) (h : Settled k k')
    (hu : Chain k t u) :
    IsLeast (insert (k'.baseprio u) (k'.prio '' {w | w ∈ k'.members (.waiters u)})) (k'.prio u) :=
  isLeast_of_prioAt h.sorted (h.prio u ((h.reorder.live u).mpr (chain_live hw ht hu)))

theorem unqueued_chain (hs : Shape k) (ho : Sorted k) (hq : k.waitQueue t = none)
    (hu : Chain k t u) : IsLeast (insert ((refresh t k).baseprio u)
      ((refresh t k).prio '' {w | w ∈ (refresh t k).members (.waiters u)}))
        ((refresh t k).prio u) := by
  have hfree : k.state t ≠ .waitingMutex := by
    intro hm
    obtain ⟨o,hw⟩ := (hs.mutex t).mp hm
    exact absurd (hq.symm.trans hw) nofun
  obtain rfl := running_chain hfree hu
  exact isLeast_of_prioAt (refresh_sorted u k hs ho)
    (refresh_prioAt u k hs hq u (fun hne => absurd rfl hne))

theorem release_contended {m : ℕ} {k' : Kernel} {o : Tid}
    (hr : removeWaiterLoop k.self m (k.members (.waiters k.self)) none k = (some o, k')) :
    ∃ cs, contenders m k = o::cs ∧ k' = handover k.self o cs k := by
  cases hc : contenders m k with
  | nil =>
    rw [removeWaiterLoop_uncontended hc] at hr
    exact absurd (Prod.mk.inj hr).1 nofun
  | cons c cs =>
    rw [removeWaiterLoop_contended hc] at hr
    obtain ⟨ho,hk⟩ := Prod.mk.inj hr
    cases ho
    exact ⟨cs,rfl,hk.symm⟩

theorem caller_running (h : Inv k) (hc : Caller k) : k.state k.self = .running := by
  have hr := h.scheduled.runs
  rw [current, h.scheduled.thread hc.1] at hr
  exact hr

/-- The update returns wherever it is called, for every graph of owners, and
the priorities along the chain of owners are the least of the base priority and
of the priorities of the waiters. -/
theorem priority_update_ends {k k₁ : Kernel} {t : Tid}
    (h : Reach kernelCall Admitted kThreadInit k) (hc : UpdateIn k t k₁) :
    ∃ k', kThreadUpdateDynamicPrio t k₁ = some k' ∧ ∀ u, Chain k₁ t u →
      IsLeast (insert (k'.baseprio u) (k'.prio '' {w | w ∈ k'.members (.waiters u)}))
        (k'.prio u) := by
  have hi : Inv k := reach_inv (reach_mono (fun _ _ => admitted_sound) h)
  cases hc with
  | rest ht =>
    obtain ⟨k',hk',hset⟩ := update_settles t k hi.shape hi.owned hi.sorted
      (fun u hu _ => hi.prio u hu) ht
    exact ⟨k',hk',fun u hu => settled_chain hi.owned ht hset hu⟩
  | setPrio ha =>
    rename_i prio
    obtain ⟨hs,hw,ho,he⟩ := withBase_spec hi.toCore ha.1.1 prio
    have ht : Live k t := ⟨ha.1.2,ha.2 t rfl⟩
    obtain ⟨k',hk',hset⟩ := update_settles t _ hs hw ho he ht
    exact ⟨k',hk',fun u hu => settled_chain hw ht hset hu⟩
  | lock ha ho =>
    rename_i m
    obtain ⟨hs,hw,hso,hpe,ht⟩ :=
      blockOn_spec hi.toCore (caller_running hi ha.1) ha.1.2 ho
    obtain ⟨k',hk',hset⟩ := update_settles t (blockOn t m k) hs hw hso hpe ht
    exact ⟨k',hk',fun u hu => settled_chain hw ht hset hu⟩
  | oldOwner ha ho hr =>
    have hrun := caller_running hi ha
    obtain ⟨cs,hcs,rfl⟩ := release_contended hr
    obtain ⟨hs,hso,-⟩ := handover_spec hi.toCore hcs hrun
    have hq := handover_self hi.toCore hcs hrun
    exact ⟨_,update_unqueued _ _ hq,fun u hu => unqueued_chain hs hso hq hu⟩
  | newOwner ha ho hr hu =>
    have hrun := caller_running hi ha
    obtain ⟨cs,hcs,rfl⟩ := release_contended hr
    obtain ⟨hs,hso,-⟩ := handover_spec hi.toCore hcs hrun
    rw [update_unqueued _ _ (handover_self hi.toCore hcs hrun)] at hu
    cases hu
    have hq := refreshed_new hi.toCore hcs hrun
    exact ⟨_,update_unqueued _ _ hq,fun u hu => unqueued_chain
      ((refreshed_reorder hi.toCore hcs hrun).shape hs) (refresh_sorted _ _ hs hso) hq hu⟩

/-- The main thread and thread 2 each own the mutex that the other waits for,
and the main thread is given a better base priority. -/
theorem priority_update_ends_deadlock : ∃ k, Reach kernelCall Admitted kThreadInit k ∧
    Blocks k mainThread 2 ∧ Blocks k 2 mainThread ∧
    ∃ k', kThreadUpdateDynamicPrio mainThread (withBase mainThread 5 k) = some k' ∧
      ∀ u, Chain (withBase mainThread 5 k) mainThread u →
        IsLeast (insert (k'.baseprio u) (k'.prio '' {w | w ∈ k'.members (.waiters u)}))
          (k'.prio u) := by
  have hrun : (runChecked kernelCall admits [.prepare 2 mainPrio, .resume 2, .mutexLock 1, .yield,
      .mutexLock 2, .yield, .mutexLock 2, .mutexLock 1] kThreadInit).any (fun k => decide (
        (k.state mainThread = .waitingMutex ∧ k.owner (k.token mainThread) = some 2) ∧
        (k.state 2 = .waitingMutex ∧ k.owner (k.token 2) = some mainThread))) = true := by
    decide +kernel
  obtain ⟨k,hreach,hmain,htwo⟩ := run_reaches admits_admitted hrun
  refine ⟨k,hreach,hmain,htwo,priority_update_ends hreach (.setPrio ⟨⟨by decide,?_⟩,?_⟩)⟩
  · rw [hmain.1]
    decide
  · intro t ht
    cases ht
    rw [hmain.1]
    decide

end Libogc.OwnerChain
