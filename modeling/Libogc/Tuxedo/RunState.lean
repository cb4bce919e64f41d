import Libogc.Tuxedo.ThreadChange

/-!
# The run state of a thread

A prepared thread is in state RUNNING exactly when it is not suspended, waits
in no queue and has not finished, and a finished thread stays finished until
its object is prepared again. The calls check neither the state of the thread
they name nor the range of the suspend count, so both facts are about runs in
which a finished thread is neither resumed to run nor relinked, and in which
the count of 16 bits does not wrap.
-/

set_option autoImplicit false

namespace Libogc.RunState
open GuardedReach ThreadKernel ThreadInvariant QueueLoop
open KernelCall CallEffect ThreadChange

def Counted (c : Call) (k : Kernel) : Prop :=
  Sound c k ∧ ∀ t, c = .suspend t → k.suspend t+1 < 65536

def Parked (k : Kernel) : Prop :=
  ∀ t, k.state t = .waiting → k.waitQueue t = none → k.suspend t ≠ 0

variable {c : Call} {k k' : Kernel} {u t : Tid}

theorem change_parked (h : Parked k) (hc : ∀ t, c = .suspend t → k.suspend t+1 < 65536)
    (hu : Change k c k' u) (hs' : k'.state u = .waiting) (hq' : k'.waitQueue u = none) :
    k'.suspend u ≠ 0 := by
  cases hu with
  | keep hk =>
    rw [hk.suspend]
    exact h u (hk.state.symm.trans hs') (hk.waitQueue.symm.trans hq')
  | count hs hq _ hn =>
    rcases hn with ⟨-,-,hor,hn⟩ | ⟨hcall,-,hn⟩
    · rw [hq] at hq'
      simpa [hq', hn] using hor
    · have := hc u hcall
      rw [hn, u16]
      omega
  | start _ _ hrun => simp [hrun] at hs'
  | stop _ _ hn | prepare _ _ _ hn => simp [hn]
  | enter _ _ _ _ hq => simp [hq] at hq'
  | lock _ _ _ hs => simp [hs] at hs'
  | wake _ _ _ hst hn | handed _ _ _ _ _ hst hn =>
    rw [hst, awake] at hs'
    split at hs'
    · simp at hs'
    · rename_i h0
      rwa [hn]
  | moved _ _ _ _ hs | finish _ _ hs => simp [hs] at hs'

theorem change_finished (hself : u = k.self → Caller k → k.state u = .running)
    (hsound : Sound c k) (hu : Change k c k' u) (hf : k.state u = .finished)
    (hp : ∀ prio, c ≠ .prepare u prio) : k'.state u = .finished := by
  cases hu with
  | keep hk => rwa [hk.state]
  | count hs => rwa [hs]
  | start hs | stop hs => simp [hf] at hs
  | prepare prio hc => exact absurd hc (hp prio)
  | enter hc hu =>
    have hrun : k.state u = .running := by
      apply hself hu
      cases hc with
      | block => exact hsound.1.1
      | join | condVarWait => exact hsound.1
    simp [hf] at hrun
  | lock hc _ hu =>
    subst hc
    have hrun := hself hu hsound.1
    simp [hf] at hrun
  | wake _ hs | handed _ hs | moved _ hs => simp [hf] at hs
  | finish _ _ hs => exact hs

theorem call_finished (h : Inv k) (hs : Sound c k) (hk : kernelCall c k = some k')
    (hf : k.state t = .finished) (hp : ∀ prio, c ≠ .prepare t prio) : k'.state t = .finished := by
  apply change_finished _ hs (call_change h hs hk t) hf hp
  rintro rfl hc
  exact (h.caller_running hc.1).1

theorem init_parked : Parked kThreadInit := by
  intro t hs
  change (if t = mainThread ∨ t = idleThread then KThrState.running else .uninit) = _ at hs
  split at hs <;> simp at hs

theorem reach_parked (h : Reach kernelCall Counted kThreadInit k) : Inv k ∧ Parked k := by
  refine reach_invariant (P := fun k => Inv k ∧ Parked k) ⟨init_inv,init_parked⟩ ?_ h
  intro c k k' hi hc hk
  exact ⟨(call_effect hi.1 hc.1 hk).2,
    fun u => change_parked hi.2 hc.2 (call_change hi.1 hc.1 hk u)⟩

theorem running_iff (h : Shape k) (hp : Parked k) (ht : k.state t ≠ .uninit) :
    k.state t = .running ↔
      k.suspend t = 0 ∧ k.waitQueue t = none ∧ k.state t ≠ .finished := by
  constructor
  · intro hr
    exact ⟨h.running t hr,h.not_queued hr,by simp [hr]⟩
  · rintro ⟨h0,hq,hf⟩
    cases hs : k.state t with
    | uninit => exact absurd hs ht
    | finished => exact absurd hs hf
    | running => rfl
    | waiting => exact absurd h0 (hp t hs hq)
    | waitingMutex =>
      obtain ⟨o,ho⟩ := (h.mutex t).mp hs
      simp [hq] at ho

/-- The law holds in every state of every run that keeps finished threads
finished and counts suspensions below the range, and until it is prepared
again a finished thread neither runs nor is linked in. -/
theorem run_state_law {k : Kernel} (h : Reach kernelCall Counted kThreadInit k) :
    (∀ t, k.state t ≠ .uninit → (k.state t = .running ↔
      k.suspend t = 0 ∧ k.waitQueue t = none ∧ k.state t ≠ .finished)) ∧
    ∀ t, k.state t = .finished → ∀ k',
      Reach kernelCall (fun c k => Counted c k ∧ ∀ prio, c ≠ .prepare t prio) k k' →
        k'.state t = .finished ∧ t ∉ k'.firstThread := by
  obtain ⟨hi,hp⟩ := reach_parked h
  refine ⟨fun t ht => running_iff hi.shape hp ht,?_⟩
  intro t hf k' hk'
  have hinv : Inv k' ∧ k'.state t = .finished := by
    refine reach_invariant (P := fun k => Inv k ∧ k.state t = .finished) ⟨hi,hf⟩ ?_ hk'
    intro c k₁ k₂ hi₁ hc hk
    exact ⟨(call_effect hi₁.1 hc.1.1 hk).2,call_finished hi₁.1 hc.1.1 hk hi₁.2 hc.2⟩
  refine ⟨hinv.2,?_⟩
  rw [hinv.1.shape.first_live]
  exact fun hl => hl.2 hinv.2

def counts (c : Call) (k : Kernel) : Bool :=
  admits c k &&
    match c with
    | .suspend t => decide (k.suspend t+1 < 65536)
    | _ => true

theorem counts_counted (c : Call) (k : Kernel) (h : counts c k = true) : Counted c k := by
  simp only [counts, Bool.and_eq_true] at h
  refine ⟨admitted_sound (admits_admitted c k h.1),?_⟩
  rintro t rfl
  simpa using h.2

theorem run_state_law_suspended : ∃ k, Reach kernelCall Counted kThreadInit k ∧
    k.suspend 2 = 1 ∧ k.state mainThread = .running ∧ (k.state 2 = .running ↔
      k.suspend 2 = 0 ∧ k.waitQueue 2 = none ∧ k.state 2 ≠ .finished) := by
  have hrun : (runChecked kernelCall counts [.prepare 2 10, .suspend 2, .resume 2]
      kThreadInit).any (fun k => decide (k.suspend 2 = 1 ∧ k.state mainThread = .running ∧
        k.state 2 ≠ .uninit)) = true := by decide +kernel
  obtain ⟨k,hr,h1,hm,h2⟩ := run_reaches counts_counted hrun
  exact ⟨k,hr,h1,hm,(run_state_law hr).1 2 h2⟩

def startedThread : Kernel :=
  (runChecked kernelCall admits [.prepare 2 10, .resume 2] kThreadInit).getD kThreadInit

def exitedThread : Kernel := (kernelCall (.exit 0) startedThread).getD startedThread

theorem exited_reach : Reach kernelCall Allowed kThreadInit exitedThread := by
  have hs : Reach kernelCall Admitted kThreadInit startedThread :=
    runChecked_reach admits_admitted [.prepare 2 10, .resume 2] _ _ rfl
  have ho : ∀ m, startedThread.owner m ≠ some startedThread.self := by
    intro m hm
    have hn : startedThread.owner m = none := rfl
    simp [hn] at hm
  exact .step (reach_mono (fun _ _ hc => hc.1) hs) ⟨⟨rfl,by decide⟩,ho⟩ (a := .exit 0) rfl

/-- Naming the finished thread in a suspend and a resume makes it RUNNING
again, and a new priority links it back into the list. -/
theorem finished_thread_runs : ∃ k k₁ k₂, Reach kernelCall Allowed kThreadInit k ∧
    k.state 2 = .finished ∧
    Reach kernelCall (fun c k => Allowed c k ∧ ∀ prio, c ≠ .prepare 2 prio) k k₁ ∧
    k₁.state 2 = .running ∧
    Reach kernelCall (fun c k => Allowed c k ∧ ∀ prio, c ≠ .prepare 2 prio) k k₂ ∧
    k₂.state 2 = .finished ∧ 2 ∈ k₂.firstThread := by
  have hsuspend : Reach kernelCall (fun c k => Allowed c k ∧ ∀ prio, c ≠ .prepare 2 prio)
      exitedThread ((kernelCall (.suspend 2) exitedThread).getD exitedThread) :=
    .step .start ⟨⟨by decide,by decide⟩,by simp⟩ (a := .suspend 2) rfl
  exact ⟨exitedThread,_,_,exited_reach,rfl,
    .step hsuspend ⟨⟨by decide,by decide⟩,by simp⟩ (a := .resume 2) rfl,rfl,
    .step .start ⟨⟨by decide,by decide⟩,by simp⟩ (a := .setPrio 2 50) rfl,rfl,by decide⟩

end Libogc.RunState
