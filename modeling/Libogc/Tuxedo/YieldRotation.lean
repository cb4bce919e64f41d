import Libogc.Library.CyclicVisit
import Libogc.Tuxedo.PriorityInheritance

/-!
# Yields

`KThreadYield` looks for the next ready thread behind the caller in the list of
all threads and starts from the front when it meets none of the caller's
priority. The list is sorted by priority, so among the ready threads of the
best priority this is one step round their list, whatever other threads stand
between and behind them.
-/

set_option autoImplicit false

namespace Libogc.YieldRotation
open List GuardedReach CyclicVisit ThreadKernel ThreadInvariant Option
open KernelCall CallEffect

def bestReady (k : Kernel) : List Tid :=
  k.firstThread.filter (fun t => decide (k.state t = .running ∧
    ∀ r ∈ k.firstThread, k.state r = .running → k.prio t ≤ k.prio r))

def yieldRun : ℕ → Kernel → Option (List Tid × Kernel)
  | 0, k => some ([], k)
  | n+1, k => (kThreadYield k).bind (fun k' =>
    (yieldRun n k').map (fun r => (k'.self::r.1, r.2)))

section Step

variable {k : Kernel} {t : Tid}

theorem mem_bestReady : t ∈ bestReady k ↔ t ∈ k.firstThread ∧ k.state t = .running ∧
    ∀ r ∈ k.firstThread, k.state r = .running → k.prio t ≤ k.prio r := by
  rw [bestReady, mem_filter, decide_eq_true_eq]

theorem bestReady_prio {u : Tid} (ht : t ∈ bestReady k) (hu : u ∈ bestReady k) :
    k.prio t = k.prio u := by
  rw [mem_bestReady] at ht hu
  exact le_antisymm (ht.2.2 u hu.1 hu.2.1) (hu.2.2 t ht.1 ht.2.1)

theorem bestReady_of_le {u : Tid} (ht : t ∈ bestReady k) (hu : u ∈ k.firstThread)
    (hr : k.state u = .running) (hp : k.prio u ≤ k.prio t) : u ∈ bestReady k := by
  rw [mem_bestReady] at ht ⊢
  exact ⟨hu,hr,fun r hm hs => le_trans hp (ht.2.2 r hm hs)⟩

/-- In a part of the list that is sorted, the first ready thread is the first
of the best if there is one of the best. -/
theorem find_running {l cs : List Tid} {c : Tid} (hs : ByPrio k l) (hl : ∀ u ∈ l, u ∈ k.firstThread)
    (hc : l.filter (fun u => decide (u ∈ bestReady k)) = c::cs) :
    kThreadFindRunnable l k = some c := by
  induction l with
  | nil => exact absurd hc nofun
  | cons u l ih =>
    obtain ⟨hu,hrest⟩ := pairwise_cons.mp hs
    by_cases hb : u ∈ bestReady k
    · rw [filter_cons_of_pos (by simpa using hb)] at hc
      obtain ⟨rfl,-⟩ := cons.inj hc
      exact find?_cons_of_pos (by simpa using (mem_bestReady.mp hb).2.1)
    · rw [filter_cons_of_neg (by simpa using hb)] at hc
      have hmem : c ∈ l.filter (fun u => decide (u ∈ bestReady k)) := by simp [hc]
      obtain ⟨hcl,hcb⟩ := mem_filter.mp hmem
      have hstop : k.state u ≠ .running := fun hr =>
        hb (bestReady_of_le (of_decide_eq_true hcb) (hl u mem_cons_self) hr (hu c hcl))
      rw [kThreadFindRunnable, find?_cons_of_neg (by simpa using hstop)]
      exact ih hrest (fun v hv => hl v (mem_cons_of_mem _ hv)) hc

theorem filter_bestReady :
    k.firstThread.filter (fun u => decide (u ∈ bestReady k)) = bestReady k := by
  conv_rhs => rw [bestReady]
  apply filter_congr
  intro u hu
  rw [decide_eq_decide, mem_bestReady]
  exact and_iff_right hu

theorem yieldNext_cyclic (h : Core k) (hself : k.self ∈ bestReady k) :
    yieldNext k = cyclicNext (bestReady k) k.self := by
  have hmem := (mem_bestReady.mp hself).1
  obtain ⟨xs,ys,hsplit,hnot⟩ := eq_append_cons_of_mem hmem
  have hsort := h.sorted.first
  rw [hsplit] at hsort
  have hys : ByPrio k ys := (pairwise_cons.mp (pairwise_append.mp hsort).2.1).2
  have hin : ∀ u ∈ ys, u ∈ k.firstThread := by
    intro u hu
    rw [hsplit]
    simp [hu]
  have hbest : bestReady k = xs.filter (fun u => decide (u ∈ bestReady k)) ++
      k.self::ys.filter (fun u => decide (u ∈ bestReady k)) := by
    conv_lhs => rw [← filter_bestReady, hsplit]
    rw [filter_append, filter_cons_of_pos (by simpa using hself)]
  have hbehind : behind (bestReady k) k.self = ys.filter (fun u => decide (u ∈ bestReady k)) := by
    have hout : k.self ∉ xs.filter (fun u => decide (u ∈ bestReady k)) :=
      fun hm => hnot (mem_filter.mp hm).1
    have hb := behind_append (ys.filter (fun u => decide (u ∈ bestReady k))) hout
    rwa [← hbest] at hb
  have htail : (k.firstThread.dropWhile (fun c => decide (c ≠ k.self))).tail = ys := by
    have hb := behind_append ys hnot
    rw [← hsplit] at hb
    exact hb
  obtain ⟨b,bs,hb⟩ : ∃ b bs, bestReady k = b::bs := exists_cons_of_ne_nil (ne_nil_of_mem hself)
  have hfront : kThreadFindRunnable k.firstThread k = some b :=
    find_running h.sorted.first (fun _ hu => hu) (filter_bestReady.trans hb)
  rw [yieldNext, htail, cyclicNext, hbehind]
  cases hc : ys.filter (fun u => decide (u ∈ bestReady k)) with
  | cons c cs =>
    have hcb : c ∈ bestReady k := by
      have hm : c ∈ ys.filter (fun u => decide (u ∈ bestReady k)) := by simp [hc]
      exact of_decide_eq_true (mem_filter.mp hm).2
    rw [find_running hys hin hc]
    dsimp only
    rw [if_neg (by rw [bestReady_prio hself hcb]; exact lt_irrefl _)]
    rfl
  | nil =>
    rw [hfront, nil_append, hb, head?_cons]
    cases hf : kThreadFindRunnable ys k with
    | none => rfl
    | some u =>
      have hu : u ∈ ys := mem_of_find?_eq_some hf
      have hr : k.state u = .running := by simpa using find?_some hf
      have hworse : k.prio k.self < k.prio u := by
        by_contra hle
        have hub := bestReady_of_le hself (hin u hu) hr (not_lt.mp hle)
        have hm : u ∈ ys.filter (fun u => decide (u ∈ bestReady k)) :=
          mem_filter.mpr ⟨hu,by simpa using hub⟩
        rw [hc] at hm
        exact absurd hm not_mem_nil
      exact if_pos hworse

end Step

/-! Runs. -/

def executing (t : Tid) (k : Kernel) : Kernel := { k with self := t }

theorem yield_step {k : Kernel} (h : Core k) (hx : k.inExcpt = false) (hn : k.nextCtx = none)
    (hself : k.self ∈ bestReady k) :
    kThreadYield k = (cyclicNext (bestReady k) k.self).map (fun t => executing t k) := by
  rw [kThreadYield, yieldNext_cyclic h hself]
  congr 1
  funext t
  by_cases ht : t = k.self
  · rw [if_pos ht, ht]
    rfl
  · rw [if_neg ht, kThreadSwitchTo, if_neg (by simp [hx]), executing, ← hn]

theorem yieldRun_visits {k : Kernel} (h : Core k) (hx : k.inExcpt = false)
    (hn : k.nextCtx = none) (n : ℕ) : ∀ t ∈ bestReady k,
    ∃ rs u, visits (cyclicNext (bestReady k)) n t = some rs ∧ u ∈ bestReady k ∧
      yieldRun n (executing t k) = some (rs,executing u k) := by
  induction n with
  | zero => exact fun t ht => ⟨[],t,rfl,ht,rfl⟩
  | succ n ih =>
    intro t ht
    have hcore : Core (executing t k) := h.withCtx t k.nextCtx k.inExcpt
    have hstep := yield_step hcore hx hn ht
    obtain ⟨u,hu,hmem⟩ : ∃ u, cyclicNext (bestReady k) t = some u ∧ u ∈ bestReady k := by
      cases hc : cyclicNext (bestReady k) t with
      | none =>
        rw [cyclicNext, head?_eq_none_iff, append_eq_nil_iff] at hc
        exact absurd (hc.2 ▸ ht) not_mem_nil
      | some u => exact ⟨u,rfl,mem_of_cyclicNext hc⟩
    have hyield : kThreadYield (executing t k) = some (executing u k) := by
      rw [hstep]
      change (cyclicNext (bestReady k) t).map _ = _
      rw [hu]
      rfl
    obtain ⟨rs,v,hvis,hv,hrun⟩ := ih u hmem
    refine ⟨u::rs,v,?_,hv,?_⟩
    · rw [visits, hu, bind_some, hvis, map_some]
    · rw [yieldRun, hyield, bind_some, hrun]
      rfl

/-- In a state in which one of the ready threads of the best priority executes
and from which on there are only yields, any as many consecutive yields as
there are such threads run each of them once, in the order of the list from
behind the caller. -/
theorem yields_fair {k : Kernel} (h : Reach kernelCall Admitted kThreadInit k)
    (hx : k.inExcpt = false) (hself : k.self ∈ bestReady k) (m : ℕ) :
    ∃ before k₁ run k₂, yieldRun m k = some (before,k₁) ∧ k₁.self ∈ bestReady k ∧
      yieldRun (bestReady k).length k₁ = some (run,k₂) ∧
      run = (bestReady k).rotate ((bestReady k).idxOf k₁.self+1) ∧ run.Nodup ∧
      ∀ t, t ∈ run ↔ t ∈ bestReady k := by
  have hi : Inv k := reach_inv (reach_mono (fun _ _ => admitted_sound) h)
  have hn := hi.scheduled.thread hx
  have hnd : (bestReady k).Nodup := hi.shape.first_nodup.filter _
  obtain ⟨before,u,-,hu,hbefore⟩ := yieldRun_visits hi.toCore hx hn m k.self hself
  obtain ⟨run,v,hvis,-,hrun⟩ := yieldRun_visits hi.toCore hx hn (bestReady k).length u hu
  rw [visits_round hnd hu] at hvis
  cases hvis
  exact ⟨before,executing u k,_,executing v k,hbefore,hu,hrun,rfl,nodup_rotate.mpr hnd,
    fun t => mem_rotate⟩

/-- Three threads of the priority of the main thread, one of them suspended
and a worse one behind them: two yields run the two ready ones. -/
theorem yields_fair_pair : ∃ k, Reach kernelCall Admitted kThreadInit k ∧
    bestReady k = [0, 3] ∧
    ∃ before k₁ run k₂, yieldRun 5 k = some (before,k₁) ∧ k₁.self ∈ bestReady k ∧
      yieldRun (bestReady k).length k₁ = some (run,k₂) ∧
      run = (bestReady k).rotate ((bestReady k).idxOf k₁.self+1) ∧ run.Nodup ∧
      ∀ t, t ∈ run ↔ t ∈ bestReady k := by
  have hrun : (runChecked kernelCall admits [.prepare 2 mainPrio, .prepare 3 mainPrio, .resume 3,
      .prepare 4 100, .resume 4] kThreadInit).any (fun k => decide (k.inExcpt = false ∧
        k.self = 0 ∧ bestReady k = [0, 3])) = true := by
    decide +kernel
  obtain ⟨k,hreach,hx,hself,hbest⟩ := run_reaches admits_admitted hrun
  refine ⟨k,hreach,hbest,yields_fair hreach hx ?_ 5⟩
  rw [hself, hbest]
  exact mem_cons_self

/-- The main thread has lost the priority that it had inherited and executes
on, although thread 3 is better. Its yield runs thread 4, which has its own
priority and stands behind it. -/
theorem yield_passes_best : ∃ k, Reach kernelCall Admitted kThreadInit k ∧ k.inExcpt = false ∧
    bestReady k = [3] ∧ ∃ k', yieldRun 1 k = some ([4],k') := by
  have hrun : (runChecked kernelCall admits [.mutexLock 5, .prepare 2 10, .resume 2, .mutexLock 5,
      .prepare 3 20, .resume 3, .setPrio 2 100, .prepare 4 mainPrio, .resume 4]
      kThreadInit).any (fun k => decide (k.inExcpt = false ∧ bestReady k = [3] ∧
        (yieldRun 1 k).map Prod.fst = some [4])) = true := by
    decide +kernel
  obtain ⟨k,hreach,hx,hbest,hyield⟩ := run_reaches admits_admitted hrun
  obtain ⟨⟨run,k'⟩,hrun',hfst⟩ := map_eq_some_iff.mp hyield
  cases hfst
  exact ⟨k,hreach,hx,hbest,k',hrun'⟩

end Libogc.YieldRotation
