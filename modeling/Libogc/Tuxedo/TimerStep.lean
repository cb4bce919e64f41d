import Libogc.Tuxedo.TimerInvariant

/-!
# The steps of the tick tasks

Every action of the timers keeps the invariant: a start puts its task in the
place that the new target gives it, a stop takes it out, a firing either ends
the start or moves its target by one period, and what is written to the memory
of a task that is not active does not matter.
-/

set_option autoImplicit false

namespace Libogc.TimerStep
open Option Function LinkedChain PrefixInsert TickTask TimerInvariant

/-! The order. -/

section Order

variable {s : Timers} {l : List ℕ}

/-- A task whose target is compared with the targets of tasks that are due near
it gets its place in the order in which the tasks are due. -/
theorem placed_sorted {task : ℕ → KTickTask} {due : ℕ → ℕ} {t : ℕ}
    (hsorted : l.Pairwise (fun a b => due a ≤ due b))
    (htarget : ∀ u, u = t ∨ u ∈ l → (task u).target = tickCount (due u))
    (hnear : ∀ u ∈ l, due u < due t+halfRange ∧ due t < due u+halfRange) :
    (placed task t l).Pairwise (fun a b => due a ≤ due b) := by
  have hseq : ∀ u ∈ l, kTickIsSequential (task u).target (task t).target = true ↔
      due u < due t := by
    intro u hu
    rw [htarget u (Or.inr hu), htarget t (Or.inl rfl)]
    exact sequential_iff (hnear u hu).1 (hnear u hu).2
  apply insertAfter_sorted due _ _ hsorted
  · intro u hu hkeep
    exact Nat.le_of_lt ((hseq u hu).mp hkeep)
  · intro u hu hkeep
    have hn : ¬due u < due t := fun hlt => by
      rw [(hseq u hu).mpr hlt] at hkeep
      simp at hkeep
    omega

end Order

/-! The actions. -/

section Actions

variable {s : Timers} {l : List ℕ} {k : Ticks}

def Start.fields (σ : Start) : KTickTask := ⟨σ.fn,tickCount σ.now+σ.delay,σ.period⟩

theorem started_due_self {σ : Start} {later : ℕ} (h : TimerInv s l) :
    (started σ later s k).due σ.task = σ.dueAt 0 := by
  have ha : (started σ later s k).active σ.task = some s.starts.length :=
    update_self _ _ _
  have hσ : (started σ later s k).starts[s.starts.length]? = some σ := by simp [started]
  have hnil : firings s.starts.length (started σ later s k).log = [] := firings_new h
  rw [due_eq ha hσ, hnil, List.length_nil]

theorem started_starts {σ σ' : Start} {later t i : ℕ} (h : TimerInv s l)
    (ht : s.active t = some i) (hσ : s.starts[i]? = some σ') :
    (started σ later s k).starts[i]? = some σ' := by
  simp only [started]
  rw [List.getElem?_append_left (serial_lt h ht), hσ]

theorem started_active_other {σ : Start} {later u : ℕ} (hu : u ≠ σ.task) :
    (started σ later s k).active u = s.active u := update_of_ne hu _ _

section

variable (h : TimerInv s l)
include h

theorem started_due_other {σ : Start} {later u : ℕ} (hu : u ≠ σ.task) :
    (started σ later s k).due u = s.due u := by
  have ha : (started σ later s k).active u = s.active u := started_active_other hu
  cases hact : s.active u with
  | none => simp [Timers.due, ha, hact]
  | some i =>
    obtain ⟨σ',hσ',-⟩ := h.tracked u i hact
    rw [due_eq (ha.trans hact) (started_starts h hact hσ'), due_eq hact hσ']
    rfl

theorem erase_mem (t u : ℕ) : u ∈ l.erase t ↔ u ≠ t ∧ s.active u ≠ none := by
  rw [h.nodup.mem_erase_iff, h.mem]

theorem started_sorted {σ : Start} {later : ℕ}
    (htask : k.task = update s.ticks.task σ.task (Start.fields σ))
    (hspread : Spread (started σ later s k)) : (placed k.task σ.task (l.erase σ.task)).Pairwise
      (fun a b => (started σ later s k).due a ≤ (started σ later s k).due b) := by
  have hself : (started σ later s k).due σ.task = σ.dueAt 0 := started_due_self h
  have hother : ∀ u ∈ l.erase σ.task, (started σ later s k).due u = s.due u := fun u hu =>
    started_due_other h ((erase_mem h _ u).mp hu).1
  have hactive : ∀ u, u = σ.task ∨ u ∈ l.erase σ.task →
      (started σ later s k).active u ≠ none := by
    rintro u (rfl | hu)
    · simp [started]
    · obtain ⟨hne,ha⟩ := (erase_mem h _ u).mp hu
      simpa [started, update_of_ne hne] using ha
  apply placed_sorted
  · refine List.Pairwise.imp_of_mem ?_ (h.sorted.sublist List.erase_sublist)
    intro a b ha hb hab
    rwa [hother a ha, hother b hb]
  · rintro u (rfl | hu)
    · rw [hself, htask, Start.fields, tickCount_add, Start.dueAt]
      simp
    · obtain ⟨hne,ha⟩ := (erase_mem h _ u).mp hu
      rw [hother u hu, htask, update_of_ne hne, target_eq h ha]
  · intro u hu
    have hu' := hactive u (Or.inr hu)
    have ht' := hactive σ.task (Or.inl rfl)
    exact ⟨hspread u σ.task hu' ht',hspread σ.task u ht' hu'⟩

theorem started_tracked {σ : Start} {later t i : ℕ}
    (htask : k.task = update s.ticks.task σ.task (Start.fields σ))
    (ha : (started σ later s k).active t = some i) :
    ∃ σ', (started σ later s k).starts[i]? = some σ' ∧ Tracked (started σ later s k) t i σ' := by
  by_cases ht : t = σ.task
  · subst ht
    obtain rfl : s.starts.length = i := by simpa [started] using ha
    have hnil : firings s.starts.length (started σ later s k).log = [] := firings_new h
    have hfields : (started σ later s k).ticks.task σ.task = Start.fields σ := by
      simp only [started, htask, update_self]
    refine ⟨σ,by simp [started],rfl,by rw [hfields]; rfl,?_,by rw [hfields]; rfl,fun _ => hnil⟩
    rw [hfields, hnil, Start.fields, tickCount_add, Start.dueAt]
    simp
  · have ha' : s.active t = some i := by simpa [started, update_of_ne ht] using ha
    obtain ⟨σ',hσ',htr⟩ := h.tracked t i ha'
    have hfields : (started σ later s k).ticks.task t = s.ticks.task t := by
      simp only [started, htask, update_of_ne ht]
    exact ⟨σ',started_starts h ha' hσ',htr.task,by rw [hfields]; exact htr.fn,
      by rw [hfields]; exact htr.target,by rw [hfields]; exact htr.period,htr.once⟩

theorem started_inv {σ : Start} {later : ℕ} (hfn : σ.fn ≠ 0)
    (hl : k.links.Holds (placed k.task σ.task (l.erase σ.task)))
    (htask : k.task = update s.ticks.task σ.task (Start.fields σ))
    (hspread : Spread (started σ later s k)) :
    TimerInv (started σ later s k) (placed k.task σ.task (l.erase σ.task)) where
  holds := hl
  nodup := insertAfter_nodup _ _ _ h.nodup.not_mem_erase (h.nodup.erase _)
  mem := by
    intro u
    rw [placed, mem_insertAfter, erase_mem h]
    by_cases hu : u = σ.task
    · simp [hu, started]
    · simp [hu, started]
  sorted := started_sorted h htask hspread
  tracked _ _ := started_tracked h htask
  nonnull := by
    intro σ' hσ'
    rcases List.mem_append.mp hσ' with hσ' | hσ'
    · exact h.nonnull σ' hσ'
    · obtain rfl := List.mem_singleton.mp hσ'
      exact hfn
  known := by
    intro f hf
    have := h.known f hf
    simp only [started, List.length_append, List.length_singleton]
    omega
  fired := by
    intro i σ' hσ'
    by_cases hi : i < s.starts.length
    · simp only [started] at hσ'
      rw [List.getElem?_append_left hi] at hσ'
      exact h.fired i σ' hσ'
    · have hlen := (List.getElem?_eq_some_iff.mp hσ').1
      simp only [started, List.length_append, List.length_singleton] at hlen
      obtain rfl : i = s.starts.length := by omega
      have hnil : firings s.starts.length (started σ later s k).log = [] := firings_new h
      rw [hnil]
      exact ⟨by simp,by simp⟩

theorem inactive_inv {s' : Timers} {l' : List ℕ}
    (hl : s'.ticks.links.Holds l') (hsub : l'.Sublist l) (hmem : ∀ t, t ∈ l' ↔ s'.active t ≠ none)
    (hactive : ∀ t, s'.active t ≠ none → s'.active t = s.active t ∧
      s'.ticks.task t = s.ticks.task t)
    (hstarts : s'.starts = s.starts) (hlog : s'.log = s.log) : TimerInv s' l' where
  holds := hl
  nodup := h.nodup.sublist hsub
  mem := hmem
  sorted := by
    have hdue : ∀ t ∈ l', s'.due t = s.due t := by
      intro t ht
      rw [Timers.due, Timers.due, (hactive t ((hmem t).mp ht)).1, hstarts, hlog]
    refine List.Pairwise.imp_of_mem ?_ (h.sorted.sublist hsub)
    intro a b ha hb hab
    rwa [hdue a ha, hdue b hb]
  tracked := by
    intro t i hi
    obtain ⟨ha,htask⟩ := hactive t (by simp [hi])
    obtain ⟨σ,hσ,htr⟩ := h.tracked t i (by rw [← ha, hi])
    refine ⟨σ,by rw [hstarts, hσ],htr.task,?_,?_,?_,?_⟩
    · rw [htask, htr.fn]
    · rw [htask, htr.target, hlog]
    · rw [htask, htr.period]
    · rw [hlog]
      exact htr.once
  nonnull := by
    rw [hstarts]
    exact h.nonnull
  known := by
    rw [hlog, hstarts]
    exact h.known
  fired := by
    rw [hlog, hstarts]
    exact h.fired

theorem stopped_inv {t now : ℕ} (hl : k.links.Holds (l.erase t))
    (htask : ∀ u, u ≠ t → k.task u = s.ticks.task u) :
    TimerInv (stopped t now s k) (l.erase t) := by
  apply inactive_inv h hl List.erase_sublist
  · intro u
    rw [erase_mem h]
    by_cases hu : u = t <;> simp [hu, stopped]
  · intro u hu
    have hne : u ≠ t := by
      rintro rfl
      simp [stopped] at hu
    exact ⟨update_of_ne hne _ _,htask u hne⟩
  · rfl
  · rfl

theorem scribbled_inv {t : ℕ} {task : KTickTask} {next : Option ℕ}
    (ht : s.active t = none) : TimerInv (scribbled t task next s) l := by
  have hout : t ∉ l := fun hm => (h.mem t).mp hm ht
  refine inactive_inv h ?_ (List.Sublist.refl l) h.mem ?_ rfl rfl
  · apply Chain.congr h.holds
    intro u hu
    have hne : u ≠ t := fun he => hout (he ▸ hu)
    exact update_of_ne hne _ _
  · intro u hu
    have hne : u ≠ t := by
      rintro rfl
      exact hu ht
    exact ⟨rfl,update_of_ne hne _ _⟩

theorem phase_inv (phase : Phase) : TimerInv { s with phase := phase } l :=
  inactive_inv h h.holds (List.Sublist.refl l) h.mem (fun _ _ => ⟨rfl,rfl⟩) rfl rfl

end

end Actions

/-! A firing. -/

section Firing

variable {s : Timers} {l : List ℕ} {k : Ticks} {cur i now later : ℕ} {σ : Start}

theorem fired_firings_self (hi : s.active cur = some i) :
    firings i (fired cur now later s k).log = firings i s.log ++ [firingOf cur now s] := by
  have hserial : (firingOf cur now s).serial = i := by simp [firingOf, hi]
  simp only [fired, firings_append, if_pos hserial]

theorem fired_firings_other {j : ℕ} (hi : s.active cur = some i) (hj : j ≠ i) :
    firings j (fired cur now later s k).log = firings j s.log := by
  have hserial : (firingOf cur now s).serial ≠ j := by
    simp only [firingOf, hi]
    exact hj.symm
  simp only [fired, firings_append, if_neg hserial, List.append_nil]

section

variable (h : TimerInv s l) (hi : s.active cur = some i)
include h hi

theorem fired_due_other {u : ℕ} (hu : u ≠ cur) : (fired cur now later s k).due u = s.due u := by
  have ha : (fired cur now later s k).active u = s.active u := by
    simp only [fired]
    split
    · rfl
    · exact update_of_ne hu _ _
  cases hact : s.active u with
  | none => simp [Timers.due, ha, hact]
  | some j =>
    have hj : j ≠ i := by
      rintro rfl
      exact hu (serial_injective h hact hi)
    rw [Timers.due, Timers.due, ha, hact]
    simp only [bind_some, fired_firings_other hi hj]
    rfl

theorem fired_log (hσ : s.starts[i]? = some σ)
    (hdue : kTickIsSequential (tickCount now) (s.ticks.task cur).target = false)
    {j : ℕ} {σ' : Start} (hj : s.starts[j]? = some σ') :
    FiredAs σ' (firings j (fired cur now later s k).log) := by
  have hold := h.fired j σ' hj
  by_cases hji : j = i
  · subst hji
    obtain rfl := mem_unique hσ hj
    obtain ⟨σ',hσ',htr⟩ := h.tracked cur j hi
    obtain rfl := mem_unique hσ hσ'
    rw [fired_firings_self hi]
    refine ⟨?_,?_⟩
    · intro m f hf
      rcases Nat.lt_trichotomy m (firings j s.log).length with hm | rfl | hm
      · rw [List.getElem?_append_left hm] at hf
        exact hold.each m f hf
      · obtain rfl : firingOf cur now s = f := by simpa using hf
        exact ⟨htr.task.symm,htr.fn,htr.target,hdue⟩
      · have hlen := (List.getElem?_eq_some_iff.mp hf).1
        simp only [List.length_append, List.length_singleton] at hlen
        omega
    · intro hp
      simp [htr.once hp]
  · rw [fired_firings_other hi hji]
    exact hold

theorem fired_known : ∀ f ∈ (fired cur now later s k).log, f.serial < s.starts.length := by
  intro f hf
  rcases List.mem_append.mp hf with hf | hf
  · exact h.known f hf
  · obtain rfl := List.mem_singleton.mp hf
    simp only [firingOf, hi]
    exact serial_lt h hi

theorem fired_tracked {u j : ℕ} (hu : u ≠ cur)
    (htask : k.task u = s.ticks.task u) (hj : s.active u = some j) :
    ∃ σ', s.starts[j]? = some σ' ∧ Tracked (fired cur now later s k) u j σ' := by
  obtain ⟨σ',hσ',htr⟩ := h.tracked u j hj
  have hji : j ≠ i := by
    rintro rfl
    exact hu (serial_injective h hj hi)
  have hlog : firings j (fired cur now later s k).log = firings j s.log :=
    fired_firings_other hi hji
  have hfields : (fired cur now later s k).ticks.task u = s.ticks.task u := htask
  refine ⟨σ',hσ',htr.task,?_,?_,?_,?_⟩
  · rw [hfields, htr.fn]
  · rw [hfields, htr.target, hlog]
  · rw [hfields, htr.period]
  · rw [hlog]
    exact htr.once

end

section

variable (h : TimerInv s (cur::l)) (hi : s.active cur = some i)
include h hi

theorem fired_sorted : l.Pairwise (fun a b =>
      (fired cur now later s k).due a ≤ (fired cur now later s k).due b) := by
  have hcur := (List.nodup_cons.mp h.nodup).1
  have hdue : ∀ u ∈ l, (fired cur now later s k).due u = s.due u := fun u hu =>
    fired_due_other h hi (fun he => hcur (he ▸ hu))
  refine List.Pairwise.imp_of_mem ?_ (List.pairwise_cons.mp h.sorted).2
  intro a b ha hb hab
  rwa [hdue a ha, hdue b hb]

theorem oneShot_inv (hσ : s.starts[i]? = some σ) (hp : (s.ticks.task cur).period = 0)
    (hdue : kTickIsSequential (tickCount now) (s.ticks.task cur).target = false)
    (hl : k.links.Holds l) (htask : ∀ u, u ≠ cur → k.task u = s.ticks.task u) :
    TimerInv (fired cur now later s k) l := by
  obtain ⟨hcur,hnodup⟩ := List.nodup_cons.mp h.nodup
  have hactive : (fired cur now later s k).active = update s.active cur none :=
    if_neg (not_not.mpr hp)
  refine ⟨hl,hnodup,?_,fired_sorted h hi,?_,h.nonnull,fired_known h hi,
    fun _ _ => fired_log h hi hσ hdue⟩
  · intro u
    rw [hactive]
    by_cases hu : u = cur
    · simp [hu, hcur]
    · rw [update_of_ne hu, ← h.mem]
      simp [hu]
  · intro u j hj
    rw [hactive] at hj
    have hu : u ≠ cur := by
      rintro rfl
      simp at hj
    rw [update_of_ne hu] at hj
    exact fired_tracked h hi hu (htask u hu) hj

theorem periodic_tracked (hσ : s.starts[i]? = some σ) (hp : (s.ticks.task cur).period ≠ 0)
    (htask : k.task = update s.ticks.task cur { s.ticks.task cur with
      target := (s.ticks.task cur).target+(s.ticks.task cur).period }) :
    Tracked (fired cur now later s k) cur i σ := by
  obtain ⟨σ',hσ',htr⟩ := h.tracked cur i hi
  obtain rfl := mem_unique hσ hσ'
  have hfields : (fired cur now later s k).ticks.task cur = { s.ticks.task cur with
      target := (s.ticks.task cur).target+(s.ticks.task cur).period } := by
    change k.task cur = _
    rw [htask, update_self]
  refine ⟨htr.task,?_,?_,?_,?_⟩
  · rw [hfields, ← htr.fn]
  · rw [hfields, htr.target, htr.period, Start.dueAt_succ, fired_firings_self hi]
    simp
  · rw [hfields, ← htr.period]
  · intro h0
    exact absurd (htr.period.trans h0) hp

theorem periodic_inv (hσ : s.starts[i]? = some σ) (hp : (s.ticks.task cur).period ≠ 0)
    (hdue : kTickIsSequential (tickCount now) (s.ticks.task cur).target = false)
    (hl : k.links.Holds (placed k.task cur l))
    (htask : k.task = update s.ticks.task cur { s.ticks.task cur with
      target := (s.ticks.task cur).target+(s.ticks.task cur).period })
    (hspread : Spread (fired cur now later s k)) :
    TimerInv (fired cur now later s k) (placed k.task cur l) := by
  obtain ⟨hcur,hnodup⟩ := List.nodup_cons.mp h.nodup
  have hactive : (fired cur now later s k).active = s.active := if_pos hp
  have htrack : ∀ u j, (fired cur now later s k).active u = some j →
      ∃ σ', s.starts[j]? = some σ' ∧ Tracked (fired cur now later s k) u j σ' := by
    intro u j hj
    rw [hactive] at hj
    by_cases hu : u = cur
    · subst hu
      obtain rfl := mem_unique hi hj
      exact ⟨σ,hσ,periodic_tracked h hi hσ hp htask⟩
    · exact fired_tracked h hi hu (by rw [htask, update_of_ne hu]) hj
  have hmem : ∀ u, u = cur ∨ u ∈ l ↔ (fired cur now later s k).active u ≠ none := by
    intro u
    rw [hactive, ← h.mem, List.mem_cons]
  refine ⟨hl,insertAfter_nodup _ _ _ hcur hnodup,?_,?_,htrack,h.nonnull,fired_known h hi,
    fun _ _ => fired_log h hi hσ hdue⟩
  · intro u
    rw [placed, mem_insertAfter]
    exact hmem u
  · apply placed_sorted (fired_sorted h hi)
    · intro u hu
      obtain ⟨j,hj⟩ := ne_none_iff_exists'.mp ((hmem u).mp hu)
      obtain ⟨σ',hσ',htr⟩ := htrack u j hj
      rw [due_eq hj hσ']
      exact htr.target
    · intro u hu
      have hu' := (hmem u).mp (Or.inr hu)
      have hc' := (hmem cur).mp (Or.inl rfl)
      exact ⟨hspread u cur hu' hc',hspread cur u hc' hu'⟩

end

end Firing

/-! A step. -/

section Step

variable {s s' : Timers} {l : List ℕ} {n : ℕ}

theorem inactive_notMem (h : TimerInv s l) {t : ℕ} (h0 : (s.ticks.task t).fn = 0) : t ∉ l :=
  fun hm => active_fn h ((h.mem t).mp hm) h0

theorem check_inv {now later : ℕ} (h : TimerInv s l) (hs : checked n now later s = some s')
    (hspread : Spread s') : ∃ l', TimerInv s' l' := by
  unfold checked at hs
  split at hs
  · rename_i cur hcur
    obtain ⟨k,hk,rfl⟩ := map_eq_some_iff.mp hs
    obtain ⟨hfirst,hdue⟩ := dueTask_some hcur
    have hhead := Chain.first_eq h.holds
    cases l with
    | nil => simp [hfirst] at hhead
    | cons a l =>
      obtain rfl := mem_unique hfirst hhead
      obtain ⟨i,hi⟩ := ne_none_iff_exists'.mp ((h.mem cur).mp List.mem_cons_self)
      obtain ⟨σ,hσ,-⟩ := h.tracked cur i hi
      rcases pop_cases h.holds h.nodup hk with ⟨hp,hl,htask⟩ | ⟨hp,hl,htask⟩
      · exact ⟨_,periodic_inv h hi hσ hp hdue hl htask hspread⟩
      · refine ⟨l,oneShot_inv h hi hσ hp hdue hl ?_⟩
        intro u hu
        rw [htask, update_of_ne hu]
  · cases hs
    refine ⟨l,inactive_inv h ?_ (List.Sublist.refl l) h.mem (fun _ _ => ⟨rfl,?_⟩) rfl rfl⟩
    · simpa using h.holds
    · simp

theorem timer_inv {a : TimerAction} (h : TimerInv s l) (hok : TimerOk a s)
    (hs : timerStep n a s = some s') (hspread : Spread s') : ∃ l', TimerInv s' l' := by
  cases a with
  | start t fn delay period now later =>
    obtain ⟨k,hk,rfl⟩ := map_eq_some_iff.mp hs
    obtain ⟨k₁,hl,htask,-,-,hk'⟩ := start_cases h.holds h.nodup (inactive_notMem h) hk
    have hlinks : k.links = k₁.links := by
      rw [hk']
      split <;> simp
    have htask' : k.task = k₁.task := by
      rw [hk']
      split <;> simp
    refine ⟨_,started_inv h hok.1 ?_ (htask'.trans htask) hspread⟩
    rw [hlinks, htask']
    exact hl
  | stop t now =>
    obtain ⟨k,hk,rfl⟩ := map_eq_some_iff.mp hs
    rcases stop_cases h.holds h.nodup hk with ⟨rfl,h0⟩ | ⟨k₁,hl,hk₁,rfl⟩
    · refine ⟨_,stopped_inv h ?_ (fun _ _ => rfl)⟩
      rw [List.erase_of_not_mem (inactive_notMem h h0)]
      exact h.holds
    · refine ⟨_,stopped_inv h ?_ ?_⟩
      · simp only [clearFn, setTask]
        split <;> simpa using hl
      · intro u hu
        simp only [clearFn, setTask, update_of_ne hu]
        split
        · rw [reschedule_task, hk₁]
        · rw [hk₁]
  | run =>
    cases hs
    exact ⟨l,phase_inv h .checking⟩
  | check now later => exact check_inv h hs hspread
  | ret =>
    cases hs
    exact ⟨l,phase_inv h .checking⟩
  | scribble t task next =>
    cases hs
    exact ⟨l,scribbled_inv h hok⟩

theorem init_timerInv (next : ℕ → Option ℕ) (task : ℕ → KTickTask) :
    TimerInv (timersInit next task) [] where
  holds := .nil
  nodup := List.nodup_nil
  mem := by simp [timersInit]
  sorted := .nil
  tracked := by simp [timersInit]
  nonnull := by simp [timersInit]
  known := by simp [timersInit]
  fired := by simp [timersInit]

theorem timer_returns (h : TimerInv s l) (hn : l.length < n) (a : TimerAction) :
    ∃ s', timerStep n a s = some s' := by
  cases a with
  | start t fn delay period now later =>
    obtain ⟨k,hk⟩ := start_returns h.holds h.nodup hn fn delay period now later
    exact ⟨_,by rw [timerStep, hk]; rfl⟩
  | stop t now =>
    obtain ⟨k,hk⟩ := stop_returns h.holds hn now
    exact ⟨_,by rw [timerStep, hk]; rfl⟩
  | check now later =>
    change ∃ s', checked n now later s = some s'
    unfold checked
    split
    · rename_i cur hcur
      have hhead := Chain.first_eq h.holds
      rw [(dueTask_some hcur).1] at hhead
      cases l with
      | nil => simp at hhead
      | cons a l =>
        cases hhead
        obtain ⟨k,hk⟩ := pop_returns h.holds (Nat.lt_of_succ_lt hn)
        exact ⟨_,by rw [hk]; rfl⟩
    · exact ⟨_,rfl⟩
  | _ => exact ⟨_,rfl⟩

end Step

end Libogc.TimerStep
