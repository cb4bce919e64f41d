import Mathlib.Data.Set.Finite.Basic
import Mathlib.Order.Bounds.Basic

/-!
# Values inherited along a partial function

Every node has a value of its own and at most one successor, and takes the
least of its own value and of what the nodes before it have taken. At a node
without a successor the result is the least own value among all nodes that
lead to it. Nodes on a cycle lead to no such node, so nothing is assumed about
cycles.
-/

set_option autoImplicit false

namespace Libogc.InheritedValue
open Function Relation

variable {α β : Type*} [LinearOrder β]

def Leads (next : α → Option α) : α → α → Prop := ReflTransGen (fun a b => next a = some b)

structure Inherits (next : α → Option α) (base val : α → β) (a : α) : Prop where
  le_base : val a ≤ base a
  le_val : ∀ b, next b = some a → val a ≤ val b
  attained : val a = base a ∨ ∃ b, next b = some a ∧ val b = val a

variable {next : α → Option α} {base val : α → β} {a : α} {e b s o : α}

theorem leads_end (he : next e = none) (h : Leads next e b) : b = e := by
  rcases ReflTransGen.cases_head h with rfl | ⟨c,hc,-⟩
  · rfl
  · simp [he] at hc

theorem leads_end_unique {f : α} (he : next e = none) (hf : next f = none)
    (hbe : Leads next b e) (hbf : Leads next b f) : e = f := by
  induction hbe using ReflTransGen.head_induction_on with
  | refl => exact (leads_end he hbf).symm
  | head hbc _ ih =>
    rcases ReflTransGen.cases_head hbf with rfl | ⟨d,hd,hdf⟩
    · simp [hf] at hbc
    · rw [hbc] at hd
      cases hd
      exact ih hdf

/-! One node gets a successor. -/

section Update

variable [DecidableEq α]

theorem leads_of_update (h : Leads (update next s (some o)) b e) :
    Leads next b e ∨ Leads next b s := by
  induction h using ReflTransGen.head_induction_on with
  | refl => exact Or.inl ReflTransGen.refl
  | @head b c hbc _ ih =>
    by_cases hb : b = s
    · rw [hb]
      exact Or.inr ReflTransGen.refl
    · rw [update_of_ne hb] at hbc
      exact ih.imp (ReflTransGen.head hbc) (ReflTransGen.head hbc)

theorem leads_update (hs : next s = none) (h : Leads next b s) :
    Leads (update next s (some o)) b o := by
  induction h using ReflTransGen.head_induction_on with
  | refl => exact ReflTransGen.single (update_self _ _ _)
  | @head b c hbc _ ih =>
    have hb : b ≠ s := by
      rintro rfl
      simp [hs] at hbc
    exact ReflTransGen.head ((update_of_ne hb _ _).trans hbc) ih

end Update

theorem val_le_of_leads (h : ∀ b, Leads next b a → Inherits next base val b)
    (hb : Leads next b a) : val a ≤ val b := by
  induction hb using ReflTransGen.head_induction_on with
  | refl => exact le_refl _
  | head hbc hca ih => exact ih.trans ((h _ hca).le_val _ hbc)

section

variable (hfin : {b | Leads next b a}.Finite) (hend : next a = none)
  (h : ∀ b, Leads next b a → Inherits next base val b)
include hfin hend h

/-- Otherwise each node with the least value passes it on from a node before
it, which is an injective map of a finite set that misses the last node. -/
theorem attained_of_leads : ∃ b, Leads next b a ∧ base b = val a := by
  classical
  by_contra hno
  push Not at hno
  have hex : ∀ b, ∃ c, Leads next b a → val b = val a → next c = some b ∧ val c = val a := by
    intro b
    by_cases hb : Leads next b a ∧ val b = val a
    · rcases (h b hb.1).attained with hbase | ⟨c,hc,hv⟩
      · exact absurd (hbase.symm.trans hb.2) (hno b hb.1)
      · exact ⟨c,fun _ _ => ⟨hc,hv.trans hb.2⟩⟩
    · exact ⟨b,fun h1 h2 => absurd ⟨h1,h2⟩ hb⟩
  choose f hf using hex
  have hfin' : {b | Leads next b a ∧ val b = val a}.Finite := hfin.subset (fun b hb => hb.1)
  have hmaps : Set.MapsTo f hfin'.toFinset hfin'.toFinset := by
    intro b hb
    obtain ⟨hl,hv⟩ : Leads next b a ∧ val b = val a := by simpa using hb
    obtain ⟨hn,hv'⟩ := hf b hl hv
    simpa using ⟨ReflTransGen.head hn hl,hv'⟩
  have hinj : Set.InjOn f hfin'.toFinset := by
    intro b hb c hc hbc
    obtain ⟨hl,hv⟩ : Leads next b a ∧ val b = val a := by simpa using hb
    obtain ⟨hl',hv'⟩ : Leads next c a ∧ val c = val a := by simpa using hc
    have h1 := (hf b hl hv).1
    rw [hbc, (hf c hl' hv').1] at h1
    exact (Option.some.inj h1).symm
  have hsurj := Finset.surjOn_of_injOn_of_card_le f hmaps hinj (le_refl _)
  obtain ⟨b,hb,hba⟩ := hsurj (hfin'.mem_toFinset.mpr ⟨ReflTransGen.refl,rfl⟩)
  obtain ⟨hl,hv⟩ : Leads next b a ∧ val b = val a := by simpa using hb
  have := (hf b hl hv).1
  rw [hba, hend] at this
  simp at this

theorem isLeast_inherited : IsLeast (base '' {b | Leads next b a}) (val a) := by
  refine ⟨attained_of_leads hfin hend h,?_⟩
  rintro _ ⟨b,hb,rfl⟩
  exact (val_le_of_leads h hb).trans (h b hb).le_base

theorem le_inherited_iff (x : β) : x ≤ val a ↔ ∀ b, Leads next b a → x ≤ base b := by
  rw [le_isGLB_iff (isLeast_inherited hfin hend h).isGLB]
  simp [lowerBounds]

end

end Libogc.InheritedValue
