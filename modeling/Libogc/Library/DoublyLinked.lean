import Mathlib.Data.List.Chain
import Mathlib.Data.List.Nodup

/-!
# Doubly linked lists between two sentinels

The links are two functions on nodes. A change of the links at the border of a
segment replaces the segment and leaves the rest of the list linked.
-/

set_option autoImplicit false

namespace Libogc.DoublyLinked
open List Function

variable {N : Type} {next prev next' prev' : N → N}

def Linked (next prev : N → N) (l : List N) : Prop :=
  l.IsChain (fun a b => next a = b ∧ prev b = a)

/-- The list between the sentinels `hd` and `tl`. -/
def Listed (next prev : N → N) (hd tl : N) (l : List N) : Prop :=
  Linked next prev (hd::(l ++ [tl]))

theorem linked_split {xs ys : List N} {a : N} :
    Linked next prev (xs ++ a::ys) ↔ Linked next prev (xs ++ [a]) ∧ Linked next prev (a::ys) :=
  isChain_split

variable {l : List N} {hd tl : N}

theorem linked_congr (h : Linked next prev l) (hn : ∀ n ∈ l.dropLast, next' n = next n)
    (hp : ∀ n ∈ l.tail, prev' n = prev n) : Linked next' prev' l := by
  induction l with
  | nil => exact .nil
  | cons a l ih =>
    cases l with
    | nil => exact .singleton a
    | cons b l =>
      have hab := isChain_cons_cons.mp h
      refine isChain_cons_cons.mpr ⟨⟨?_,?_⟩,ih hab.2 ?_ ?_⟩
      · rw [hn a (by simp)]
        exact hab.1.1
      · rw [hp b (by simp)]
        exact hab.1.2
      · exact fun n hmem => hn n (by simp [hmem])
      · exact fun n hmem => hp n (mem_of_mem_tail hmem)

theorem cons_eq_append_last (hd : N) (us : List N) :
    hd::us = (hd::us).dropLast ++ [us.getLastD hd] := by
  cases us with
  | nil => rfl
  | cons u us =>
    have hlast := dropLast_append_getLast (cons_ne_nil hd (u::us))
    exact hlast.symm

theorem append_singleton_eq_cons (vs : List N) (tl : N) :
    vs ++ [tl] = vs.headD tl::(vs ++ [tl]).tail := by
  cases vs <;> rfl

theorem getLastD_mem (hd : N) (us : List N) : us.getLastD hd ∈ hd::us := by
  rw [cons_eq_append_last hd us]
  simp

theorem headD_mem (vs : List N) (tl : N) : vs.headD tl ∈ vs ++ [tl] := by
  rw [append_singleton_eq_cons vs tl]
  simp

theorem listed_split {hd tl : N} {us ms vs : List N} :
    Listed next prev hd tl (us ++ (ms ++ vs)) ↔ Linked next prev (hd::us) ∧
      Linked next prev (us.getLastD hd::(ms ++ [vs.headD tl])) ∧ Linked next prev (vs ++ [tl]) := by
  have hshape : hd::(us ++ (ms ++ vs) ++ [tl]) = (hd::us).dropLast ++
      us.getLastD hd::(ms ++ vs.headD tl::(vs ++ [tl]).tail) := by
    calc hd::(us ++ (ms ++ vs) ++ [tl]) = hd::us ++ (ms ++ (vs ++ [tl])) := by simp
      _ = (hd::us).dropLast ++ [us.getLastD hd] ++ (ms ++ vs.headD tl::(vs ++ [tl]).tail) := by
        rw [← cons_eq_append_last, ← append_singleton_eq_cons]
      _ = _ := by simp
  unfold Listed
  rw [hshape, linked_split, ← cons_eq_append_last, ← cons_append, linked_split,
    ← append_singleton_eq_cons, cons_append]

theorem listed_around {hd tl x : N} {us vs : List N} (h : Listed next prev hd tl (us ++ x::vs)) :
    prev x = us.getLastD hd ∧ next x = vs.headD tl := by
  have hmid := (@listed_split _ _ _ _ _ us [x] vs).mp h
  obtain ⟨hax,hxb⟩ := isChain_cons_cons.mp hmid.2.1
  exact ⟨hax.2,(isChain_cons_cons.mp hxb).1.1⟩

theorem listed_next_mem {x : N} (h : Listed next prev hd tl l) (hx : x ∈ hd::l) :
    next x ∈ l ++ [tl] := by
  rcases mem_cons.mp hx with rfl | hx
  · have hhead := (@listed_split _ _ _ _ _ [] [] l).mp h
    have hfirst : next x = l.headD tl := (isChain_cons_cons.mp hhead.2.1).1.1
    exact hfirst ▸ headD_mem l tl
  · obtain ⟨us,vs,rfl⟩ := append_of_mem hx
    rw [(listed_around h).2]
    have hmem := headD_mem vs tl
    simp only [mem_append] at hmem ⊢
    tauto

theorem listed_prev_mem {x : N} (h : Listed next prev hd tl l) (hx : x ∈ l ++ [tl]) :
    prev x ∈ hd::l := by
  rcases mem_append.mp hx with hx | hx
  · obtain ⟨us,vs,rfl⟩ := append_of_mem hx
    rw [(listed_around h).1]
    have hmem := getLastD_mem hd us
    simp only [mem_append, mem_cons] at hmem ⊢
    tauto
  · have hend := (@listed_split _ _ _ _ _ l [] []).mp (by simpa using h)
    have hlast : prev tl = l.getLastD hd := (isChain_cons_cons.mp hend.2.1).1.2
    rw [mem_singleton.mp hx]
    exact hlast ▸ getLastD_mem hd l

theorem listed_replace {hd tl : N} {us ms ms' vs : List N}
    (h : Listed next prev hd tl (us ++ (ms ++ vs))) (hus : (hd::us).Nodup)
    (hvs : (vs ++ [tl]).Nodup) (hmid : Linked next' prev' (us.getLastD hd::(ms' ++ [vs.headD tl])))
    (hnextUs : ∀ n ∈ hd::us, n ≠ us.getLastD hd → next' n = next n)
    (hprevUs : ∀ n ∈ us, prev' n = prev n) (hnextVs : ∀ n ∈ vs, next' n = next n)
    (hprevVs : ∀ n ∈ vs ++ [tl], n ≠ vs.headD tl → prev' n = prev n) :
    Listed next' prev' hd tl (us ++ (ms' ++ vs)) := by
  obtain ⟨hbefore,-,hafter⟩ := listed_split.mp h
  refine listed_split.mpr ⟨linked_congr hbefore ?_ ?_,hmid,linked_congr hafter ?_ ?_⟩
  · intro n hn
    apply hnextUs n ((dropLast_sublist _).subset hn)
    rintro rfl
    rw [cons_eq_append_last hd us] at hus
    exact disjoint_of_nodup_append hus hn (by simp)
  · exact fun n hn => hprevUs n hn
  · intro n hn
    rw [dropLast_concat] at hn
    exact hnextVs n hn
  · intro n hn
    apply hprevVs n (mem_of_mem_tail hn)
    rintro rfl
    rw [append_singleton_eq_cons vs tl] at hvs
    exact (nodup_cons.mp hvs).1 hn

theorem listed_congr (h : Listed next prev hd tl l) (hn : ∀ n ∈ hd::l, next' n = next n)
    (hp : ∀ n ∈ l ++ [tl], prev' n = prev n) : Listed next' prev' hd tl l := by
  refine linked_congr h ?_ hp
  intro n hmem
  rw [← cons_append, dropLast_concat] at hmem
  exact hn n hmem

theorem listed_unique {l' : List N} (h : Listed next prev hd tl l)
    (h' : Listed next prev hd tl l') (hl : tl ∉ l) (hl' : tl ∉ l') : l = l' := by
  induction l generalizing hd l' with
  | nil =>
    cases l' with
    | nil => rfl
    | cons b l' =>
      have hb := (isChain_cons_cons.mp h).1.1.symm.trans (isChain_cons_cons.mp h').1.1
      exact absurd hb (ne_of_not_mem_cons hl')
  | cons a l ih =>
    obtain ⟨ha,hrest⟩ := isChain_cons_cons.mp h
    cases l' with
    | nil =>
      have hb := (isChain_cons_cons.mp h').1.1.symm.trans ha.1
      exact absurd hb (ne_of_not_mem_cons hl)
    | cons b l' =>
      obtain ⟨hb,hrest'⟩ := isChain_cons_cons.mp h'
      obtain rfl := ha.1.symm.trans hb.1
      rw [ih hrest hrest' (not_mem_of_not_mem_cons hl) (not_mem_of_not_mem_cons hl')]

theorem linked_agree (h : Linked next prev l) (h' : Linked next' prev' l) :
    (∀ n ∈ l.dropLast, next' n = next n) ∧ ∀ n ∈ l.tail, prev' n = prev n := by
  induction l with
  | nil => simp
  | cons a l ih =>
    cases l with
    | nil => simp
    | cons b l =>
      obtain ⟨hab,hrest⟩ := isChain_cons_cons.mp h
      obtain ⟨hab',hrest'⟩ := isChain_cons_cons.mp h'
      obtain ⟨hn,hp⟩ := ih hrest hrest'
      constructor
      · intro n hmem
        rcases mem_cons.mp hmem with rfl | hmem
        · exact hab'.1.trans hab.1.symm
        · exact hn n hmem
      · intro n hmem
        rcases mem_cons.mp hmem with rfl | hmem
        · exact hab'.2.trans hab.2.symm
        · exact hp n hmem

theorem listed_agree (h : Listed next prev hd tl l) (h' : Listed next' prev' hd tl l) :
    (∀ n ∈ hd::l, next' n = next n) ∧ ∀ n ∈ l ++ [tl], prev' n = prev n := by
  obtain ⟨hn,hp⟩ := linked_agree h h'
  rw [← cons_append, dropLast_concat] at hn
  exact ⟨hn,hp⟩

/-! One node goes in between its neighbours, or out. -/

theorem segment_nodup {us vs : List N} (h : (hd::(us ++ vs) ++ [tl]).Nodup) :
    (hd::us).Nodup ∧ (vs ++ [tl]).Nodup ∧ ∀ n ∈ hd::us, ∀ m ∈ vs ++ [tl], n ≠ m := by
  rw [cons_append, append_assoc] at h
  exact nodup_append.mp h

section Single

variable [DecidableEq N] {hd tl x : N} {us vs : List N}

theorem listed_insert (h : Listed next prev hd tl (us ++ vs))
    (hnodup : (x::(hd::(us ++ vs) ++ [tl])).Nodup) :
    Listed (update (update next x (vs.headD tl)) (us.getLastD hd) x)
      (update (update prev x (us.getLastD hd)) (vs.headD tl) x) hd tl (us ++ x::vs) := by
  obtain ⟨hx,hrest⟩ := nodup_cons.mp hnodup
  obtain ⟨hus,hvs,hapart⟩ := segment_nodup hrest
  have hxus : ∀ n ∈ hd::us, n ≠ x := by
    rintro n hn rfl
    exact hx (by simp only [mem_append, mem_cons] at hn ⊢; tauto)
  have hxvs : ∀ n ∈ vs ++ [tl], n ≠ x := by
    rintro n hn rfl
    exact hx (by simp only [mem_append, mem_cons] at hn ⊢; tauto)
  have ha := getLastD_mem hd us
  have hb := headD_mem vs tl
  have hl : Listed next prev hd tl (us ++ ([] ++ vs)) := h
  refine @listed_replace _ _ _ _ _ _ _ us [] [x] vs hl hus hvs ?_ ?_ ?_ ?_ ?_
  · refine isChain_cons_cons.mpr ⟨⟨?_,?_⟩,isChain_cons_cons.mpr ⟨⟨?_,?_⟩,.singleton _⟩⟩
    · exact update_self _ _ _
    · rw [update_of_ne (hxvs _ hb).symm, update_self]
    · rw [update_of_ne (hxus _ ha).symm, update_self]
    · exact update_self _ _ _
  · intro n hn hne
    rw [update_of_ne hne, update_of_ne (hxus n hn)]
  · intro n hn
    have hmem := mem_cons_of_mem hd hn
    rw [update_of_ne (hapart n hmem _ hb), update_of_ne (hxus n hmem)]
  · intro n hn
    have hmem := mem_append_left [tl] hn
    rw [update_of_ne (hapart _ ha n hmem).symm, update_of_ne (hxvs n hmem)]
  · intro n hn hne
    rw [update_of_ne hne, update_of_ne (hxvs n hn)]

theorem listed_remove (h : Listed next prev hd tl (us ++ x::vs))
    (hnodup : (hd::(us ++ vs) ++ [tl]).Nodup) : Listed (update next (us.getLastD hd) (vs.headD tl))
      (update prev (vs.headD tl) (us.getLastD hd)) hd tl (us ++ vs) := by
  obtain ⟨hus,hvs,hapart⟩ := segment_nodup hnodup
  refine @listed_replace _ _ _ _ _ _ _ us [x] [] vs h hus hvs ?_ ?_ ?_ ?_ ?_
  · refine isChain_cons_cons.mpr ⟨⟨?_,?_⟩,.singleton _⟩
    · exact update_self _ _ _
    · exact update_self _ _ _
  · exact fun n _ hne => update_of_ne hne _ _
  · exact fun n hn => update_of_ne
      (hapart n (mem_cons_of_mem hd hn) _ (headD_mem vs tl)) _ _
  · exact fun n hn => update_of_ne
      (hapart _ (getLastD_mem hd us) n (mem_append_left [tl] hn)).symm _ _
  · exact fun n _ hne => update_of_ne hne _ _

end Single

end Libogc.DoublyLinked
