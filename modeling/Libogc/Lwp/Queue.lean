import Libogc.Library.DoublyLinked
import Libogc.Library.GuardedReach

/-!
# The queues of `lwp_queue.inl`

A queue lies in memory: its head and its tail are nodes laid over the queue
itself, and an object is queued by the two links of the node inside of it.
The functions follow the links whatever they hold. The cell `perm_null`, which
the head and the tail share, is the `prev` of the one and the `next` of the
other. In a memory whose queues are well linked each function is the operation
on lists that one expects.
-/

set_option autoImplicit false

namespace Libogc.Queue
open List Function DoublyLinked GuardedReach

inductive Node (Q N : Type) where
  | null
  | head (q : Q)
  | tail (q : Q)
  | obj (n : N)
  deriving DecidableEq

structure Links (Q N : Type) where
  next : Node Q N → Node Q N
  prev : Node Q N → Node Q N

section Operations

variable {Q N : Type} [DecidableEq Q] [DecidableEq N]

def setNext (a b : Node Q N) (l : Links Q N) : Links Q N :=
  { l with next := update l.next a b }

def setPrev (a b : Node Q N) (l : Links Q N) : Links Q N :=
  { l with prev := update l.prev a b }

def lwpQueueInitEmpty (q : Q) (l : Links Q N) : Links Q N :=
  setPrev (.tail q) (.head q) (setPrev (.head q) .null
    (setNext (.tail q) .null (setNext (.head q) (.tail q) l)))

def lwpQueueIsempty (q : Q) (l : Links Q N) : Bool := decide (l.next (.head q) = .tail q)

def lwpQueueFirstnodeI (q : Q) (l : Links Q N) : Node Q N × Links Q N :=
  let ret := l.next (.head q)
  let newFirst := l.next ret
  (ret, setPrev newFirst (.head q) (setNext (.head q) newFirst l))

def lwpQueueGetI (q : Q) (l : Links Q N) : Node Q N × Links Q N :=
  if lwpQueueIsempty q l then (.null, l) else lwpQueueFirstnodeI q l

def lwpQueueAppendI (q : Q) (node : Node Q N) (l : Links Q N) : Links Q N :=
  let l := setNext node (.tail q) l
  let old := l.prev (.tail q)
  setPrev node old (setNext old node (setPrev (.tail q) node l))

def lwpQueueExtractI (node : Node Q N) (l : Links Q N) : Links Q N :=
  setNext (l.prev node) (l.next node) (setPrev (l.next node) (l.prev node) l)

end Operations

structure Holds {Q N : Type} (l : Links Q N) (c : Q → List N) : Prop where
  listed : ∀ q, Listed l.next l.prev (.head q) (.tail q) ((c q).map .obj)
  nodup : ∀ q, (c q).Nodup
  apart : ∀ q q' n, n ∈ c q → n ∈ c q' → q = q'

section Holds

variable {Q N : Type} {l l' : Links Q N} {c : Q → List N} {q : Q} {n : N} {ns : List N}

theorem nodes_nodup (q : Q) (h : ns.Nodup) :
    (Node.head q::ns.map Node.obj ++ [(Node.tail q : Node Q N)]).Nodup := by
  have hmap : (ns.map (Node.obj : N → Node Q N)).Nodup := h.map (fun _ _ he => Node.obj.inj he)
  exact nodup_cons.mpr ⟨by simp,nodup_append.mpr ⟨hmap,nodup_singleton _,by simp⟩⟩

theorem holds_of_empty (h : ∀ q, l.next (.head q) = .tail q ∧ l.prev (.tail q) = .head q) :
    Holds l (fun _ => []) :=
  ⟨fun q => isChain_cons_cons.mpr ⟨h q,.singleton _⟩,fun _ => nodup_nil,by simp⟩

theorem Holds.foreign (h : Holds l c) {x y : Node Q N} {q' : Q} (hne : q' ≠ q)
    (hx : x = .head q ∨ x = .tail q ∨ ∃ n ∈ c q, x = .obj n)
    (hy : y = .head q' ∨ y = .tail q' ∨ ∃ n ∈ c q', y = .obj n) : y ≠ x := by
  rintro rfl
  rcases hx with rfl | rfl | ⟨n,hn,rfl⟩
  · simp [Ne.symm hne] at hy
  · simp [Ne.symm hne] at hy
  · have hm : n ∈ c q' := by simpa using hy
    exact hne (h.apart q' q n hm hn)

theorem mem_head {x : Node Q N} (h : x ∈ Node.head q::ns.map Node.obj) :
    x = .head q ∨ x = .tail q ∨ ∃ n ∈ ns, x = .obj n := by
  rcases mem_cons.mp h with rfl | h
  · exact .inl rfl
  · obtain ⟨n,hn,rfl⟩ := mem_map.mp h
    exact .inr (.inr ⟨n,hn,rfl⟩)

theorem mem_tail {x : Node Q N} (h : x ∈ ns.map Node.obj ++ [Node.tail q]) :
    x = .head q ∨ x = .tail q ∨ ∃ n ∈ ns, x = .obj n := by
  rcases mem_append.mp h with h | h
  · obtain ⟨n,hn,rfl⟩ := mem_map.mp h
    exact .inr (.inr ⟨n,hn,rfl⟩)
  · exact .inr (.inl (mem_singleton.mp h))

theorem on_queue_ne {x : Node Q N} (hx : x = .head q ∨ x = .tail q ∨ ∃ m ∈ ns, x = .obj m)
    (hn : n ∉ ns) : x ≠ .obj n := by
  rintro rfl
  exact hn (by simpa using hx)

theorem Holds.eq_of_listed (h : Holds l c)
    (hl : Listed l.next l.prev (.head q) (.tail q) (ns.map .obj)) : ns = c q :=
  map_injective_iff.mpr (fun _ _ he => Node.obj.inj he)
    (listed_unique hl (h.listed q) (by simp) (by simp))

theorem Holds.first (h : Holds l c) (q : Q) :
    l.next (.head q) = ((c q).map .obj).headD (.tail q) := by
  have hl := h.listed q
  cases hc : c q with
  | nil | cons n ns =>
    rw [hc] at hl
    exact (isChain_cons_cons.mp hl).1.1

theorem Holds.last (h : Holds l c) (q : Q) :
    l.prev (.tail q) = ((c q).map .obj).getLastD (.head q) := by
  have hl := (@listed_split _ _ _ _ _ ((c q).map Node.obj) [] []).mp (by simpa using h.listed q)
  exact (isChain_cons_cons.mp hl.2.1).1.2

theorem Holds.relink [DecidableEq Q] (h : Holds l c)
    (hq : Listed l'.next l'.prev (.head q) (.tail q) (ns.map .obj)) (hns : ns.Nodup)
    (hold : ∀ n ∈ ns, ∀ q', q' ≠ q → n ∉ c q')
    (hnext : ∀ q', q' ≠ q → ∀ x ∈ Node.head q'::(c q').map .obj, l'.next x = l.next x)
    (hprev : ∀ q', q' ≠ q → ∀ x ∈ (c q').map .obj ++ [Node.tail q'], l'.prev x = l.prev x) :
    Holds l' (update c q ns) := by
  refine ⟨?_,?_,?_⟩
  · intro q'
    by_cases he : q' = q
    · subst he
      rw [update_self]
      exact hq
    · rw [update_of_ne he]
      exact listed_congr (h.listed q') (hnext q' he) (hprev q' he)
  · intro q'
    by_cases he : q' = q
    · subst he
      rw [update_self]
      exact hns
    · rw [update_of_ne he]
      exact h.nodup q'
  · intro a b m ha hb
    by_cases hqa : a = q <;> by_cases hqb : b = q
    · rw [hqa, hqb]
    · subst hqa
      rw [update_self] at ha
      rw [update_of_ne hqb] at hb
      exact absurd hb (hold m ha b hqb)
    · subst hqb
      rw [update_self] at hb
      rw [update_of_ne hqa] at ha
      exact absurd ha (hold m hb a hqa)
    · rw [update_of_ne hqa] at ha
      rw [update_of_ne hqb] at hb
      exact h.apart a b m ha hb

section Change

variable [DecidableEq Q] [DecidableEq N] {us vs : List N}

theorem Holds.insert (h : Holds l c) (hc : c q = us ++ vs) (hn : ∀ q', n ∉ c q')
    {a b : Node Q N} (ha : a = (us.map Node.obj).getLastD (.head q))
    (hb : b = (vs.map Node.obj).headD (.tail q))
    (hnext : l'.next = update (update l.next (.obj n) b) a (.obj n))
    (hprev : l'.prev = update (update l.prev (.obj n) a) b (.obj n)) :
    Holds l' (update c q (us ++ n::vs)) := by
  have hl := h.listed q
  have hnd := h.nodup q
  have hnq := hn q
  have hleft : a = .head q ∨ a = .tail q ∨ ∃ m ∈ c q, a = .obj m :=
    (mem_head (ha ▸ getLastD_mem _ _)).imp_right
      (.imp_right (fun ⟨m,hm,he⟩ => ⟨m,by simp [hc, hm],he⟩))
  have hright : b = .head q ∨ b = .tail q ∨ ∃ m ∈ c q, b = .obj m :=
    (mem_tail (hb ▸ headD_mem _ _)).imp_right
      (.imp_right (fun ⟨m,hm,he⟩ => ⟨m,by simp [hc, hm],he⟩))
  rw [hc] at hl hnd hnq
  apply h.relink
  · have hnodup : (Node.obj n::(Node.head q::(us.map .obj ++ vs.map .obj) ++
        [(Node.tail q : Node Q N)])).Nodup := by
      rw [← map_append]
      exact nodup_cons.mpr ⟨by simpa using hnq,nodes_nodup q hnd⟩
    rw [map_append] at hl ⊢
    rw [hnext, hprev, ha, hb]
    exact listed_insert hl hnodup
  · exact nodup_middle.mpr (nodup_cons.mpr ⟨hnq,hnd⟩)
  · intro m hm q' hne hm'
    rcases mem_cons.mp (perm_middle.mem_iff.mp hm) with rfl | hm
    · exact hn q' hm'
    · exact hne (h.apart q' q m hm' (hc ▸ hm))
  · intro q' hne x hx
    rw [hnext, update_of_ne (h.foreign hne hleft (mem_head hx)),
      update_of_ne (on_queue_ne (mem_head hx) (hn q'))]
  · intro q' hne x hx
    rw [hprev, update_of_ne (h.foreign hne hright (mem_tail hx)),
      update_of_ne (on_queue_ne (mem_tail hx) (hn q'))]

theorem Holds.remove (h : Holds l c) (hc : c q = us ++ n::vs)
    (hnext : l'.next = update l.next (l.prev (.obj n)) (l.next (.obj n)))
    (hprev : l'.prev = update l.prev (l.next (.obj n)) (l.prev (.obj n))) :
    Holds l' (update c q (us ++ vs)) := by
  have hl := h.listed q
  have hnd := h.nodup q
  have hmem : (Node.obj n : Node Q N) ∈ (c q).map Node.obj := by simp [hc]
  have hleft := mem_head (listed_prev_mem hl (mem_append_left _ hmem))
  have hright := mem_tail (listed_next_mem hl (mem_cons_of_mem _ hmem))
  rw [hc] at hl hnd
  obtain ⟨hn,hrest⟩ := nodup_cons.mp (nodup_middle.mp hnd)
  rw [map_append] at hl
  obtain ⟨hp,hx⟩ := listed_around hl
  apply h.relink
  · rw [hnext, hprev, hp, hx, map_append]
    exact listed_remove hl (by rw [← map_append]; exact nodes_nodup q hrest)
  · exact hrest
  · exact fun m hm q' hne hm' => hne (h.apart q' q m hm'
      (hc ▸ perm_middle.mem_iff.mpr (mem_cons_of_mem n hm)))
  · intro q' hne x hx
    rw [hnext, update_of_ne (h.foreign hne hleft (mem_head hx))]
  · intro q' hne x hx
    rw [hprev, update_of_ne (h.foreign hne hright (mem_tail hx))]

end Change

end Holds

section Operations

variable {Q N : Type} [DecidableEq Q] [DecidableEq N] {l : Links Q N} {c : Q → List N} {q : Q}
  {n : N} {ns : List N}

/-! Initialisation. -/

theorem initEmpty_next (q q' : Q) (l : Links Q N) : (lwpQueueInitEmpty q l).next (.head q') =
      if q' = q then .tail q else l.next (.head q') := by
  by_cases h : q' = q <;> simp [lwpQueueInitEmpty, setNext, setPrev, h]

theorem initEmpty_prev (q q' : Q) (l : Links Q N) : (lwpQueueInitEmpty q l).prev (.tail q') =
      if q' = q then .head q else l.prev (.tail q') := by
  by_cases h : q' = q <;> simp [lwpQueueInitEmpty, setNext, setPrev, h]

theorem initEmpty_holds (h : Holds l c) (q : Q) :
    Holds (lwpQueueInitEmpty q l) (update c q []) := by
  apply h.relink
  · refine isChain_cons_cons.mpr ⟨⟨?_,?_⟩,.singleton _⟩
    · simp [initEmpty_next]
    · simp [initEmpty_prev]
  · exact nodup_nil
  · simp
  · intro q' hne x hx
    have h1 := h.foreign hne (.inl rfl) (mem_head hx)
    have h2 := h.foreign hne (.inr (.inl rfl)) (mem_head hx)
    simp [lwpQueueInitEmpty, setNext, setPrev, h1, h2]
  · intro q' hne x hx
    have h1 := h.foreign hne (.inl rfl) (mem_tail hx)
    have h2 := h.foreign hne (.inr (.inl rfl)) (mem_tail hx)
    simp [lwpQueueInitEmpty, setNext, setPrev, h1, h2]

/-! Taking the first object. -/

theorem getI_empty (h : Holds l c) (hc : c q = []) : lwpQueueGetI q l = (.null,l) := by
  have hf := h.first q
  rw [hc] at hf
  simp [lwpQueueGetI, lwpQueueIsempty, hf]

theorem getI_first (h : Holds l c) (hc : c q = n::ns) :
    ∃ l', lwpQueueGetI q l = (.obj n,l') ∧ Holds l' (update c q ns) := by
  have hf := h.first q
  have hl := h.listed q
  rw [hc] at hf hl
  have hprev : l.prev (.obj n) = .head q := (@listed_around _ _ _ _ _ _ [] _ hl).1
  refine ⟨setPrev (l.next (.obj n)) (.head q) (setNext (.head q) (l.next (.obj n)) l),?_,?_⟩
  · simp [lwpQueueGetI, lwpQueueIsempty, lwpQueueFirstnodeI, hf]
  · have hc' : c q = [] ++ n::ns := hc
    rw [← hprev]
    exact h.remove hc' rfl rfl

theorem getI_holds (h : Holds l c) (q : Q) : (lwpQueueGetI q l).1 = ((c q).map .obj).headD .null ∧
    Holds (lwpQueueGetI q l).2 (update c q (c q).tail) := by
  cases hc : c q with
  | nil =>
    rw [getI_empty h hc]
    refine ⟨rfl,?_⟩
    rwa [tail_nil, ← hc, update_eq_self]
  | cons n ns =>
    obtain ⟨l',hg,h'⟩ := getI_first h hc
    rw [hg]
    exact ⟨rfl,h'⟩

/-! Appending an object. -/

theorem appendI_holds (h : Holds l c) (hn : ∀ q', n ∉ c q') :
    Holds (lwpQueueAppendI q (.obj n) l) (update c q (c q ++ [n])) := by
  have hc : c q = c q ++ [] := (append_nil (c q)).symm
  refine h.insert hc hn (h.last q) rfl rfl ?_
  exact update_comm (by simp) _ _ _

/-! Taking an object out. -/

theorem extractI_holds (h : Holds l c) (hn : n ∈ c q) :
    Holds (lwpQueueExtractI (.obj n) l) (update c q ((c q).erase n)) := by
  obtain ⟨us,vs,hc,hnu⟩ := eq_append_cons_of_mem hn
  have herase : (c q).erase n = us ++ vs := by
    rw [hc, erase_append_right _ hnu, erase_cons_head]
  rw [herase]
  exact h.remove hc rfl rfl

def scan (l : Links Q N) (q : Q) : ℕ → Node Q N → Option (List N)
  | 0, _ => none
  | k+1, x =>
    if x = .tail q then some []
    else
      match x with
      | .obj n => (scan l q k (l.next x)).map (List.cons n)
      | _ => none

theorem scan_linked {x : Node Q N} {k : ℕ} {ms : List N}
    (h : Linked l.next l.prev (x::(ns.map .obj ++ [.tail q])))
    (hs : scan l q k (l.next x) = some ms) : ms = ns := by
  induction ns generalizing x k ms with
  | nil =>
    have hx : l.next x = .tail q := (isChain_cons_cons.mp h).1.1
    cases k with
    | zero => exact absurd hs nofun
    | succ k =>
      simpa [hx, scan] using hs.symm
  | cons n ns ih =>
    obtain ⟨hx,htail⟩ := isChain_cons_cons.mp h
    cases k with
    | zero => exact absurd hs nofun
    | succ k =>
      rw [hx.1] at hs
      obtain ⟨ms,hms,rfl⟩ := Option.map_eq_some_iff.mp hs
      rw [ih htail hms]

/-- The neighbours that a node names have it as their neighbour, or have each
other. -/
def Detachable (l : Links Q N) (x : Node Q N) : Prop :=
  (l.next (l.prev x) = x ∨ l.next (l.prev x) = l.next x) ∧
    (l.prev (l.next x) = x ∨ l.prev (l.next x) = l.prev x)

instance (l : Links Q N) (x : Node Q N) : Decidable (Detachable l x) :=
  inferInstanceAs (Decidable (_ ∧ _))

/-- Taking out a node keeps the lists exactly if its neighbours, as far as they are in
queues, are each other's neighbours already. -/
theorem extractI_keeps_iff (h : Holds l c) (x : Node Q N) : Holds (lwpQueueExtractI x l) c ↔
      (∀ q, l.prev x ∈ Node.head q::(c q).map .obj → l.next (l.prev x) = l.next x) ∧
      ∀ q, l.next x ∈ (c q).map .obj ++ [Node.tail q] → l.prev (l.next x) = l.prev x := by
  have hnext : (lwpQueueExtractI x l).next = update l.next (l.prev x) (l.next x) := rfl
  have hprev : (lwpQueueExtractI x l).prev = update l.prev (l.next x) (l.prev x) := rfl
  constructor
  · intro h'
    constructor
    · intro q hm
      have he := (listed_agree (h.listed q) (h'.listed q)).1 _ hm
      rw [hnext, update_self] at he
      exact he.symm
    · intro q hm
      have he := (listed_agree (h.listed q) (h'.listed q)).2 _ hm
      rw [hprev, update_self] at he
      exact he.symm
  · rintro ⟨hn,hp⟩
    refine ⟨fun q => listed_congr (h.listed q) ?_ ?_,h.nodup,h.apart⟩
    · intro y hy
      rw [hnext]
      by_cases he : y = l.prev x
      · subst he
        rw [update_self, hn q hy]
      · exact update_of_ne he _ _
    · intro y hy
      rw [hprev]
      by_cases he : y = l.next x
      · subst he
        rw [update_self, hp q hy]
      · exact update_of_ne he _ _

theorem extractI_unqueued (h : Holds l c) (hn : ∀ q, n ∉ c q) (hd : Detachable l (.obj n)) :
    Holds (lwpQueueExtractI (.obj n) l) c := by
  refine (extractI_keeps_iff h _).mpr ⟨fun q hm => hd.1.resolve_left ?_,fun q hm =>
    hd.2.resolve_left ?_⟩
  · intro hback
    have hmem := listed_next_mem (h.listed q) hm
    rw [hback] at hmem
    exact absurd (by simpa using hmem) (hn q)
  · intro hback
    have hmem := listed_prev_mem (h.listed q) hm
    rw [hback] at hmem
    exact absurd (by simpa using hmem) (hn q)

/-! The functions in any order, beside the lists that the queues stand for. -/

inductive LinkCall (Q N : Type)
  | initEmpty (q : Q)
  | append (q : Q) (n : N)
  | get (q : Q)
  | extract (q : Q) (n : N)

def linkStep : LinkCall Q N → Links Q N × (Q → List N) → Option (Links Q N × (Q → List N))
  | .initEmpty q, (l,c) => some (lwpQueueInitEmpty q l,update c q [])
  | .append q n, (l,c) => some (lwpQueueAppendI q (.obj n) l,update c q (c q ++ [n]))
  | .get q, (l,c) => some ((lwpQueueGetI q l).2,update c q (c q).tail)
  | .extract q n, (l,c) => some (lwpQueueExtractI (.obj n) l,update c q ((c q).erase n))

def LinkOk : LinkCall Q N → Links Q N × (Q → List N) → Prop
  | .append _ n, s => ∀ q, n ∉ s.2 q
  | .extract q n, s => n ∈ s.2 q
  | _, _ => True

theorem queues_refine_lists {s : Links Q N × (Q → List N)} (h0 : Holds l c)
    (h : Reach linkStep LinkOk (l,c) s) :
    Holds s.1 s.2 ∧ ∀ q, (lwpQueueGetI q s.1).1 = ((s.2 q).map .obj).headD .null := by
  have hs : Holds s.1 s.2 := by
    refine reach_invariant (P := fun s => Holds s.1 s.2) h0 ?_ h
    rintro (q | ⟨q,n⟩ | q | ⟨q,n⟩) s _ ih hok ⟨⟩
    · exact initEmpty_holds ih q
    · exact appendI_holds ih hok
    · exact (getI_holds ih q).2
    · exact extractI_holds ih hok
  exact ⟨hs,fun q => (getI_holds hs q).1⟩

theorem queues_refine_lists_pair : (lwpQueueGetI () (lwpQueueAppendI () (.obj true)
    (lwpQueueAppendI () (.obj false)
      (⟨fun _ => .tail (),fun _ => .head ()⟩ : Links Unit Bool)))).1 = .obj false :=
  (queues_refine_lists (holds_of_empty fun _ => ⟨rfl,rfl⟩) (.step (a := .append () true)
    (.step (a := .append () false) .start nofun rfl) (by simp [LinkOk]) rfl)).2 ()

end Operations

end Libogc.Queue
