import Mathlib.Data.List.Nodup
import StaleQuery.Rule.Lint

/-!
# The walk over a tree

A walk with a stack of pending nodes visits what a recursion over named children visits, in the same
order. Every place of a tree is visited once, and where nodes are laid out in their parents one after
the other the visit never goes back in the text.
-/
namespace StaleQuery

/-- The order of places in a text. -/
def Point.NotAfter (p q : Point) : Prop :=
  p.row < q.row ∨ (p.row = q.row ∧ p.column ≤ q.column)

instance (p q : Point) : Decidable (p.NotAfter q) :=
  inferInstanceAs (Decidable (_ < _ ∨ (_ = _ ∧ _ ≤ _)))

theorem Point.NotAfter.refl (p : Point) : p.NotAfter p := Or.inr ⟨rfl, Nat.le_refl _⟩

theorem Point.NotAfter.trans {p q r : Point} (h : p.NotAfter q) (k : q.NotAfter r) :
    p.NotAfter r := by
  unfold NotAfter at *
  omega

namespace Tree

theorem size_lt_of_mem_sizes {s : Tree} {list : List Tree} (h : s ∈ list) : s.size ≤ sizes list := by
  induction list with
  | nil => cases h
  | cons t rest ih =>
    rw [sizes_cons]
    rcases List.mem_cons.mp h with rfl | h
    · omega
    · have := ih h
      omega

theorem size_lt_of_mem_namedChildren {s t : Tree} (h : s ∈ t.namedChildren) : s.size < t.size :=
  Nat.lt_of_le_of_lt (size_lt_of_mem_sizes h) t.sizes_namedChildren_lt

/-- What passes from named children to their parent holds of every tree. -/
theorem induction_on_named {motive : Tree → Prop}
    (h : ∀ t, (∀ c ∈ t.namedChildren, motive c) → motive t) (t : Tree) : motive t :=
  h t fun c _ => induction_on_named h c
termination_by t.size
decreasing_by exact size_lt_of_mem_namedChildren ‹_›

/-- What the nodes of a tree give, each before those below it. -/
def gather {α : Type} (own : Tree → List α) (t : Tree) : List α :=
  own t ++ t.namedChildren.attach.flatMap fun c => gather own c.1
termination_by t.size
decreasing_by exact size_lt_of_mem_namedChildren c.2

theorem gather_eq {α : Type} (own : Tree → List α) (t : Tree) :
    t.gather own = own t ++ t.namedChildren.flatMap (gather own) := by
  rw [gather, List.flatMap_subtype (g := gather own) (by simp)]
  simp

/-- A stack of pending nodes is worked off as if each were gathered in its turn. -/
theorem collect_eq (kind : String) (stack found : List Tree) :
    collect kind stack found = found.reverse ++
      stack.flatMap (gather fun t => if t.kind == kind then [t] else []) := by
  induction stack, found using collect.induct kind with
  | case1 found => simp [collect]
  | case2 found t rest ih =>
    simp only [dite_eq_ite] at ih
    rw [collect, ih, List.flatMap_append, List.flatMap_cons, gather_eq]
    split <;> simp

/-- The node that positions among named children lead to. -/
def at? : List Nat → Tree → Option Tree
  | [], t => some t
  | i :: rest, t => t.namedChildren[i]?.bind (at? rest)

mutual
/-- Every node with the positions that lead to it, each before those below it. -/
def occurrences : Tree → List (List Nat × Tree)
  | node label children => ([], node label children) :: occurrencesFrom 0 children

/-- The same for a list of children, of which the named ones are counted from `i` on. -/
def occurrencesFrom (i : Nat) : List Tree → List (List Nat × Tree)
  | [] => []
  | t :: rest =>
    if t.named then t.occurrences.map (fun o => (i :: o.1, o.2)) ++ occurrencesFrom (i + 1) rest
    else occurrencesFrom i rest
end

theorem occurrencesFrom_eq (i : Nat) (children : List Tree) :
    occurrencesFrom i children = ((children.filter (·.named)).zipIdx i).flatMap fun c =>
      c.1.occurrences.map fun o => (c.2 :: o.1, o.2) := by
  induction children generalizing i with
  | nil => simp [occurrencesFrom]
  | cons t rest ih =>
    rw [occurrencesFrom]
    split <;> simp [*]

theorem occurrences_eq (t : Tree) :
    t.occurrences = ([], t) :: t.namedChildren.zipIdx.flatMap fun c =>
      c.1.occurrences.map fun o => (c.2 :: o.1, o.2) := by
  obtain ⟨label, children⟩ := t
  rw [occurrences, occurrencesFrom_eq]
  rfl

theorem mem_occurrences {t s : Tree} {p : List Nat} :
    (p, s) ∈ t.occurrences ↔ t.at? p = some s := by
  induction p generalizing t with
  | nil =>
    rw [occurrences_eq]
    simp [at?, eq_comm]
  | cons i rest ih =>
    rw [occurrences_eq]
    simp only [List.mem_cons, Prod.mk.injEq, reduceCtorEq, false_and, false_or, List.mem_flatMap,
      List.mem_map, Prod.exists, at?, Option.bind_eq_some_iff]
    constructor
    · rintro ⟨c, j, hc, q, u, hq, ⟨⟩, rfl⟩
      exact ⟨c, List.mem_zipIdx_iff_getElem?.mp hc, ih.mp hq⟩
    · rintro ⟨c, hc, hs⟩
      exact ⟨c, i, List.mem_zipIdx_iff_getElem?.mpr hc, rest, s, ih.mpr hs, rfl, rfl⟩

theorem nodup_positions (t : Tree) : (t.occurrences.map Prod.fst).Nodup := by
  induction t using induction_on_named with
  | h t ih =>
    rw [occurrences_eq, List.map_cons, List.nodup_cons, List.map_flatMap]
    refine ⟨by simp, List.nodup_flatMap.mpr ⟨fun c hc => ?_, ?_⟩⟩
    · have hmem : c.1 ∈ t.namedChildren := List.mem_of_getElem? (List.mem_zipIdx_iff_getElem?.mp hc)
      have hcons : Function.Injective (fun p : List Nat => c.2 :: p) := fun p q h => by simpa using h
      simpa [Function.comp_def] using (ih c.1 hmem).map hcons
    · -- places below different children differ in their first position
      have hidx : (t.namedChildren.zipIdx.map Prod.snd).Nodup := by
        simpa using List.nodup_range' (s := 0) (n := t.namedChildren.length)
      refine (List.pairwise_map.mp hidx).imp fun {c d} hne p hp hq => hne ?_
      simp only [List.map_map, List.mem_map] at hp hq
      obtain ⟨o, -, rfl⟩ := hp
      obtain ⟨u, -, hu⟩ := hq
      exact (by simpa using hu : d.2 = c.2 ∧ _).1.symm

/-- What is gathered over a tree is what its places give, one after the other. -/
theorem gather_eq_occurrences {α : Type} (own : Tree → List α) (t : Tree) :
    t.gather own = t.occurrences.flatMap fun o => own o.2 := by
  induction t using induction_on_named with
  | h t ih =>
    rw [gather_eq, occurrences_eq, List.flatMap_cons, List.flatMap_assoc]
    apply congrArg
    calc t.namedChildren.flatMap (gather own)
        = (t.namedChildren.zipIdx.map Prod.fst).flatMap (gather own) := by simp
      _ = t.namedChildren.zipIdx.flatMap fun c => gather own c.1 := List.flatMap_map ..
      _ = _ := List.flatMap_congr fun c hc => ?_
    have hmem : c.1 ∈ t.namedChildren := List.mem_of_getElem? (List.mem_zipIdx_iff_getElem?.mp hc)
    rw [ih c.1 hmem, List.flatMap_map]

theorem ofKind_eq (kind : String) (t : Tree) :
    t.ofKind kind = (t.occurrences.map Prod.snd).filter (·.kind == kind) := by
  rw [ofKind, collect_eq, List.reverse_nil, List.nil_append, List.flatMap_singleton,
    gather_eq_occurrences]
  induction t.occurrences with
  | nil => rfl
  | cons o rest ih =>
    rw [List.flatMap_cons, ih, List.map_cons, List.filter_cons]
    split <;> rfl

theorem occurs_below {t c : Tree} (hc : c ∈ t.namedChildren) {o : List Nat × Tree}
    (ho : o ∈ c.occurrences) : ∃ i, (i :: o.1, o.2) ∈ t.occurrences := by
  obtain ⟨i, hi⟩ := List.mem_iff_getElem?.mp hc
  refine ⟨i, mem_occurrences.mpr ?_⟩
  rw [at?, hi, Option.bind_some]
  exact mem_occurrences.mp ho

/-- A tree laid out over a text: a node lies within its parent and ends before the next begins. -/
def Laid (t : Tree) : Prop :=
  ∀ o ∈ t.occurrences, o.2.range.start.NotAfter o.2.range.stop ∧
    (∀ c ∈ o.2.namedChildren,
      o.2.range.start.NotAfter c.range.start ∧ c.range.stop.NotAfter o.2.range.stop) ∧
    o.2.namedChildren.Pairwise fun c d => c.range.stop.NotAfter d.range.start

instance (t : Tree) : Decidable t.Laid :=
  inferInstanceAs (Decidable (∀ o ∈ t.occurrences, _))

theorem Laid.below {t c : Tree} (h : t.Laid) (hc : c ∈ t.namedChildren) : c.Laid := by
  intro o ho
  obtain ⟨i, hi⟩ := occurs_below hc ho
  exact h (i :: o.1, o.2) hi

theorem Laid.here {t : Tree} (h : t.Laid) : t.range.start.NotAfter t.range.stop ∧
    (∀ c ∈ t.namedChildren,
      t.range.start.NotAfter c.range.start ∧ c.range.stop.NotAfter t.range.stop) ∧
    t.namedChildren.Pairwise fun c d => c.range.stop.NotAfter d.range.start :=
  h ([], t) (mem_occurrences.mpr rfl)

theorem Laid.start_within {t s : Tree} {p : List Nat} (h : t.Laid) (hs : t.at? p = some s) :
    t.range.start.NotAfter s.range.start ∧ s.range.start.NotAfter t.range.stop := by
  induction p generalizing t with
  | nil =>
    obtain rfl := Option.some.inj hs
    exact ⟨.refl _, h.here.1⟩
  | cons i rest ih =>
    obtain ⟨c, hc, hs⟩ := Option.bind_eq_some_iff.mp hs
    have hmem := List.mem_of_getElem? hc
    obtain ⟨hstart, hstop⟩ := ih (h.below hmem) hs
    obtain ⟨hfirst, hlast⟩ := h.here.2.1 c hmem
    exact ⟨hfirst.trans hstart, hstop.trans hlast⟩

/-- The visit never goes back in the text. -/
theorem Laid.visited_in_order {t : Tree} (h : t.Laid) : (t.occurrences.map Prod.snd).Pairwise
    fun a b => a.range.start.NotAfter b.range.start := by
  induction t using induction_on_named with
  | h t ih =>
    have below : ∀ c ∈ t.namedChildren.zipIdx, c.1 ∈ t.namedChildren := fun c hc =>
      List.mem_of_getElem? (List.mem_zipIdx_iff_getElem?.mp hc)
    have hidx : t.namedChildren.zipIdx.Pairwise
        (fun c d => c.1.range.stop.NotAfter d.1.range.start) := by
      have hseq := h.here.2.2
      rw [← List.zipIdx_map_fst 0 t.namedChildren] at hseq
      exact List.pairwise_map.mp hseq
    have hfirst : ∀ o ∈ t.occurrences, t.range.start.NotAfter o.2.range.start := fun o ho =>
      (h.start_within (mem_occurrences.mp ho)).1
    rw [occurrences_eq] at hfirst ⊢
    rw [List.map_cons, List.pairwise_cons, List.map_flatMap, List.pairwise_flatMap]
    refine ⟨fun s hs => ?_, fun c hc => ?_, ?_⟩
    · obtain ⟨o, ho, rfl⟩ := List.mem_map.mp (by rwa [← List.map_flatMap] at hs)
      exact hfirst o (List.mem_cons_of_mem _ ho)
    · have hmem := below c hc
      simpa [Function.comp_def] using ih c.1 hmem (h.below hmem)
    · -- what stands in one child starts before that child ends, and so before the next one starts
      refine hidx.imp_of_mem fun {c d} hc hd hcd a ha b hb => ?_
      obtain ⟨p, hp⟩ : ∃ p, (p, a) ∈ c.1.occurrences := by simpa [Function.comp_def] using ha
      obtain ⟨q, hq⟩ : ∃ q, (q, b) ∈ d.1.occurrences := by simpa [Function.comp_def] using hb
      have hlast := ((h.below (below c hc)).start_within (mem_occurrences.mp hp)).2
      have hnext := ((h.below (below d hd)).start_within (mem_occurrences.mp hq)).1
      exact (hlast.trans hcd).trans hnext

end Tree
end StaleQuery
