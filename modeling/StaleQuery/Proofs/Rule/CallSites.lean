import StaleQuery.Proofs.Rule.Registration
import StaleQuery.Proofs.Tree.Walk

/-!
# Every call site on its own

The reports on a tree are those of its nodes, one after the other, and what a node contributes is
read off the subtree at that node. The order is that of the text in trees whose nodes do not overlap;
that siblings merely start one after the other is not enough.
-/
namespace StaleQuery

namespace Rule

variable (rule : Rule) (limit : Nat) (filePath : String)

/-- What a node contributes to the reports: nothing, unless it is a call spelled with the hook. -/
def own (t : Tree) : List Diagnostic :=
  if t.kind == "call_expression" && rule.namesHook t then
    match rule.checkCallSite limit t with
    | .ok (some (span, reason)) => [⟨filePath, span, reason⟩]
    | _ => []
  else []

/-- The reports on a tree by recursion: its own and then those of its named children. -/
def listing (t : Tree) : List Diagnostic :=
  t.gather (rule.own limit filePath)

theorem length_own_le (t : Tree) : (rule.own limit filePath t).length ≤ 1 := by
  simp only [own]
  repeat' split
  all_goals simp

variable {rule limit filePath}

theorem namesHook_iff {t : Tree} : rule.namesHook t = true ↔
    ∃ callee, t.child? "function" = some callee ∧ callee.kind = "identifier" ∧
      callee.text = rule.hook := by
  simp only [namesHook]
  split <;> simp_all

theorem hook_of_own_ne_nil {t : Tree} (h : rule.own limit filePath t ≠ []) :
    t.kind = "call_expression" ∧ rule.namesHook t = true := by
  simp only [own] at h
  split at h
  · rename_i hsite
    simpa using hsite
  · exact absurd rfl h

theorem own_of_site {t : Tree} (hk : t.kind = "call_expression") (hh : rule.namesHook t = true)
    {result : Option (Span × Reason)} (hc : rule.checkCallSite limit t = .ok result) :
    rule.own limit filePath t =
      result.toList.map fun found => ⟨filePath, found.1, found.2⟩ := by
  simp only [own, hk, hh, hc]
  cases result <;> rfl

theorem mapM_ok {α β ε : Type} {f : α → Except ε β} {g : α → β} {l : List α}
    (h : ∀ a ∈ l, f a = .ok (g a)) : l.mapM f = .ok (l.map g) := by
  induction l with
  | nil => rfl
  | cons a l ih =>
    rw [List.mapM_cons, h a List.mem_cons_self, ih fun b hb => h b (List.mem_cons_of_mem _ hb)]
    rfl

/-- Checking never stops short, and it gives the reports of the recursion. -/
theorem checkTree_eq_ok (rule : Rule) (limit : Nat) (filePath : String) (t : Tree) :
    rule.checkTree limit filePath t = .ok (rule.listing limit filePath t) := by
  choose result hresult using rule.checkCallSite_ok limit
  simp only [checkTree, Tree.calls, mapM_ok fun s _ => hresult s, Tree.ofKind_eq, listing,
    Tree.gather_eq_occurrences, bind, Except.bind, pure, Except.pure, Except.ok.injEq]
  induction t.occurrences with
  | nil => rfl
  | cons o rest ih =>
    rw [List.flatMap_cons, ← ih, List.map_cons, List.filter_cons]
    by_cases hsite : o.2.kind = "call_expression" ∧ rule.namesHook o.2 = true
    · rw [own_of_site hsite.1 hsite.2 (hresult o.2)]
      cases hr : result o.2 <;> simp [hsite, hr]
    · have hown : rule.own limit filePath o.2 = [] := by
        by_contra hne
        exact hsite (hook_of_own_ne_nil hne)
      rw [hown]
      split <;> simp_all

end Rule

open Rule in
/-- The reports on a tree are those of the recursion over named children. A node contributes at most
one, and only if it is a call spelled with the hook; every place of the tree is checked once, and in
the order of the text if its nodes are laid out one after the other. -/
theorem reports_by_recursion (rule : Rule) (limit : Nat) (filePath : String) (t : Tree) :
    rule.checkTree limit filePath t = .ok (rule.listing limit filePath t) ∧
    (∀ s, rule.listing limit filePath s =
      rule.own limit filePath s ++ s.namedChildren.flatMap (rule.listing limit filePath)) ∧
    (∀ s, (rule.own limit filePath s).length ≤ 1) ∧
    (∀ s, rule.own limit filePath s ≠ [] → s.kind = "call_expression" ∧
      ∃ callee, s.child? "function" = some callee ∧ callee.kind = "identifier" ∧
        callee.text = rule.hook) ∧
    rule.listing limit filePath t = t.occurrences.flatMap (fun o => rule.own limit filePath o.2) ∧
    (t.occurrences.map Prod.fst).Nodup ∧
    (∀ p s, (p, s) ∈ t.occurrences ↔ t.at? p = some s) ∧
    (t.Laid → t.calls.Pairwise fun a b => a.range.start.NotAfter b.range.start) := by
  refine ⟨checkTree_eq_ok rule limit filePath t, fun s => Tree.gather_eq _ s,
    fun s => length_own_le rule limit filePath s, fun s h => ?_, Tree.gather_eq_occurrences _ t,
    t.nodup_positions, fun p s => Tree.mem_occurrences, fun h => ?_⟩
  · obtain ⟨hk, hh⟩ := hook_of_own_ne_nil h
    exact ⟨hk, namesHook_iff.mp hh⟩
  · rw [Tree.calls, Tree.ofKind_eq]
    exact h.visited_in_order.filter _

/-- A node on one line. -/
def lineNode (kind : String) (field : Option String) (start stop : Nat) (text : String)
    (children : List Tree) : Tree :=
  .node ⟨kind, field, true, ⟨⟨0, start⟩, ⟨0, stop⟩⟩, text⟩ children

/-- A call of the hook with further nodes below it. -/
def bareSite (start stop : Nat) (below : List Tree) : Tree :=
  lineNode "call_expression" none start stop ""
    (lineNode "identifier" (some "function") start (start + 2) "useMutation" [] :: below)

/-- A call that holds another, and a third behind them. -/
def nested : Tree :=
  lineNode "program" none 0 30 "" [bareSite 0 20 [bareSite 10 20 []], bareSite 20 30 []]

theorem nested_reported_in_order :
    nested.Laid ∧ ({} : Rule).checkTree 400 "a.js" nested =
      .ok (({} : Rule).listing 400 "a.js" nested) ∧
    nested.calls.Pairwise fun a b => a.range.start.NotAfter b.range.start := by
  have hl : nested.Laid := by decide
  have h := reports_by_recursion {} 400 "a.js" nested
  exact ⟨hl, h.1, h.2.2.2.2.2.2.2 hl⟩

/-- Children start no earlier than their parent, and siblings start one after the other. -/
def StartsInOrder (t : Tree) : Prop :=
  ∀ o ∈ t.occurrences, (∀ c ∈ o.2.children, o.2.range.start.NotAfter c.range.start) ∧
    o.2.children.Pairwise fun c d => c.range.start.NotAfter d.range.start

instance (t : Tree) : Decidable (StartsInOrder t) :=
  inferInstanceAs (Decidable (∀ o ∈ t.occurrences, _))

/-- Two calls of which the first ends after the second has begun and holds a third. -/
def overlapping : Tree :=
  lineNode "program" none 0 30 "" [bareSite 0 20 [bareSite 10 20 []], bareSite 5 30 []]

/-- Starts in order do not make the visit go forward: the third call, below the first, is visited
before the second although it starts after it. -/
theorem overlapping_visited_backwards :
    StartsInOrder overlapping ∧
    ¬ overlapping.calls.Pairwise (fun a b => a.range.start.NotAfter b.range.start) ∧
    ({} : Rule).checkTree 400 "a.js" overlapping = .ok
      [⟨"a.js", ⟨1, 1, 1, 21⟩, .missingOptions⟩, ⟨"a.js", ⟨1, 11, 1, 21⟩, .missingOptions⟩,
        ⟨"a.js", ⟨1, 6, 1, 31⟩, .missingOptions⟩] := by
  refine ⟨by decide, ?_, ?_⟩
  · rw [Tree.calls, Tree.ofKind_eq]
    decide
  · rw [Rule.checkTree, Tree.calls, Tree.ofKind_eq]
    rfl

end StaleQuery
