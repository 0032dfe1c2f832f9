import StaleQuery.Proofs.Model.Provenance
import StaleQuery.Proofs.Rule.CallSites

/-!
# Lowered models never break a check

Lowering takes any tree, with fields missing and nodes of any kind in any place. In what it gives, each
node holds in each place what belongs there, and so neither a search nor a check ever meets a node
without the field that it reads.
-/
namespace StaleQuery

namespace Node

/-- Neither nothing nor an entry of a pattern or literal. -/
def Plain (n : Node) : Prop := n ≠ absent ∧ n.entry? = none

/-- What the places right below a node hold. Nodes that have no rule of their own hold plain nodes
only. -/
def InPlace : Node → Prop
  | declaration list => ∀ d ∈ list, d.IsDeclarator
  | tryCatch body handler => body.Plain ∧ (handler = absent ∨ ∃ inner, handler = catchClause inner)
  | conditional consequent alternate => consequent.Plain ∧ (alternate = absent ∨ alternate.Plain)
  | declarator target init => target.Plain ∧ (init = absent ∨ init.Plain)
  | objectPattern list => ∀ p ∈ list, ∃ key value, p = patternProperty key value ∧ key.IsKey
  | object list => ∀ p ∈ list, ∃ key value span, p = property key value span ∧ key.IsKey
  | n => ∀ p ∈ n.parts, p.Plain

/-- All that can occur in a well-formed node. -/
inductive Placed : Node → Prop where
  | absent : Placed absent
  | wellFormed {n} : WellFormed n → Placed n
  | patternEntry {key value} : key.IsKey → value.WellFormed → Placed (patternProperty key value)
  | literalEntry {key value span} : key.IsKey → value.WellFormed → Placed (property key value span)

variable {n m : Node}

theorem WellFormed.plain (h : n.WellFormed) : n.Plain := by
  cases h <;> exact ⟨by simp, rfl⟩

theorem IsKey.wellFormed (h : n.IsKey) : n.WellFormed := by
  cases n with
  | identifier name => exact .identifier name
  | «sealed» kind => exact .sealed kind
  | _ => cases h

theorem WellFormed.parts (h : n.WellFormed) : ∀ m ∈ n.parts, m.Placed := by
  intro m hm
  cases h with
  | identifier | «sealed» => cases hm
  | await h | expressionStatement h | function h | catchClause h =>
    obtain rfl := List.mem_singleton.mp hm
    exact .wellFormed h
  | block h | declaration _ h => exact .wellFormed (h m hm)
  | call h ha =>
    rcases List.mem_cons.mp hm with rfl | hm
    · exact .wellFormed h
    · exact .wellFormed (ha m hm)
  | conditional h | tryOnly h | declaratorOnly h =>
    rcases List.mem_cons.mp hm with rfl | hm
    · exact .wellFormed h
    · obtain rfl := List.mem_singleton.mp hm
      exact .absent
  | member h k | conditionalElse h k | tryCatch h k | declarator h k =>
    rcases List.mem_cons.mp hm with rfl | hm
    · exact .wellFormed h
    · obtain rfl := List.mem_singleton.mp hm
      exact .wellFormed k
  | objectPattern hentries hvalues =>
    obtain ⟨key, value, rfl, hkey⟩ := hentries m hm
    exact .patternEntry hkey (hvalues key value hm)
  | object hentries hvalues =>
    obtain ⟨key, value, span, rfl, hkey⟩ := hentries m hm
    exact .literalEntry hkey (hvalues key value span hm)

theorem Placed.parts (h : n.Placed) : ∀ m ∈ n.parts, m.Placed := by
  intro m hm
  cases h with
  | absent => cases hm
  | wellFormed h => exact h.parts m hm
  | patternEntry hkey hvalue | literalEntry hkey hvalue =>
    rcases List.mem_cons.mp hm with rfl | hm
    · exact .wellFormed hkey.wellFormed
    · obtain rfl := List.mem_singleton.mp hm
      exact .wellFormed hvalue

theorem Placed.occurs (h : n.Placed) (hm : m.Occurs n) : m.Placed := by
  induction hm with
  | here => exact h
  | inside hp _ ih => exact ih (h.parts _ hp)

theorem WellFormed.inPlace (h : n.WellFormed) : n.InPlace := by
  cases h with
  | identifier | «sealed» => simp [InPlace, Node.parts]
  | await h | expressionStatement h | function h | catchClause h =>
    simpa [InPlace, Node.parts] using h.plain
  | member h k => simpa [InPlace, Node.parts] using ⟨h.plain, k.plain⟩
  | block h => exact fun s hs => (h s hs).plain
  | call h ha =>
    intro p hp
    rcases List.mem_cons.mp hp with rfl | hp
    · exact h.plain
    · exact (ha p hp).plain
  | conditional h => exact ⟨h.plain, Or.inl rfl⟩
  | conditionalElse h k => exact ⟨h.plain, Or.inr k.plain⟩
  | tryOnly h => exact ⟨h.plain, Or.inl rfl⟩
  | tryCatch h _ => exact ⟨h.plain, Or.inr ⟨_, rfl⟩⟩
  | declaratorOnly h => exact ⟨h.plain, Or.inl rfl⟩
  | declarator h k => exact ⟨h.plain, Or.inr k.plain⟩
  | declaration hd _ => exact hd
  | objectPattern hentries _ => exact hentries
  | object hentries _ => exact hentries

theorem Placed.inPlace (h : n.Placed) : n.InPlace := by
  cases h with
  | absent => simp [InPlace, Node.parts]
  | wellFormed h => exact h.inPlace
  | patternEntry hkey hvalue | literalEntry hkey hvalue =>
    simpa [InPlace, Node.parts] using ⟨hkey.wellFormed.plain, hvalue.plain⟩

end Node

theorem Node.Placed.isReachable_ok {n : Node} (h : n.Placed) (operation : String) (limit : Nat) :
    ∃ answer, isReachable limit operation n = .ok answer := by
  refine isReachable_ok_of Node.Placed ?_ ?_ h
  · exact fun n hn m hm => hn.parts m (n.searched_subset_parts m hm)
  · intro n aliases hn
    cases hn with
    | wellFormed hn => exact Search.enter_not_broken hn aliases
    | absent | patternEntry | literalEntry => trivial

/-- Whatever the tree, a model that is lowered from it, as a call site or not, holds in each place what
belongs there. Each node in it can be searched, each call in it can be checked, and what a check finds
has a place in the text; a call site gets its answer also where its model is no call. -/
theorem lowered_model_never_breaks {limit : Nat} {t : Tree} {n : Node}
    (h : t.lower limit = some n ∨ t.lowerCallSite limit = some n) :
    n.Plain ∧ (∀ m : Node, m.Occurs n → m.InPlace) ∧
    (∀ m : Node, m.Occurs n → ∀ depth operation,
      ∃ answer, isReachable depth operation m = .ok answer) ∧
    (∀ callee arguments span, (Node.call callee arguments span).Occurs n → ∀ (rule : Rule) depth,
      ∃ finding, rule.check depth (.call callee arguments span) = .ok finding ∧
        ∀ found, finding = some found → ∃ place, found.anchor.span? = .ok place) ∧
    ∀ (rule : Rule) depth, ∃ answer, rule.checkCallSite depth t = .ok answer := by
  have hw : n.WellFormed := h.elim Tree.lower_wellFormed Tree.lowerCallSite_wellFormed
  have placed : ∀ m : Node, m.Occurs n → m.Placed := fun m hm =>
    (Node.Placed.wellFormed hw).occurs hm
  refine ⟨hw.plain, fun m hm => (placed m hm).inPlace,
    fun m hm depth operation => (placed m hm).isReachable_ok operation depth,
    fun callee arguments span hm rule depth => ?_, fun rule depth => rule.checkCallSite_ok depth t⟩
  have hcall : (Node.call callee arguments span).WellFormed := by
    cases placed _ hm with
    | wellFormed hcall => exact hcall
  obtain ⟨finding, result, hfinding, hsays, -⟩ := rule.checks_of_wellFormed depth hcall
  refine ⟨finding, hfinding, fun found hfound => ?_⟩
  cases hsays with
  | nothing => cases hfound
  | place hspan =>
    obtain rfl := Option.some.inj hfound
    exact ⟨_, hspan⟩

/-- A registration with a property of nothing, a nameless declarator and a handler without a body. -/
def brokenSite : Tree :=
  bareSite 0 40 [lineNode "arguments" (some "arguments") 11 40 ""
    [lineNode "object" none 12 14 "" [lineNode "pair" none 12 13 "" []],
    lineNode "lexical_declaration" none 15 20 "" [lineNode "variable_declarator" none 15 20 "" []],
    lineNode "try_statement" none 21 30 "" [lineNode "statement_block" (some "body") 21 25 "" [],
      lineNode "ERROR" (some "handler") 26 30 "" []]]]

def brokenModel : Node :=
  .call (.identifier "useMutation")
    [.object [.property (.sealed "missing_key") (.sealed "missing_value") ⟨1, 13, 1, 14⟩],
    .declaration [], .tryCatch (.block []) .absent] ⟨1, 1, 1, 41⟩

theorem brokenSite_is_checked :
    brokenSite.lowerCallSite 2 = some brokenModel ∧ (∀ m : Node, m.Occurs brokenModel → m.InPlace) ∧
      ∃ finding, ({} : Rule).check 2 brokenModel = .ok finding := by
  have hlower : brokenSite.lowerCallSite 2 = some brokenModel := rfl
  obtain ⟨-, hplaces, -, hcheck, -⟩ := lowered_model_never_breaks (Or.inr hlower)
  obtain ⟨finding, hfinding, -⟩ := hcheck _ _ _ .here {} 2
  exact ⟨hlower, hplaces, finding, hfinding⟩

end StaleQuery
