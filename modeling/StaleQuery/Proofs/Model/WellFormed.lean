import StaleQuery.Model.Node

/-!
# Well-formed models

A model is well-formed when each place holds what belongs there: a declaration holds declarators, a
pattern and a literal hold entries of their own sort under plain keys, a handler is a catch clause,
and only an alternative, a handler or an initial value may be absent.
-/
namespace StaleQuery.Node

def IsKey : Node → Prop
  | identifier _ | sealed _ => True
  | _ => False

def IsDeclarator : Node → Prop
  | declarator .. => True
  | _ => False

/-- Entries stand nowhere but in their pattern or literal, so there is no rule for one alone. -/
inductive WellFormed : Node → Prop where
  | identifier (name) : WellFormed (identifier name)
  | sealed (kind) : WellFormed (sealed kind)
  | member {object property} :
      WellFormed object → WellFormed property → WellFormed (member object property)
  | call {callee arguments span} : WellFormed callee → (∀ a ∈ arguments, WellFormed a) →
      WellFormed (call callee arguments span)
  | await {argument} : WellFormed argument → WellFormed (await argument)
  | block {body} : (∀ s ∈ body, WellFormed s) → WellFormed (block body)
  | expressionStatement {e} : WellFormed e → WellFormed (expressionStatement e)
  | function {body} : WellFormed body → WellFormed (function body)
  | conditional {consequent} : WellFormed consequent → WellFormed (conditional consequent absent)
  | conditionalElse {consequent alternate} :
      WellFormed consequent → WellFormed alternate → WellFormed (conditional consequent alternate)
  | catchClause {body} : WellFormed body → WellFormed (catchClause body)
  | tryOnly {block} : WellFormed block → WellFormed (tryCatch block absent)
  | tryCatch {block body} : WellFormed block → WellFormed (catchClause body) →
      WellFormed (tryCatch block (catchClause body))
  | objectPattern {entries} :
      (∀ p ∈ entries, ∃ key value, p = patternProperty key value ∧ key.IsKey) →
      (∀ key value, patternProperty key value ∈ entries → WellFormed value) →
      WellFormed (objectPattern entries)
  | declaratorOnly {target} : WellFormed target → WellFormed (declarator target absent)
  | declarator {target init} :
      WellFormed target → WellFormed init → WellFormed (declarator target init)
  | declaration {declarators} : (∀ d ∈ declarators, d.IsDeclarator) →
      (∀ d ∈ declarators, WellFormed d) → WellFormed (declaration declarators)
  | object {entries} :
      (∀ p ∈ entries, ∃ key value span, p = property key value span ∧ key.IsKey) →
      (∀ key value span, property key value span ∈ entries → WellFormed value) →
      WellFormed (object entries)

end StaleQuery.Node
