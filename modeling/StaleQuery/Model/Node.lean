/-!
The part of a program that the analysis reads: calls, member accesses, declarations and the
statements it looks through. Whatever else a program holds is `sealed` under the name of its
kind and never opened.
-/

namespace StaleQuery

/-- A source location; lines and byte columns count from one. -/
structure Span where
  startLine : Nat
  startColumn : Nat
  endLine : Nat
  endColumn : Nat
  deriving DecidableEq, Repr, Inhabited

inductive Node where
  /-- No node: an alternative, a handler or an initial value that was not written. -/
  | absent
  | identifier (name : String)
  /-- `a.b` and `a[b]`; in the second the property is the index expression. -/
  | member (object property : Node)
  | call (callee : Node) (arguments : List Node) (span : Span)
  | await (argument : Node)
  | block (body : List Node)
  | expressionStatement (expression : Node)
  | function (body : Node)
  | conditional (consequent alternate : Node)
  | catchClause (body : Node)
  | tryCatch (block handler : Node)
  /-- One entry `key: value` of a destructuring pattern. -/
  | patternProperty (key value : Node)
  | objectPattern (properties : List Node)
  | declarator (target init : Node)
  | declaration (declarators : List Node)
  | property (key value : Node) (span : Span)
  | object (properties : List Node)
  | sealed (kind : String)
  deriving Repr, Inhabited

end StaleQuery
