import StaleQuery.Tree.Basic
import StaleQuery.Model.Node

/-!
From concrete trees to the model. Parentheses vanish, an `else` clause stands for its statement,
comments are dropped, an optional chain is sealed as a whole and a tagged template is no call.
Descending more than `limit` levels gives no model at all.
-/

namespace StaleQuery

/-- The shapes a kind can stand for when a node is lowered on its own. -/
inductive Form where
  | identifier
  | parenthesized
  | member
  | subscript
  | call
  | await
  | block
  | expressionStatement
  | conditional
  | tryCatch
  | catchClause
  | declaration
  | declarator
  | objectPattern
  | object
  | function
  | other
  deriving DecidableEq, Repr

def Form.ofKind : String → Form
  | "identifier" | "property_identifier" | "shorthand_property_identifier"
  | "shorthand_property_identifier_pattern" => .identifier
  | "parenthesized_expression" => .parenthesized
  | "member_expression" => .member
  | "subscript_expression" => .subscript
  | "call_expression" => .call
  | "await_expression" => .await
  | "statement_block" => .block
  | "expression_statement" => .expressionStatement
  | "if_statement" => .conditional
  | "try_statement" => .tryCatch
  | "catch_clause" => .catchClause
  | "lexical_declaration" | "variable_declaration" => .declaration
  | "variable_declarator" => .declarator
  | "object_pattern" => .objectPattern
  | "object" => .object
  | "arrow_function" | "function_expression" | "function" | "generator_function" => .function
  | _ => .other

/-- The field through which a chain of members, subscripts and calls goes on. -/
def Form.spineField? : Form → Option String
  | .member | .subscript => some "object"
  | .call => some "function"
  | _ => none

namespace Tree

def form (t : Tree) : Form := Form.ofKind t.kind

def span (t : Tree) : Span :=
  ⟨t.range.start.row + 1, t.range.start.column + 1, t.range.stop.row + 1, t.range.stop.column + 1⟩

/-- Whether this link of a chain is written with `?.` as a node of its own. -/
def hasOptionalMark (t : Tree) : Bool :=
  t.children.any (·.kind == "optional_chain")

mutual
/-- Whether some link of the chain that ends here is optional. Parentheses end a chain. -/
def inOptionalChain : Tree → Bool
  | node label children =>
    match (Form.ofKind label.kind).spineField? with
    | none => false
    | some field => children.any (·.kind == "optional_chain") || spineInOptionalChain field children

/-- The same for the first node under `field`, where the chain goes on. -/
def spineInOptionalChain (field : String) : List Tree → Bool
  | [] => false
  | t :: rest => if t.field == some field then t.inOptionalChain else spineInOptionalChain field rest
end

end Tree

namespace Lowering

abbrev Lower := Tree → Option Node

/-- Property names, and a bare identifier in brackets, are keys by name; all other keys are
sealed. -/
def key : Option Tree → Node
  | none => .sealed "missing_key"
  | some t =>
    match t.kind with
    | "property_identifier" | "identifier" | "shorthand_property_identifier_pattern" =>
      .identifier t.text
    | "computed_property_name" =>
      match t.operand? with
      | some inner => if inner.kind = "identifier" then .identifier inner.text else .sealed t.kind
      | none => .sealed t.kind
    | kind => .sealed kind

def value (lower : Lower) : Option Tree → Option Node
  | none => some (.sealed "missing_value")
  | some t => lower t

def optional (lower : Lower) : Option Tree → Option Node
  | none => some .absent
  | some t => lower t

def access (lower : Lower) (t : Tree) (propertyField : String) : Option Node :=
  match t.child? "object", t.child? propertyField with
  | some object, some property => return .member (← lower object) (← lower property)
  | _, _ => some (.sealed t.kind)

def arguments (lower : Lower) : Option Tree → Option (List Node)
  | some list => if list.kind = "arguments" then list.operands.mapM lower else some []
  | none => some []

def call (lower : Lower) (t : Tree) : Option Node :=
  match t.child? "function" with
  | none => some (.sealed t.kind)
  | some callee =>
    let list := t.child? "arguments"
    if list.any (·.kind == "template_string") then some (.sealed "tagged_template_expression")
    else return .call (← lower callee) (← arguments lower list) t.span

def function (lower : Lower) (t : Tree) : Option Node :=
  match t.child? "body" with
  | none => some (.sealed t.kind)
  | some body => return .function (← lower body)

def wrap (lower : Lower) (t : Tree) (make : Node → Node) : Option Node :=
  match t.operand? with
  | none => some (.sealed t.kind)
  | some inner => return make (← lower inner)

/-- What stands after `else`, with or without the clause around it. -/
def alternative (t : Tree) : Option Tree :=
  match t.child? "alternative" with
  | none => none
  | some a => if a.kind = "else_clause" then a.operand? else some a

def conditional (lower : Lower) (t : Tree) : Option Node :=
  match t.child? "consequence" with
  | none => some (.sealed t.kind)
  | some consequence =>
    return .conditional (← lower consequence) (← optional lower (alternative t))

def catchClause (lower : Lower) (t : Tree) : Option Node :=
  match t.child? "body" with
  | none => some (.sealed t.kind)
  | some body => return .catchClause (← lower body)

/-- A handler without a body is no handler. -/
def handler (lower : Lower) : Option Tree → Option Node
  | none => some .absent
  | some t =>
    match t.child? "body" with
    | none => some .absent
    | some body => return .catchClause (← lower body)

def tryCatch (lower : Lower) (t : Tree) : Option Node :=
  match t.child? "body" with
  | none => some (.sealed t.kind)
  | some body => return .tryCatch (← lower body) (← handler lower (t.child? "handler"))

def declarator (lower : Lower) (t : Tree) : Option Node :=
  match t.child? "name" with
  | none => some (.sealed t.kind)
  | some target => return .declarator (← lower target) (← optional lower (t.child? "value"))

/-- Only declarators that name a target count. -/
def isDeclarator (t : Tree) : Bool :=
  t.kind == "variable_declarator" && (t.child? "name").isSome

def declaration (lower : Lower) (t : Tree) : Option Node :=
  return .declaration (← (t.operands.filter isDeclarator).mapM (declarator lower))

/-- The entry a child of a destructuring pattern stands for, if any. A default value hides the
name that it is bound to. -/
def patternEntry (lower : Lower) (t : Tree) : Option (Option Node) :=
  match t.kind with
  | "shorthand_property_identifier_pattern" =>
    some (some (.patternProperty (.identifier t.text) (.identifier t.text)))
  | "pair_pattern" =>
    return some (.patternProperty (key (t.child? "key")) (← value lower (t.child? "value")))
  | "object_assignment_pattern" =>
    some (some (.patternProperty (key (t.child? "left")) (.sealed t.kind)))
  | _ => some none

/-- The property a child of an object literal stands for, if any; a spread is none. -/
def objectEntry (lower : Lower) (t : Tree) : Option (Option Node) :=
  match t.kind with
  | "pair" =>
    return some (.property (key (t.child? "key")) (← value lower (t.child? "value")) t.span)
  | "shorthand_property_identifier" =>
    some (some (.property (.identifier t.text) (.identifier t.text) t.span))
  | "method_definition" =>
    return some (.property (key (t.child? "name")) (← function lower t) t.span)
  | _ => some none

def entries (entry : Tree → Option (Option Node)) (t : Tree) : Option (List Node) :=
  return (← t.operands.mapM entry).filterMap id

/-- One level of lowering, given how the next level is lowered. -/
def level (lower : Lower) (t : Tree) : Option Node :=
  if t.inOptionalChain then some (.sealed "chain_expression")
  else match t.form with
    | .identifier => some (.identifier t.text)
    | .parenthesized => wrap lower t id
    | .member => access lower t "property"
    | .subscript => access lower t "index"
    | .call => call lower t
    | .await => wrap lower t .await
    | .block => return .block (← t.operands.mapM lower)
    | .expressionStatement => wrap lower t .expressionStatement
    | .conditional => conditional lower t
    | .tryCatch => tryCatch lower t
    | .catchClause => catchClause lower t
    | .declaration => declaration lower t
    | .declarator => declarator lower t
    | .objectPattern => return .objectPattern (← entries (patternEntry lower) t)
    | .object => return .object (← entries (objectEntry lower) t)
    | .function => function lower t
    | .other => some (.sealed t.kind)

end Lowering

/-- How many levels lowering and searching descend before they give up. -/
def depthLimit : Nat := 400

namespace Tree

/-- The model of a tree, unless it takes more than `limit` levels. -/
def lower : Nat → Tree → Option Node
  | 0 => fun _ => none
  | limit + 1 => Lowering.level (lower limit)

/-- The model of a call looked at directly: its own place in an optional chain does not matter. -/
def lowerCallSite (limit : Nat) (t : Tree) : Option Node :=
  Lowering.call (lower limit) t

end Tree
end StaleQuery
