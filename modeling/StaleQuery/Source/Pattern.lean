import StaleQuery.Source.Literal

/-!
Names of properties, binding patterns, and literals read again as patterns once an assignment
sign has shown them to be targets.
-/

namespace StaleQuery.Source

mutual
/-- The target that an expression stands for. Keys and default values stay as they are. -/
def asPattern : Tree → Tree
  | .node label children =>
    match label.kind with
    | "object" => .node { label with kind := "object_pattern" } (asPatterns children)
    | "array" => .node { label with kind := "array_pattern" } (asPatterns children)
    | "spread_element" => .node { label with kind := "rest_pattern" } (asPatterns children)
    | "pair" => .node { label with kind := "pair_pattern" } (valuesAsPattern children)
    | "assignment_expression" => .node { label with kind := "assignment_pattern" } children
    | "shorthand_property_identifier" =>
      .node { label with kind := "shorthand_property_identifier_pattern" } children
    | _ => .node label children

def asPatterns : List Tree → List Tree
  | [] => []
  | t :: rest => asPattern t :: asPatterns rest

def valuesAsPattern : List Tree → List Tree
  | [] => []
  | t :: rest => (if t.field == some "value" then asPattern t else t) :: valuesAsPattern rest
end

open Source.Parser

variable (self : Grammar)

def computedName : Parser Tree := do
  let s ← start
  symbol "["
  let e ← self (.expression true)
  symbol "]"
  node "computed_property_name" s [e]

def propertyName : Parser Tree := do
  match ← token with
  | .word _ => leaf "property_identifier"
  | .privateName => leaf "private_property_identifier"
  | .string => Literal.string
  | .number => Literal.number
  | .symbol "[" => computedName self
  | _ => failure

/-- An initial value after `=`, if there is one. -/
def initializer (allowIn : Bool) : Parser (List Tree) := do
  if ← accept "=" then return [(← self (.expression allowIn)).under "value"] else return []

/-- A pattern with an optional default, as it stands in a list of elements or as a value. -/
def patternWithDefault : Parser Tree := do
  let s ← start
  let target ← self .pattern
  if ← accept "=" then
    let value ← self (.expression true)
    node "assignment_pattern" s [target.under "left", value.under "right"]
  else return target

def restPattern : Parser Tree := do
  let s ← start
  symbol "..."
  let target ← self .pattern
  node "rest_pattern" s [target]

def patternEntry : Parser Tree := do
  if ← isSymbol "..." then restPattern self
  else
    let s ← start
    let bare ← lookahead do
      take
      if !(← isSymbol ":") then return else failure
    match ← nameText? with
    | some _ =>
      if bare then
        let n ← leaf "shorthand_property_identifier_pattern"
        if ← accept "=" then
          let value ← self (.expression true)
          node "object_assignment_pattern" s [n.under "left", value.under "right"]
        else return n
      else pair s
    | none => pair s
where
  pair (s : Nat) : Parser Tree := do
    let key ← propertyName self
    symbol ":"
    let value ← patternWithDefault self
    node "pair_pattern" s [key.under "key", value.under "value"]

/-- A binding: a name, or a pattern of bindings. -/
def pattern : Parser Tree := do
  let s ← start
  match ← token with
  | .symbol "\x7b" =>
    take
    let entries ← commaList "\x7d" (patternEntry self)
    node "object_pattern" s entries
  | .symbol "[" =>
    take
    let elements ← commaList "]" (patternElement)
    node "array_pattern" s elements
  | .symbol "..." => restPattern self
  | _ => valueName
where
  patternElement : Parser Tree := do
    if ← isSymbol "..." then restPattern self else patternWithDefault self

end StaleQuery.Source
