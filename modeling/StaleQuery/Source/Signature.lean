import StaleQuery.Source.Pattern

/-!
What stands around the body of a function: type parameters, parameters, the type of the result,
and decorators. Type arguments and argument lists are here as well, since all of these refer to
one another.
-/

namespace StaleQuery.Source

open Source.Parser

variable (self : Grammar)

/-- Items between angle brackets. A closing bracket may be the start of a longer symbol. -/
def angleList (item : Parser Tree) : Parser (List Tree) := do
  let rec loop : Nat → List Tree → Parser (List Tree)
    | 0, _ => failure
    | fuel + 1, items => do
      if ← isByte 62 then
        byte 62
        return items.reverse
      else
        let t ← item
        if ← accept "," then loop fuel (t :: items)
        else
          byte 62
          return (t :: items).reverse
  byte 60
  loop (← remaining) []

def typeArguments : Parser Tree := do
  let s ← start
  let types ← angleList (self .type)
  node "type_arguments" s types

def typeParameter : Parser Tree := do
  let s ← start
  let _ ← acceptWord "const"
  let _ ← acceptWord "in"
  if ← lookahead (do word "out"; name "type_identifier") then take
  let n ← name "type_identifier"
  let c ← start
  let constraint ← if ← acceptWord "extends" then
      let bound ← self .type
      pure [(← node "constraint" c [bound]).under "constraint"]
    else pure []
  let d ← start
  let fallback ← if ← accept "=" then
      let value ← self .type
      pure [(← node "default_type" d [value]).under "value"]
    else pure []
  node "type_parameter" s (n.under "name" :: constraint ++ fallback)

def typeParameters : Parser Tree := do
  let s ← start
  let items ← angleList (typeParameter self)
  node "type_parameters" s items

def typeParameters? : Parser (List Tree) := do
  if (← typed) && (← isByte 60) then return [(← typeParameters self).under "type_parameters"]
  else return []

def typeAnnotation : Parser Tree := do
  let s ← start
  symbol ":"
  let t ← self .type
  node "type_annotation" s [t]

/-- A type annotation under its field, in a dialect that has them. -/
def typeAnnotation? : Parser (List Tree) := do
  if (← typed) && (← isSymbol ":") then return [(← typeAnnotation self).under "type"]
  else return []

def predicateSubject : Parser Tree := do
  if ← isWord "this" then leaf "this" else identifier

/-- `x is T`. -/
def typePredicate : Parser Tree := do
  let s ← start
  let subject ← predicateSubject
  if ← newline then failure
  word "is"
  let t ← self .type
  node "type_predicate" s [subject.under "name", t.under "type"]

/-- `asserts x` and `asserts x is T`. -/
def assertion : Parser Tree := do
  let s ← start
  word "asserts"
  if ← newline then failure
  let inner ← typePredicate self <|> predicateSubject
  node "asserts" s [inner]

/-- The type of a result, which may also be a statement about an argument. -/
def resultType : Parser Tree :=
  assertion self <|> typePredicate self <|> self .type

def resultAnnotation? : Parser (List Tree) := do
  if (← typed) && (← isSymbol ":") then
    let s ← start
    symbol ":"
    let t ← resultType self
    let kind := match t.kind with
      | "asserts" => "asserts_annotation"
      | "type_predicate" => "type_predicate_annotation"
      | _ => "type_annotation"
    return [(← node kind s [t]).under "return_type"]
  else return []

def spread : Parser Tree := do
  let s ← start
  symbol "..."
  let e ← self (.expression true)
  node "spread_element" s [e]

def argument : Parser Tree := do
  if ← isSymbol "..." then spread self else self (.expression true)

def arguments : Parser Tree := do
  let s ← start
  symbol "("
  let items ← commaList ")" (argument self)
  node "arguments" s items

/-- `@name`, `@name.part`, `@name(…)` and `@(…)`. -/
def decorator : Parser Tree := do
  let s ← start
  symbol "@"
  let target ← if ← isSymbol "(" then parenthesized else applied
  node "decorator" s [target]
where
  parenthesized : Parser Tree := do
    let s ← start
    symbol "("
    let e ← self (.sequence true)
    symbol ")"
    node "parenthesized_expression" s [e]
  members (s : Nat) : Nat → Tree → Parser Tree
    | 0, _ => failure
    | fuel + 1, object => do
      if ← accept "." then
        let property ← anyWord "property_identifier"
        members s fuel
          (← node "member_expression" s [object.under "object", property.under "property"])
      else return object
  applied : Parser Tree := do
    let s ← start
    let target ← members s (← remaining) (← identifier)
    let types ← if (← typed) && (← isByte 60) then
        pure [(← typeArguments self).under "type_arguments"]
      else pure []
    if ← isSymbol "(" then
      let args ← arguments self
      node "call_expression" s (target.under "function" :: types ++ [args.under "arguments"])
    else return target

def decorators : Parser (List Tree) :=
  whileM (isSymbol "@") (return [(← decorator self).under "decorator"])

/-- A word in front of the name it modifies: taken only if a name or a pattern follows. -/
def modifier? (words : List String) : Parser (Option String) := do
  match ← token with
  | .word w =>
    if !words.contains w then return none
    let before ← lookahead do
      take
      match ← token with
      | .word _ | .privateName | .string | .number => return
      | .symbol "[" | .symbol "\x7b" | .symbol "*" => return
      | _ => failure
    return if before then some w else none
  | _ => return none

def accessWords : List String := ["public", "private", "protected"]

/-- Modifiers of a parameter or a member. Only those with a node of their own are kept. -/
def modifiers (words : List String) : Parser (List Tree) := do
  let rec loop : Nat → List Tree → Parser (List Tree)
    | 0, items => return items.reverse
    | fuel + 1, items => do
      match ← modifier? words with
      | none => return items.reverse
      | some w =>
        if accessWords.contains w then loop fuel ((← leaf "accessibility_modifier") :: items)
        else if w == "override" then loop fuel ((← leaf "override_modifier") :: items)
        else
          take
          loop fuel items
  loop (← remaining) []

def typedParameter : Parser Tree := do
  let s ← start
  let marks ← decorators self
  let access ← modifiers (accessWords ++ ["override", "readonly"])
  let target ← if ← isWord "this" then leaf "this" else self .pattern
  let optional ← accept "?"
  let type ← typeAnnotation? self
  let value ← initializer self true
  node (if optional then "optional_parameter" else "required_parameter") s
    (marks ++ access ++ target.under "pattern" :: type ++ value)

def parameter : Parser Tree := do
  if ← typed then typedParameter self
  else if ← isSymbol "..." then restPattern self
  else patternWithDefault self

def parameters : Parser Tree := do
  let s ← start
  symbol "("
  let items ← commaList ")" (parameter self)
  return (← node "formal_parameters" s items).under "parameters"

/-- Type parameters, parameters and the type of the result. -/
def signature : Parser (List Tree) := do
  let types ← typeParameters? self
  let params ← parameters self
  let result ← resultAnnotation? self
  return types ++ params :: result

end StaleQuery.Source
