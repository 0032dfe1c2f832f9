import StaleQuery.Source.TypeExpression

/-!
Functions, classes and object literals.
-/

namespace StaleQuery.Source

open Source.Parser

variable (self : Grammar)

/-- Kinds of a function and of a generator. -/
structure FunctionKinds where
  plain : String
  generator : String

def functionExpression : FunctionKinds := ⟨"function_expression", "generator_function"⟩

def functionDeclaration : FunctionKinds :=
  ⟨"function_declaration", "generator_function_declaration"⟩

/-- A function with its keyword. Where bodies may be missing, one without is a signature. -/
def function (kinds : FunctionKinds) (bodiless : Bool) : Parser Tree := do
  let s ← start
  let _ ← acceptWord "async"
  word "function"
  let star ← accept "*"
  let n ← if (← nameText?).isSome then pure [(← identifier).under "name"] else pure []
  let parts ← signature self
  if ← isSymbol "\x7b" then
    let body ← self .block
    node (if star then kinds.generator else kinds.plain) s (n ++ parts ++ [body.under "body"])
  else
    if !bodiless then failure
    semicolon
    node "function_signature" s (n ++ parts)

/-- A method from its name on; modifiers have been read since `s`. -/
def method (s : Nat) (before : List Tree) (n : Tree) : Parser Tree := do
  let parts ← signature self
  let body ← self .block
  node "method_definition" s (before ++ n.under "name" :: parts ++ [body.under "body"])

/-! ### Objects -/

/-- A name alone, with or without a default value for when the literal turns out a pattern. -/
def shorthand : Parser Tree := do
  let s ← start
  if ← lookahead (do take; symbol "=") then
    let n ← name "shorthand_property_identifier_pattern"
    symbol "="
    let value ← self (.expression true)
    node "object_assignment_pattern" s [n.under "left", value.under "right"]
  else
    let n ← name "shorthand_property_identifier"
    if (← isSymbol ",") || (← isSymbol "\x7d") then return n else failure

def keyedEntry : Parser Tree := do
  let s ← start
  let _ ← modifiers ["async", "get", "set", "static"]
  let _ ← accept "*"
  let n ← propertyName self
  if ← accept ":" then
    let value ← self (.expression true)
    node "pair" s [n.under "key", value.under "value"]
  else method self s [] n

def objectEntry : Parser Tree := do
  match ← token with
  | .symbol "..." => spread self
  | .word _ => shorthand self <|> keyedEntry self
  | _ => keyedEntry self

def object : Parser Tree := do
  let s ← start
  symbol "\x7b"
  let entries ← commaList "\x7d" (objectEntry self)
  node "object" s entries

/-! ### Classes -/

def memberWords : List String :=
  accessWords ++ ["static", "override", "readonly", "abstract", "declare", "async", "get", "set",
    "accessor"]

def staticBlock : Parser Tree := do
  let s ← start
  word "static"
  if !(← isSymbol "\x7b") then failure
  let body ← self .block
  node "class_static_block" s [body.under "body"]

/-- The end of a member without a body. -/
def memberEnd : Parser Unit := do
  if ← accept "," then return
  semicolon

def classMember : Parser (List Tree) := do
  let typed ← typed
  let outer ← start
  let marks ← decorators self
  let inner ← start
  let s := if typed then inner else outer
  let abstractly ← lookahead do
    let _ ← modifiers accessWords
    let _ ← acceptWord "override"
    word "abstract"
    match ← token with
    | .word _ | .string | .symbol "[" => return
    | _ => failure
  let before ← modifiers memberWords
  let before := if typed then before else marks ++ before
  let after := if typed then marks else []
  let _ ← accept "*"
  let n ← propertyName self
  let _ ← accept "?"
  let _ ← if ← newline then pure false else accept "!"
  if (← isSymbol "(") || (typed && (← isByte 60)) then
    let parts ← signature self
    if ← isSymbol "\x7b" then
      let body ← self .block
      let m ← node "method_definition" s (before ++ n.under "name" :: parts ++ [body.under "body"])
      return after ++ [m]
    memberEnd
    let kind := if abstractly then "abstract_method_signature" else "method_signature"
    return after ++ [← node kind s (before ++ n.under "name" :: parts)]
  let type ← typeAnnotation? self
  let value ← initializer self true
  let field ← if typed then
      node "public_field_definition" outer (after ++ before ++ n.under "name" :: type ++ value)
    else node "field_definition" s (before ++ n.under "property" :: value)
  memberEnd
  return [field]

def indexMember : Parser (List Tree) := do
  if !(← typed) then failure
  let _ ← modifiers ["static"]
  let t ← indexSignature self
  memberEnd
  return [t]

def classBody : Parser Tree := do
  let s ← start
  symbol "\x7b"
  let members ← whileM (return !(← isSymbol "\x7d")) do
    if ← accept ";" then return []
    (do return [← staticBlock self]) <|> indexMember self <|> classMember self
  symbol "\x7d"
  node "class_body" s members

/-- The class after `extends`, with type arguments of its own or of a call. -/
def extended : Parser (List Tree) := do
  let s ← start
  let base ← self .access
  if ← isByte 60 then
    let types ← typeArguments self
    if ← isSymbol "(" then
      let args ← arguments self
      let call ← node "call_expression" s
        [base.under "function", types.under "type_arguments", args.under "arguments"]
      return [call.under "value"]
    return [base.under "value", types.under "type_arguments"]
  return [base.under "value"]

def typedHeritage : Parser (List Tree) := do
  let s ← start
  let e ← start
  let extending ← if ← acceptWord "extends" then
      let first ← extended self
      let rest ← whileM (accept ",") (extended self)
      pure [← node "extends_clause" e (first ++ rest)]
    else pure []
  let i ← start
  let implementing ← if ← acceptWord "implements" then
      let types ← commaList1 (self .type)
      pure [← node "implements_clause" i types]
    else pure []
  if extending.isEmpty && implementing.isEmpty then return []
  return [← node "class_heritage" s (extending ++ implementing)]

def heritage : Parser (List Tree) := do
  if ← typed then typedHeritage self
  else
    let s ← start
    if ← acceptWord "extends" then
      let base ← self .access
      return [← node "class_heritage" s [base]]
    else return []

/-- A class from its decorators on, as a node of this kind. -/
def classWith (kind : String) : Parser Tree := do
  let s ← start
  let marks ← decorators self
  let abstractly ← acceptWord "abstract"
  word "class"
  let n ← match ← nameText? with
    | some "implements" => pure []
    | some _ => pure [(← leaf (if ← typed then "type_identifier" else "identifier")).under "name"]
    | none => pure []
  let types ← typeParameters? self
  let parents ← heritage self
  let body ← classBody self
  node (if abstractly then "abstract_class_declaration" else kind) s
    (marks ++ n ++ types ++ parents ++ [body.under "body"])

end StaleQuery.Source
