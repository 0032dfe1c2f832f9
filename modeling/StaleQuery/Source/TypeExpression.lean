import StaleQuery.Source.Signature

/-!
Type expressions of the typed dialects.
-/

namespace StaleQuery.Source

open Source.Parser

variable (self : Grammar)

def predefinedTypes : List String :=
  ["any", "number", "boolean", "string", "symbol", "void", "unknown", "never", "object"]

/-- `A.B.C` from its parts, the last one being the name of the type. -/
def qualifiedType (s : Nat) : Parser Tree := do
  let rec loop (s : Nat) : Nat → Tree → Parser Tree
    | 0, _ => failure
    | fuel + 1, path => do
      if !(← isSymbol ".") then failure
      take
      if ← lookahead (do let _ ← anyWord "type_identifier"; symbol ".") then
        let property ← anyWord "property_identifier"
        loop s fuel (← node "nested_identifier" s [path.under "object", property.under "property"])
      else
        let n ← anyWord "type_identifier"
        node "nested_type_identifier" s [path.under "module", n.under "name"]
  if ← lookahead (do let _ ← name "identifier"; symbol ".") then
    let first ← identifier
    loop s (← remaining) first
  else name "type_identifier"

/-- A named type with its arguments. -/
def withTypeArguments (s : Nat) (t : Tree) : Parser Tree := do
  if (← isByte 60) && !(← newline) then
    let args ← typeArguments self
    node "generic_type" s [t.under "name", args.under "type_arguments"]
  else return t

/-- `import("x")`, alone or at the head of a path. -/
def importCall : Parser Tree := do
  let s ← start
  if !(← isWord "import") then failure
  let callee ← leaf "import"
  let args ← arguments self
  node "call_expression" s [callee.under "function", args.under "arguments"]

def memberPath (s : Nat) : Nat → Tree → Parser Tree
  | 0, _ => failure
  | fuel + 1, object => do
    match ← token with
    | .symbol "." =>
      take
      let property ← if (← token) == .privateName then leaf "private_property_identifier"
        else anyWord "property_identifier"
      memberPath s fuel
        (← node "member_expression" s [object.under "object", property.under "property"])
    | .symbol "[" =>
      if ← newline then return object
      if !(← lookahead (do take; Literal.string <|> Literal.number)) then return object
      take
      let index ← Literal.string <|> Literal.number
      symbol "]"
      memberPath s fuel
        (← node "subscript_expression" s [object.under "object", index.under "index"])
    | _ => return object

/-- `typeof x.y`. -/
def typeQuery : Parser Tree := do
  let s ← start
  word "typeof"
  let p ← start
  let head ← importCall self <|> (do if ← isWord "this" then leaf "this" else failure) <|> identifier
  let path ← memberPath p (← remaining) head
  let path ← if (← isByte 60) && !(← newline) then
      let args ← typeArguments self
      node "instantiation_expression" p [path, args.under "type_arguments"]
    else pure path
  node "type_query" s [path]

/-- A sign before the optional mark or `readonly` of a mapped type. -/
def sign : Parser Bool := do
  if ← accept "-" then return true
  accept "+"

/-- The annotation after an index: `: T`, `?: T`, `-?: T`. -/
def indexAnnotation : Parser (List Tree) := do
  let s ← start
  let minus ← isSymbol "-"
  let signed ← sign
  let optional ← accept "?"
  if ← accept ":" then
    let t ← self .type
    let kind := if minus then "omitting_type_annotation"
      else if signed then "adding_type_annotation"
      else if optional then "opting_type_annotation" else "type_annotation"
    return [(← node kind s [t]).under "type"]
  else return []

/-- `[key: T]: U` and `[K in T]: U`. -/
def indexSignature : Parser Tree := do
  let s ← start
  let _ ← sign
  if (← isWord "readonly") then take
  symbol "["
  let m ← start
  let mapped ← lookahead (do let _ ← name "type_identifier"; word "in")
  let inner ← if mapped then
      let n ← name "type_identifier"
      word "in"
      let t ← self .type
      let renamed ← if ← acceptWord "as" then pure [(← self .type).under "alias"] else pure []
      pure [← node "mapped_type_clause" m (n.under "name" :: t.under "type" :: renamed)]
    else
      let n ← identifier
      symbol ":"
      let t ← self .type
      pure [n.under "name", t.under "index_type"]
  symbol "]"
  let annotation ← indexAnnotation self
  node "index_signature" s (inner ++ annotation)

/-- A method or a property of an object type. -/
def namedMember : Parser Tree := do
  let s ← start
  let marks ← modifiers (accessWords ++ ["static", "override", "readonly", "async", "get", "set"])
  let n ← propertyName self
  let _ ← accept "?"
  if (← isSymbol "(") || (← isByte 60) then
    let parts ← signature self
    node "method_signature" s (marks ++ n.under "name" :: parts)
  else
    let type ← typeAnnotation? self
    node "property_signature" s (marks ++ n.under "name" :: type)

def typeMember : Parser Tree := do
  let s ← start
  if (← isSymbol "(") || (← isByte 60) then
    let parts ← signature self
    node "call_signature" s parts
  else if ← lookahead (do word "new"; if !(← isSymbol "(") && !(← isByte 60) then failure) then
    take
    let types ← typeParameters? self
    let params ← parameters self
    let type ← typeAnnotation? self
    node "construct_signature" s (types ++ params :: type)
  else indexSignature self <|> namedMember self

/-- The members between braces, as a node of this kind. -/
def objectType (kind : String) : Parser Tree := do
  let s ← start
  symbol "\x7b"
  let members ← whileM (return !(← isSymbol "\x7d")) do
    if ← accept ";" then return []
    if ← accept "," then return []
    return [← typeMember self]
  symbol "\x7d"
  node kind s members

def tupleElement : Parser Tree := do
  let s ← start
  let labelled ← lookahead do
    let _ ← accept "..."
    let _ ← anyWord "identifier"
    let _ ← accept "?"
    symbol ":"
  if labelled then
    let r ← start
    let dots ← accept "..."
    let n ← anyWord "identifier"
    let n ← if dots then node "rest_pattern" r [n] else pure n
    let optional ← accept "?"
    let type ← typeAnnotation self
    node (if optional then "optional_parameter" else "required_parameter") s
      [n.under "name", type.under "type"]
  else if ← accept "..." then
    let t ← self .type
    node "rest_type" s [t]
  else
    let t ← self .type
    if ← accept "?" then node "optional_type" s [t] else return t

def literalType : Parser Tree := do
  let s ← start
  let value ← match ← token with
    | .string => Literal.string
    | .number => Literal.number
    | .word "true" => leaf "true"
    | .word "false" => leaf "false"
    | .word "null" => leaf "null"
    | .word "undefined" => leaf "undefined"
    | .symbol "-" | .symbol "+" => do
      take
      let n ← Literal.number
      node "unary_expression" s [n.under "argument"]
    | _ => failure
  node "literal_type" s [value]

/-- `unique symbol` and the one-word types. -/
def predefinedType : Parser Tree := do
  let s ← start
  if ← lookahead (do word "unique"; word "symbol") then
    take
    take
    node "predefined_type" s []
  else
    match ← token with
    | .word w =>
      if predefinedTypes.contains w && !(← lookahead (do take; symbol ".")) then
        leaf "predefined_type"
      else failure
    | _ => failure

def importType (s : Nat) : Parser Tree := do
  let call ← importCall self
  let path ← memberPath s (← remaining) call
  withTypeArguments self s path

def primaryType : Parser Tree := do
  let s ← start
  match ← token with
  | .symbol "(" =>
    take
    let t ← self .type
    symbol ")"
    node "parenthesized_type" s [t]
  | .symbol "\x7b" => objectType self "object_type"
  | .symbol "[" =>
    take
    let items ← commaList "]" (tupleElement self)
    node "tuple_type" s items
  | .template =>
    Literal.templateWith "template_literal_type" "string_fragment" "template_type" (self .type)
  | .symbol "*" => leaf "existential_type"
  | .word "this" => leaf "this_type"
  | .word "typeof" => typeQuery self
  | .word "import" => importType self s
  | _ =>
    literalType <|> predefinedType <|>
      (do let t ← qualifiedType s; withTypeArguments self s t)

/-- Array types and indexed types. -/
def suffixedType : Parser Tree := do
  let s ← start
  let rec loop (s : Nat) : Nat → Tree → Parser Tree
    | 0, t => return t
    | fuel + 1, t => do
      if (← isSymbol "[") && !(← newline) then
        take
        if ← accept "]" then loop s fuel (← node "array_type" s [t])
        else
          let index ← self .type
          symbol "]"
          loop s fuel (← node "lookup_type" s [t, index])
      else return t
  loop s (← remaining) (← primaryType self)

/-- `(x: T) => U`, with or without type parameters. -/
def functionType : Parser Tree := do
  let s ← start
  let types ← typeParameters? self
  let params ← parameters self
  symbol "=>"
  let result ← resultType self
  node "function_type" s (types ++ [params, result.under "return_type"])

def constructorType : Parser Tree := do
  let s ← start
  let _ ← acceptWord "abstract"
  word "new"
  let types ← typeParameters? self
  let params ← parameters self
  symbol "=>"
  let result ← self .type
  node "constructor_type" s (types ++ [params, result.under "type"])

/-- A type without operators. What follows the arrow of a function belongs to its result. -/
def baseType : Parser Tree := do
  match ← token with
  | .symbol "(" => functionType self <|> suffixedType self
  | .symbol "<" => functionType self
  | .word "new" => constructorType self
  | .word "abstract" => constructorType self <|> suffixedType self
  | _ => suffixedType self

/-- Whether the token in hand can begin a type. -/
def startsType : Parser Bool := do
  match ← token with
  | .word w => return !(["extends", "in", "is", "as"].contains w)
  | .string | .number | .template => return true
  | .symbol s => return ["(", "[", "\x7b", "<", "-"].contains s
  | _ => return false

/-- Types with an operator in front. -/
def operatorType : Parser Tree := do
  let rec loop : Nat → Parser Tree
    | 0 => failure
    | fuel + 1 => do
      let s ← start
      match ← token with
      | .word w =>
        let kind? := match w with
          | "keyof" => some "index_type_query"
          | "readonly" => some "readonly_type"
          | "infer" => some "infer_type"
          | _ => none
        match kind? with
        | some kind =>
          if ← lookahead (do take; if !(← startsType) then failure) then
            take
            let inner ← if kind == "infer_type" then inferred else pure [← loop fuel]
            node kind s inner
          else baseType self
        | none => baseType self
      | _ => baseType self
  loop (← remaining)
where
  inferred : Parser (List Tree) := do
    let n ← name "type_identifier"
    if ← acceptWord "extends" then return [n, ← self .type] else return [n]

/-- Types joined by `symbol`, which may also stand in front of the first. -/
def joinedType (sign kind : String) (part : Parser Tree) : Parser Tree := do
  let rec loop (s : Nat) : Nat → Tree → Parser Tree
    | 0, _ => failure
    | fuel + 1, left => do
      if ← accept sign then
        let right ← part
        loop s fuel (← node kind s [left, right])
      else return left
  let s ← start
  if ← accept sign then
    let first ← part
    loop s (← remaining) (← node kind s [first])
  else loop s (← remaining) (← part)

def unionType : Parser Tree :=
  joinedType "|" "union_type" (joinedType "&" "intersection_type" (operatorType self))

def conditionalTail (s : Nat) (left : Tree) : Parser Tree := do
  if ← newline then failure
  word "extends"
  let right ← unionType self
  symbol "?"
  let consequence ← self .type
  symbol ":"
  let alternative ← self .type
  node "conditional_type" s [left.under "left", right.under "right",
    consequence.under "consequence", alternative.under "alternative"]

def type : Parser Tree := do
  let s ← start
  let left ← unionType self
  if ← isWord "extends" then conditionalTail self s left <|> pure left else return left

end StaleQuery.Source
