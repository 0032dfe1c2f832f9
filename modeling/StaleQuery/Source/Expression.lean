import StaleQuery.Source.Member

/-!
Expressions. Operators are read by precedence. In the typed dialects a call with type arguments
binds weaker than the unary and binary operators before it: its callee is the whole operator
expression to the left.
-/

namespace StaleQuery.Source

open Source.Parser

variable (self : Grammar)

/-! ### Primary expressions -/

def parenthesized : Parser Tree := do
  let s ← start
  symbol "("
  let e ← self (.sequence true)
  let type ← typeAnnotation? self
  symbol ")"
  node "parenthesized_expression" s (e :: type)

def array : Parser Tree := do
  let s ← start
  symbol "["
  let items ← commaList "]" (argument self)
  node "array" s items

/-- `new.target` and `import.meta`. -/
def metaProperty (head tail : String) : Parser Tree := do
  let s ← start
  word head
  symbol "."
  word tail
  node "meta_property" s []

def asyncFunction : Parser Bool :=
  lookahead do
    word "async"
    if ← newline then failure
    word "function"

def primaryWord (w : String) : Parser Tree := do
  match w with
  | "this" | "super" | "null" | "true" | "false" | "undefined" => leaf w
  | "function" => function self functionExpression false
  | "class" => classWith self "class"
  | "new" => self .construction
  | "import" => metaProperty "import" "meta" <|> leaf "import"
  | "async" => if ← asyncFunction then function self functionExpression false else identifier
  | _ => identifier

def primary : Parser Tree := do
  match ← token with
  | .word w => primaryWord self w
  | .number => Literal.number
  | .string => Literal.string
  | .template => Literal.template self
  | .privateName => leaf "private_property_identifier"
  | .symbol "(" => parenthesized self
  | .symbol "[" => array self
  | .symbol "\x7b" => object self
  | .symbol "/" | .symbol "/=" => Literal.regex
  | .symbol "@" => classWith self "class"
  | _ => failure

/-! ### Members, subscripts and calls -/

def memberName : Parser Tree := do
  if (← token) == .privateName then leaf "private_property_identifier"
  else anyWord "property_identifier"

/-- The link in hand, `?.`, as a node of its own. -/
def optionalMark : Parser Tree := do
  return (← leaf "optional_chain").under "optional_chain"

/-- `?.` before an argument list. The typed dialects do not give it a node of its own. -/
def optionalCallMark : Parser Tree := do
  if ← typed then
    match ← leaf "?." with
    | .node label children => return .node { label with named := false } children
  else optionalMark

def subscript (s : Nat) (object : Tree) (mark : List Tree) : Parser Tree := do
  symbol "["
  let index ← self (.sequence true)
  symbol "]"
  node "subscript_expression" s (object.under "object" :: mark ++ [index.under "index"])

def optionalCall (s : Nat) (callee : Tree) : Parser Tree := do
  let mark ← optionalCallMark
  let types ← if (← typed) && (← isByte 60) then
      pure [(← typeArguments self).under "type_arguments"]
    else pure []
  let args ← arguments self
  node "call_expression" s (callee.under "function" :: mark :: types ++ [args.under "arguments"])

/-- One more link after `object`, if one follows. -/
def link? (s : Nat) (calls : Bool) (object : Tree) : Parser (Option Tree) := do
  match ← token with
  | .symbol "." =>
    take
    let property ← memberName
    return some (← node "member_expression" s [object.under "object", property.under "property"])
  | .symbol "[" => return some (← subscript self s object [])
  | .template =>
    let text ← Literal.template self
    return some (← node "call_expression" s [object.under "function", text.under "arguments"])
  | .symbol "(" =>
    if !calls then return none
    let args ← arguments self
    return some (← node "call_expression" s [object.under "function", args.under "arguments"])
  | .symbol "?." =>
    if !calls then return none
    let call ← lookahead do
      take
      if (← isSymbol "(") || ((← typed) && (← isByte 60)) then return else failure
    if call then return some (← optionalCall self s object)
    let mark ← optionalMark
    if ← isSymbol "[" then return some (← subscript self s object [mark])
    let property ← memberName
    return some
      (← node "member_expression" s [object.under "object", mark, property.under "property"])
  | .symbol "!" =>
    if !(← typed) || (← newline) then return none
    take
    return some (← node "non_null_expression" s [object])
  | _ => return none

def links (s : Nat) (calls : Bool) : Nat → Tree → Parser Tree
  | 0, _ => failure
  | fuel + 1, object => do
    match ← link? self s calls object with
    | some longer => links s calls fuel longer
    | none => return object

def access : Parser Tree := do
  let s ← start
  let base ← primary self
  links self s true (← remaining) base

/-- `new` with the longest constructor that has no call in it. -/
def construction : Parser Tree := do
  metaProperty "new" "target" <|> do
    let s ← start
    word "new"
    let c ← start
    let base ← primary self
    let constructor ← links self c false (← remaining) base
    let types ← if (← typed) && (← isByte 60) then
        (do return [(← typeArguments self).under "type_arguments"]) <|> pure []
      else pure []
    let args ← if ← isSymbol "(" then pure [(← arguments self).under "arguments"] else pure []
    node "new_expression" s (constructor.under "constructor" :: types ++ args)

/-! ### Operators -/

def unarySymbols : List String := ["!", "~", "+", "-"]

def unaryWords : List String := ["typeof", "void", "delete"]

/-- Whether the token in hand can begin an operand. -/
def startsOperand : Parser Bool := do
  match ← token with
  | .word w => return !(["in", "of", "instanceof", "as", "satisfies"].contains w)
  | .number | .string | .template | .privateName => return true
  | .symbol s =>
    return ["(", "[", "\x7b", "/", "/=", "+", "-", "!", "~", "++", "--", "<", "@"].contains s
  | .eof => return false

def prefixed (kind field : String) : Parser Tree := do
  let s ← start
  take
  let operand ← self .unary
  node kind s [operand.under field]

def awaiting : Parser Tree := do
  let s ← start
  take
  let operand ← self .unary
  node "await_expression" s [operand]

/-- `<T>x`. -/
def typeAssertion : Parser Tree := do
  let s ← start
  let types ← typeArguments self
  let operand ← self .unary
  node "type_assertion" s [types, operand]

/-- An operand, with `++` or `--` after it on the same line. -/
def counted : Parser Tree := do
  let s ← start
  let operand ← access self
  if !(← newline) && ((← isSymbol "++") || (← isSymbol "--")) then
    take
    node "update_expression" s [operand.under "argument"]
  else return operand

def unary : Parser Tree := do
  match ← token with
  | .symbol s =>
    if unarySymbols.contains s then prefixed self "unary_expression" "argument"
    else if s == "++" || s == "--" then prefixed self "update_expression" "argument"
    else if s == "<" then
      if (← input).dialect.markup then self .element else typeAssertion self
    else counted self
  | .word w =>
    if unaryWords.contains w then prefixed self "unary_expression" "argument"
    else if w == "await" && (← lookahead (do take; if !(← startsOperand) then failure)) then
      awaiting self
    else counted self
  | _ => counted self

/-- How tightly a symbol binds its operands. -/
def symbolRank : String → Option Nat
  | "??" => some 1
  | "||" => some 2
  | "&&" => some 3
  | "|" => some 4
  | "^" => some 5
  | "&" => some 6
  | "==" | "!=" | "===" | "!==" => some 7
  | "<" | ">" | "<=" | ">=" => some 8
  | "<<" | ">>" | ">>>" => some 9
  | "+" | "-" => some 10
  | "*" | "/" | "%" => some 11
  | "**" => some 12
  | _ => none

def relationRank : Nat := 8

def operatorRank (allowIn : Bool) : Token → Option Nat
  | .symbol s => symbolRank s
  | .word "instanceof" => some relationRank
  | .word "in" => if allowIn then some relationRank else none
  | _ => none

/-- Type arguments with an argument list or a template after them. -/
def typedCall (s : Nat) (callee : Tree) : Parser Tree := do
  let types ← typeArguments self
  let args ← if (← token) == .template then Literal.template self else arguments self
  node "call_expression" s
    [callee.under "function", types.under "type_arguments", args.under "arguments"]

/-- Type arguments with nothing after them that could be an operand. -/
def instantiation (s : Nat) (callee : Tree) : Parser Tree := do
  let types ← typeArguments self
  if !(← newline) && (← startsOperand) then failure
  if (← isByte 62) || (← isByte 60) then failure
  node "instantiation_expression" s [callee, types.under "type_arguments"]

/-- `as T` and `satisfies T`. -/
def ascription? (s : Nat) (left : Tree) : Parser (Option Tree) := do
  if !(← typed) || (← newline) then return none
  let kind? := match ← token with
    | .word "as" => some "as_expression"
    | .word "satisfies" => some "satisfies_expression"
    | _ => none
  match kind? with
  | none => return none
  | some kind =>
    take
    if ← acceptWord "const" then return some (← node kind s [left])
    let t ← self .type
    return some (← node kind s [left, t])

/-- The rest of an operator expression after its first operand. Calls with type arguments are left
to the weakest level, where the whole expression is their callee. -/
def operatorTail (least : Nat) (allowIn : Bool) (s : Nat) : Nat → Tree → Parser Tree
  | 0, _ => failure
  | fuel + 1, left => do
    let angled ← if (← typed) && (← isByte 60) then applied? left else pure none
    match angled with
    | some t =>
      if least > 0 then return left
      operatorTail least allowIn s fuel (← links self s true (← remaining) t)
    | none =>
      match ← if least ≤ relationRank then ascription? self s left else pure none with
      | some t => operatorTail least allowIn s fuel t
      | none =>
        match operatorRank allowIn (← token) with
        | none => return left
        | some rank =>
          if rank < least then return left
          take
          let right ← self (.operators (if rank == 12 then rank else rank + 1) allowIn)
          operatorTail least allowIn s fuel
            (← node "binary_expression" s [left.under "left", right.under "right"])
where
  applied? (left : Tree) : Parser (Option Tree) := do
    let before ← cursor
    let applied ← (do return some (← typedCall self s left <|> instantiation self s left)) <|> pure none
    if least > 0 && applied.isSome then set before
    return applied

def operators (least : Nat) (allowIn : Bool) : Parser Tree := do
  let s ← start
  let first ← self .unary
  operatorTail self least allowIn s (← remaining) first

def conditional (allowIn : Bool) : Parser Tree := do
  let s ← start
  let condition ← operators self 0 allowIn
  if ← accept "?" then
    let branch : Parser Tree := do
      let e ← self (.expression true)
      symbol ":"
      return e
    let consequence ← branch <|> withReader (fun i => { i with resultTypes := false }) branch
    let alternative ← self (.expression allowIn)
    node "ternary_expression" s [condition.under "condition",
      consequence.under "consequence", alternative.under "alternative"]
  else return condition

/-! ### Functions, assignments and sequences -/

def arrowTail (s : Nat) (allowIn : Bool) (parts : List Tree) : Parser Tree := do
  symbol "=>"
  let body ← if ← isSymbol "\x7b" then self .block else self (.expression allowIn)
  node "arrow_function" s (parts ++ [body.under "body"])

def arrowSignature : Parser (List Tree) := do
  let types ← typeParameters? self
  let params ← parameters self
  let result ← if (← input).resultTypes then resultAnnotation? self else pure []
  if !(← isSymbol "=>") then failure
  return types ++ params :: result

/-- A name directly before an arrow. -/
def soleParameter : Parser (List Tree) := do
  let n ← identifier
  if !(← isSymbol "=>") then failure
  return [n.under "parameter"]

def arrow (allowIn : Bool) : Parser Tree := do
  let s ← start
  let parts ← soleParameter <|> arrowSignature self
  arrowTail self s allowIn parts

def asyncArrow (allowIn : Bool) : Parser Tree := do
  let s ← start
  word "async"
  if ← newline then failure
  let parts ← soleParameter <|> arrowSignature self
  arrowTail self s allowIn parts

def yielding (allowIn : Bool) : Parser Tree := do
  let s ← start
  word "yield"
  if ← newline then node "yield_expression" s []
  else if ← accept "*" then
    let e ← self (.expression allowIn)
    node "yield_expression" s [e]
  else if ← startsOperand then
    let e ← self (.expression allowIn)
    node "yield_expression" s [e]
  else node "yield_expression" s []

def augmentedSigns : List String :=
  ["+=", "-=", "*=", "/=", "%=", "^=", "&=", "|=", ">>=", ">>>=", "<<=", "**=", "&&=", "||=", "??="]

def assignment (allowIn : Bool) : Parser Tree := do
  let s ← start
  let left ← conditional self allowIn
  match ← token with
  | .symbol "=" =>
    take
    let right ← self (.expression allowIn)
    node "assignment_expression" s [(asPattern left).under "left", right.under "right"]
  | .symbol sign =>
    if augmentedSigns.contains sign then
      take
      let right ← self (.expression allowIn)
      node "augmented_assignment_expression" s [left.under "left", right.under "right"]
    else return left
  | _ => return left

def expression (allowIn : Bool) : Parser Tree := do
  match ← token with
  | .symbol "(" => arrow self allowIn <|> assignment self allowIn
  | .symbol "<" =>
    if ← typed then arrow self allowIn <|> assignment self allowIn else assignment self allowIn
  | .word "async" => asyncArrow self allowIn <|> arrow self allowIn <|> assignment self allowIn
  | .word "yield" => yielding self allowIn
  | .word _ =>
    if ← lookahead soleParameter then arrow self allowIn else assignment self allowIn
  | _ => assignment self allowIn

def sequence (allowIn : Bool) : Parser Tree := do
  let s ← start
  let first ← expression self allowIn
  if ← isSymbol "," then
    let rest ← whileM (accept ",") (return [← self (.expression allowIn)])
    node "sequence_expression" s (first :: rest)
  else return first

end StaleQuery.Source
