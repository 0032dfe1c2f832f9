import StaleQuery.Source.Markup

/-!
Statements and declarations. A semicolon is understood before a closing brace, at the end of the
text and where a line ends.
-/

namespace StaleQuery.Source

open Source.Parser

variable (self : Grammar)

/-! ### Declarations of variables -/

def declarator (allowIn : Bool) : Parser Tree := do
  let s ← start
  let target ← self .pattern
  let _ ← if ← typed then accept "!" else pure false
  let type ← typeAnnotation? self
  let value ← initializer self allowIn
  node "variable_declarator" s (target.under "name" :: type ++ value)

def declarationKind (w : String) : String :=
  if w == "var" then "variable_declaration" else "lexical_declaration"

/-- A declaration with its semicolon; in the head of a loop the semicolon has to be written. -/
def declaredVariables (head : Bool) : Parser Tree := do
  let s ← start
  match ← token with
  | .word w =>
    take
    let items ← commaList1 (declarator self (!head))
    if head then symbol ";" else semicolon
    node (declarationKind w) s items
  | _ => failure

/-- `let` begins a declaration only before something that can be bound. -/
def startsLet : Parser Bool :=
  lookahead do
    word "let"
    match ← token with
    | .word w =>
      let operators := ["in", "instanceof"] ++ if ← typed then ["as", "satisfies"] else []
      if operators.contains w then failure
    | .symbol "[" | .symbol "\x7b" => return
    | _ => failure

/-! ### Control flow -/

def block : Parser Tree := do
  let s ← start
  symbol "\x7b"
  let body ← whileM (return !(← isSymbol "\x7d")) (return [← self .statement])
  symbol "\x7d"
  node "statement_block" s body

def condition : Parser Tree := do
  let s ← start
  symbol "("
  let e ← self (.sequence true)
  symbol ")"
  node "parenthesized_expression" s [e]

def ifStatement : Parser Tree := do
  let s ← start
  word "if"
  let test ← condition self
  let consequence ← self .statement
  let e ← start
  let alternative ← if ← acceptWord "else" then
      let body ← self .statement
      pure [(← node "else_clause" e [body]).under "alternative"]
    else pure []
  node "if_statement" s (test.under "condition" :: consequence.under "consequence" :: alternative)

def whileStatement : Parser Tree := do
  let s ← start
  word "while"
  let test ← condition self
  let body ← self .statement
  node "while_statement" s [test.under "condition", body.under "body"]

def doStatement : Parser Tree := do
  let s ← start
  word "do"
  let body ← self .statement
  word "while"
  let test ← condition self
  let _ ← accept ";"
  node "do_statement" s [body.under "body", test.under "condition"]

def withStatement : Parser Tree := do
  let s ← start
  word "with"
  let scope ← condition self
  let body ← self .statement
  node "with_statement" s [scope.under "object", body.under "body"]

/-- `in` or `of`, the iterated value, and the body of a loop. -/
def iteration (s : Nat) (before : List Tree) : Parser Tree := do
  if !(← acceptWord "of") then word "in"
  let right ← self (.sequence true)
  symbol ")"
  let body ← self .statement
  node "for_in_statement" s (before ++ [right.under "right", body.under "body"])

/-- `for (const x of xs)`. -/
def declaredIteration (s : Nat) : Parser Tree := do
  match ← token with
  | .word w => if ["var", "let", "const"].contains w then take else failure
  | _ => failure
  let target ← self .pattern
  let type ← typeAnnotation? self
  let value ← initializer self false
  iteration self s (target.under "left" :: type ++ value)

/-- `for (x.y of xs)`. -/
def assignedIteration (s : Nat) : Parser Tree := do
  let target ← self .access
  iteration self s [(asPattern target).under "left"]

def emptyStatement : Parser Tree := do
  let s ← start
  symbol ";"
  node "empty_statement" s []

def countedLoop (s : Nat) : Parser Tree := do
  let declares := (← isWord "var") || (← isWord "const") || (← startsLet)
  let first ← if ← isSymbol ";" then emptyStatement
    else if declares then declaredVariables self true
    else
      let e ← self (.sequence false)
      symbol ";"
      pure e
  let test ← if ← isSymbol ";" then emptyStatement
    else
      let e ← self (.sequence true)
      symbol ";"
      pure e
  let step ← if ← isSymbol ")" then pure [] else pure [(← self (.sequence true)).under "increment"]
  symbol ")"
  let body ← self .statement
  node "for_statement" s
    (first.under "initializer" :: test.under "condition" :: step ++ [body.under "body"])

def forStatement : Parser Tree := do
  let s ← start
  word "for"
  let _ ← acceptWord "await"
  symbol "("
  declaredIteration self s <|> assignedIteration self s <|> countedLoop self s

def switchClause : Parser Tree := do
  let s ← start
  let value ← if ← acceptWord "case" then pure [(← self (.sequence true)).under "value"]
    else do
      word "default"
      pure []
  symbol ":"
  let isEnd : Parser Bool := do
    return (← isSymbol "\x7d") || (← isWord "case") || (← isWord "default")
  let body ← whileM (return !(← isEnd)) (return [(← self .statement).under "body"])
  node (if value.isEmpty then "switch_default" else "switch_case") s (value ++ body)

def switchStatement : Parser Tree := do
  let s ← start
  word "switch"
  let value ← condition self
  let b ← start
  symbol "\x7b"
  let clauses ← whileM (return !(← isSymbol "\x7d")) (return [← switchClause self])
  symbol "\x7d"
  let body ← node "switch_body" b clauses
  node "switch_statement" s [value.under "value", body.under "body"]

def catchClause : Parser Tree := do
  let s ← start
  word "catch"
  let bound ← if ← accept "(" then
      let target ← self .pattern
      let type ← typeAnnotation? self
      symbol ")"
      pure (target.under "parameter" :: type)
    else pure []
  let body ← self .block
  node "catch_clause" s (bound ++ [body.under "body"])

def tryStatement : Parser Tree := do
  let s ← start
  word "try"
  let body ← self .block
  let handler ← if ← isWord "catch" then pure [(← catchClause self).under "handler"] else pure []
  let f ← start
  let finalizer ← if ← acceptWord "finally" then
      let last ← self .block
      pure [(← node "finally_clause" f [last.under "body"]).under "finalizer"]
    else pure []
  node "try_statement" s (body.under "body" :: handler ++ finalizer)

/-- Whether the statement ends here, with or without a semicolon. -/
def atEnd : Parser Bool := do
  let c ← cursor
  return c.newline || c.token == .symbol ";" || c.token == .symbol "\x7d" || c.token == .eof

/-- `break` and `continue`. -/
def jumpStatement (kind : String) : Parser Tree := do
  let s ← start
  take
  let label ← if ← atEnd then pure [] else pure [(← name "statement_identifier").under "label"]
  semicolon
  node kind s label

/-- `return` and `throw`. -/
def resultStatement (kind : String) : Parser Tree := do
  let s ← start
  take
  let value ← if ← atEnd then pure [] else pure [← self (.sequence true)]
  semicolon
  node kind s value

def debuggerStatement : Parser Tree := do
  let s ← start
  take
  semicolon
  node "debugger_statement" s []

def labeledStatement : Parser Tree := do
  let s ← start
  let label ← name "statement_identifier"
  symbol ":"
  let body ← self .statement
  node "labeled_statement" s [label.under "label", body.under "body"]

def expressionStatement : Parser Tree := do
  let s ← start
  let e ← self (.sequence true)
  semicolon
  node "expression_statement" s [e]

/-! ### Declarations of the typed dialects -/

def typeAlias : Parser Tree := do
  let s ← start
  word "type"
  if ← newline then failure
  let n ← name "type_identifier"
  let types ← typeParameters? self
  symbol "="
  let value ← self .type
  semicolon
  node "type_alias_declaration" s (n.under "name" :: types ++ [value.under "value"])

def interface : Parser Tree := do
  let s ← start
  word "interface"
  if ← newline then failure
  let n ← name "type_identifier"
  let types ← typeParameters? self
  let e ← start
  let parents ← if ← acceptWord "extends" then
      let items ← commaList1 (self .type)
      pure [← node "extends_type_clause" e (items.map (·.under "type"))]
    else pure []
  let body ← objectType self "interface_body"
  node "interface_declaration" s (n.under "name" :: types ++ parents ++ [body.under "body"])

def enumMember : Parser Tree := do
  let s ← start
  let n ← propertyName self
  if ← accept "=" then
    let value ← self (.expression true)
    node "enum_assignment" s [n.under "name", value.under "value"]
  else return n.under "name"

def enum : Parser Tree := do
  let s ← start
  let _ ← acceptWord "const"
  word "enum"
  let n ← identifier
  let b ← start
  symbol "\x7b"
  let members ← commaList "\x7d" (enumMember self)
  let body ← node "enum_body" b members
  node "enum_declaration" s [n.under "name", body.under "body"]

def moduleName : Parser Tree := do
  if (← token) == .string then Literal.string
  else
    let s ← start
    let rec loop (s : Nat) : Nat → Tree → Parser Tree
      | 0, _ => failure
      | fuel + 1, path => do
        if ← accept "." then
          let property ← anyWord "property_identifier"
          loop s fuel
            (← node "nested_identifier" s [path.under "object", property.under "property"])
        else return path
    loop s (← remaining) (← identifier)

/-- `namespace N { … }` and `module N { … }`. -/
def namespaceDeclaration : Parser Tree := do
  let s ← start
  let inner ← isWord "namespace"
  if inner then take else word "module"
  if ← newline then failure
  let n ← moduleName
  let body ← if ← isSymbol "\x7b" then pure [(← self .block).under "body"]
    else do
      semicolon
      pure []
  node (if inner then "internal_module" else "module") s (n.under "name" :: body)

def ambient : Parser Tree := do
  let s ← start
  word "declare"
  if ← newline then failure
  if ← lookahead (do word "global"; symbol "\x7b") then
    take
    let body ← self .block
    node "ambient_declaration" s [body]
  else
    let inner ← self .statement
    if inner.kind == "expression_statement" || inner.kind == "labeled_statement" then failure
    node "ambient_declaration" s [inner]

/-- `import a = b.c`. -/
def importAlias : Parser Tree := do
  let s ← start
  word "import"
  let n ← identifier
  symbol "="
  let path ← moduleName
  semicolon
  node "import_alias" s [n, path]

/-- Declarations that only a typed dialect has. Their first words are names elsewhere. -/
def typedDeclaration (w : String) : Parser Tree := do
  if !(← typed) then failure
  match w with
  | "type" => typeAlias self
  | "interface" => interface self
  | "enum" => enum self
  | "const" => enum self
  | "namespace" | "module" => namespaceDeclaration self
  | "declare" => ambient self
  | "abstract" =>
    if ← lookahead (do word "abstract"; word "class") then classWith self "class_declaration"
    else failure
  | "import" => importAlias
  | _ => failure

end StaleQuery.Source
