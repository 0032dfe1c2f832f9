import StaleQuery.Source.Statement

/-!
Imports and exports.
-/

namespace StaleQuery.Source

open Source.Parser

variable (self : Grammar)

/-- A name on the outer side of an import or an export. -/
def outerName : Parser Tree := do
  if (← token) == .string then Literal.string else anyWord "identifier"

/-- `from "x"`. -/
def fromClause : Parser (List Tree) := do
  word "from"
  return [(← Literal.string).under "source"]

def importAttribute : Parser (List Tree) := do
  let s ← start
  if ((← isWord "with") || (← isWord "assert")) && !(← newline) then
    take
    let o ← object self
    return [← node "import_attribute" s [o]]
  else return []

/-- `type` or `typeof` before a name that it modifies. -/
def typeMark : Parser Unit := do
  let marks ← lookahead do
    if !(← acceptWord "type") then word "typeof"
    match ← token with
    | .word "as" => if ← lookahead (do take; word "as") then return else failure
    | .word _ | .string => return
    | _ => failure
  if (← typed) && marks then take

def specifier (kind : String) : Parser Tree := do
  let s ← start
  typeMark
  let n ← outerName
  if ← acceptWord "as" then
    let renamed ← outerName
    node kind s [n.under "name", renamed.under "alias"]
  else node kind s [n.under "name"]

def specifiers (kind item : String) : Parser Tree := do
  let s ← start
  symbol "\x7b"
  let items ← commaList "\x7d" (specifier item)
  node kind s items

def namespaceImport : Parser Tree := do
  let s ← start
  symbol "*"
  word "as"
  let n ← identifier
  node "namespace_import" s [n]

def bindings : Parser Tree := do
  if ← isSymbol "*" then namespaceImport else specifiers "named_imports" "import_specifier"

def importClause : Parser Tree := do
  let s ← start
  match ← token with
  | .word _ =>
    let n ← identifier
    let rest ← if ← accept "," then pure [← bindings] else pure []
    node "import_clause" s (n :: rest)
  | _ =>
    let inner ← bindings
    node "import_clause" s [inner]

/-- `import x = require("y")`. -/
def requireClause : Parser Tree := do
  let s ← start
  let n ← identifier
  symbol "="
  word "require"
  symbol "("
  let source ← Literal.string
  symbol ")"
  node "import_require_clause" s [n, source.under "source"]

def importStatement : Parser Tree := do
  let s ← start
  word "import"
  let marked ← lookahead do
    if !(← acceptWord "type") then word "typeof"
    match ← token with
    | .word "from" => if ← lookahead (do take; word "from") then return else failure
    | .word _ | .symbol "\x7b" | .symbol "*" => return
    | _ => failure
  if (← typed) && marked then take
  let parts ← (do return [(← Literal.string).under "source"]) <|>
    (do return [← requireClause]) <|>
    (do
      let clause ← importClause
      return clause :: (← fromClause))
  let attributes ← importAttribute self
  semicolon
  node "import_statement" s (parts ++ attributes)

def exportAll : Parser (List Tree) := do
  let s ← start
  symbol "*"
  let names ← if ← acceptWord "as" then
      let n ← outerName
      pure [← node "namespace_export" s [n]]
    else pure []
  let source ← fromClause
  return names ++ source ++ (← importAttribute self)

def exportNames : Parser (List Tree) := do
  let clause ← specifiers "export_clause" "export_specifier"
  let source ← if ← isWord "from" then fromClause else pure []
  return clause :: source ++ (← importAttribute self)

/-- Whether a declaration, not an expression, follows `export default`. -/
def startsDeclaration : Parser Bool := do
  match ← token with
  | .word "function" | .word "class" => return true
  | .word "async" => asyncFunction
  | .word "abstract" => lookahead (do take; word "class")
  | .word "interface" => lookahead (do take; name "type_identifier")
  | .symbol "@" => return true
  | _ => return false

def exportDefault : Parser (List Tree) := do
  word "default"
  if ← startsDeclaration then return [(← self .statement).under "declaration"]
  let value ← self (.expression true)
  semicolon
  return [value.under "value"]

def exportStatement : Parser Tree := do
  let s ← start
  let marks ← decorators self
  word "export"
  let typed ← typed
  let parts ← match ← token with
    | .symbol "*" => do
      let parts ← exportAll self
      semicolon
      pure parts
    | .symbol "\x7b" => do
      let parts ← exportNames self
      semicolon
      pure parts
    | .word "default" => exportDefault self
    | .symbol "=" => do
      take
      let value ← self (.expression true)
      semicolon
      pure [value]
    | .word w => do
      if typed && w == "type" && (← lookahead (do take; symbol "\x7b")) then
        take
        let parts ← exportNames self
        semicolon
        pure parts
      else if typed && w == "type" && (← lookahead (do take; symbol "*")) then
        take
        let parts ← exportAll self
        semicolon
        pure parts
      else if typed && w == "as" && (← lookahead (do take; word "namespace")) then
        take
        take
        let n ← identifier
        semicolon
        pure [n]
      else pure [(← self .statement).under "declaration"]
    | .symbol "@" => pure [(← self .statement).under "declaration"]
    | _ => failure
  node "export_statement" s (marks ++ parts)

/-- A statement that begins with a decorator: a class, exported or not. -/
def decorated : Parser Tree := do
  let exporting ← lookahead do
    let _ ← decorators self
    word "export"
  if exporting then exportStatement self else classWith self "class_declaration"

def wordStatement (w : String) : Parser Tree := do
  match w with
  | "var" => declaredVariables self false
  | "const" => typedDeclaration self w <|> declaredVariables self false
  | "let" => if ← startsLet then declaredVariables self false else expressionStatement self
  | "function" => function self functionDeclaration (← typed)
  | "class" => classWith self "class_declaration"
  | "if" => ifStatement self
  | "for" => forStatement self
  | "while" => whileStatement self
  | "do" => doStatement self
  | "switch" => switchStatement self
  | "try" => tryStatement self
  | "with" => withStatement self
  | "break" => jumpStatement "break_statement"
  | "continue" => jumpStatement "continue_statement"
  | "return" => resultStatement self "return_statement"
  | "throw" => resultStatement self "throw_statement"
  | "debugger" => debuggerStatement
  | "export" => exportStatement self
  | "import" =>
    if ← lookahead (do take; if (← isSymbol "(") || (← isSymbol ".") then failure) then
      importStatement self <|> typedDeclaration self w
    else expressionStatement self
  | "async" =>
    if ← asyncFunction then function self functionDeclaration (← typed) else nameStatement
  | _ => nameStatement
where
  nameStatement : Parser Tree := do
    if ← lookahead (do let _ ← name "statement_identifier"; symbol ":") then labeledStatement self
    else typedDeclaration self w <|> expressionStatement self

def statement : Parser Tree := do
  match ← token with
  | .symbol "\x7b" => block self
  | .symbol ";" => emptyStatement
  | .symbol "@" => decorated self
  | .word w => wordStatement self w
  | _ => expressionStatement self

end StaleQuery.Source
