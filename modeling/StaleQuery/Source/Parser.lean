import StaleQuery.Source.Token

/-!
Reading trees off a source text. The cursor stands between two tokens and has the next one in
hand. Comments that have been passed wait until a node around them is complete and become its
children, so a comment hangs from the smallest node that holds the tokens on both its sides.
-/

namespace StaleQuery.Source

structure Cursor where
  /-- End of the last token taken. -/
  last : Nat
  /-- Start and end of the token in hand. -/
  next : Nat
  stop : Nat
  token : Token
  /-- Whether a line ends between the last token and the one in hand. -/
  newline : Bool
  /-- Comments between the last token and the one in hand, the latest first. -/
  passed : List Tree
  /-- Comments before the last token that no node holds yet, the latest first. -/
  comments : List Tree

/-- The cursor with `last` at `i` and these comments waiting. -/
def Input.cursorAt (input : Input) (i : Nat) (comments : List Tree) : Cursor :=
  let gap := input.gap i
  let (token, stop) := tokenAt input.bytes gap.stop
  ⟨i, gap.stop, stop, token, gap.newline, gap.comments, comments⟩

abbrev Parser := ReaderT Input (StateT Cursor Option)

namespace Parser

def input : Parser Input := read

def cursor : Parser Cursor := get

def token : Parser Token := return (← get).token

def start : Parser Nat := return (← get).next

def newline : Parser Bool := return (← get).newline

def typed : Parser Bool := return (← read).dialect.typed

/-- An upper bound on the number of tokens to come. -/
def remaining : Parser Nat := return (← read).bytes.size - (← get).last + 1

/-- Moves past what is in hand up to `stop`. -/
def advance (stop : Nat) : Parser Unit := fun input cursor =>
  some ((), input.cursorAt stop (cursor.passed ++ cursor.comments))

/-- Moves to `stop` through text in which nothing is a comment. -/
def jump (stop : Nat) : Parser Unit := fun input cursor =>
  some ((), input.cursorAt stop cursor.comments)

def take : Parser Unit := do advance (← get).stop

def isSymbol (s : String) : Parser Bool := return (← get).token == .symbol s

def isWord (s : String) : Parser Bool := return (← get).token == .word s

def symbol (s : String) : Parser Unit := do
  if ← isSymbol s then take else failure

def word (s : String) : Parser Unit := do
  if ← isWord s then take else failure

def accept (s : String) : Parser Bool := do
  if ← isSymbol s then take; return true else return false

def acceptWord (s : String) : Parser Bool := do
  if ← isWord s then take; return true else return false

/-- Whether `p` would succeed here; nothing is taken. -/
def lookahead {α : Type} (p : Parser α) : Parser Bool := fun input cursor =>
  some ((p input cursor).isSome, cursor)

def insertComment (c : Tree) : List Tree → List Tree
  | [] => [c]
  | t :: rest =>
    let p := c.range.start
    let q := t.range.start
    if p.row < q.row || (p.row == q.row && p.column < q.column) then c :: t :: rest
    else t :: insertComment c rest

/-- The node from `start` to the last token taken. -/
def node (kind : String) (start : Nat) (children : List Tree) : Parser Tree := fun input cursor =>
  let p := input.point start
  let inside := fun (c : Tree) =>
    let q := c.range.start
    p.row < q.row || (p.row == q.row && p.column ≤ q.column)
  let (own, rest) := cursor.comments.span inside
  let children := own.foldl (fun children c => insertComment c children) children
  some (.node ⟨kind, none, true, ⟨p, input.point cursor.last⟩, ""⟩ children,
    { cursor with comments := rest })

/-- The token in hand as a node without children. -/
def leaf (kind : String) : Parser Tree := do
  let c ← get
  let input ← read
  take
  return input.leaf kind c.next c.stop (Utf8.slice input.bytes c.next c.stop)

/-- A single byte of the token in hand, for brackets that may stand side by side. -/
def byte (b : UInt8) : Parser Unit := do
  let next := (← get).next
  if byteAt (← read).bytes next == b then advance (next + 1) else failure

def isByte (b : UInt8) : Parser Bool := do
  return byteAt (← read).bytes (← get).next == b

/-- Items until `more` says no. -/
def whileM (more : Parser Bool) (item : Parser (List Tree)) : Parser (List Tree) := do
  let rec loop : Nat → List Tree → Parser (List Tree)
    | 0, _ => failure
    | fuel + 1, items => do
      if ← more then loop fuel ((← item).reverse ++ items) else return items.reverse
  loop (← remaining) []

/-- Items between commas up to the closing symbol; places between two commas may be empty. -/
def commaList (close : String) (item : Parser Tree) : Parser (List Tree) := do
  let rec loop : Nat → List Tree → Parser (List Tree)
    | 0, _ => failure
    | fuel + 1, items => do
      if ← accept close then return items.reverse
      if ← accept "," then loop fuel items
      else
        let t ← item
        if ← accept "," then loop fuel (t :: items)
        else
          symbol close
          return (t :: items).reverse
  loop (← remaining) []

/-- One or more items with commas between them. -/
def commaList1 (item : Parser Tree) : Parser (List Tree) := do
  let first ← item
  let rest ← whileM (accept ",") (return [← item])
  return first :: rest

/-- The end of a statement: a semicolon, or a place where one is understood. -/
def semicolon : Parser Unit := do
  if ← accept ";" then return
  let c ← get
  if c.newline || c.token == .symbol "\x7d" || c.token == .eof then return
  failure

end Parser

/-- What a rule of the grammar can ask the whole grammar for. -/
inductive Goal where
  /-- An expression without commas; `allowIn` is false in the head of a loop. -/
  | expression (allowIn : Bool)
  | sequence (allowIn : Bool)
  /-- Operands joined by operators that bind at least as tightly as `least`. -/
  | operators (least : Nat) (allowIn : Bool)
  | unary
  | access
  | construction
  | statement
  | block
  | pattern
  | type
  | element
  deriving DecidableEq, Repr

abbrev Grammar := Goal → Parser Tree

/-- Words that are never names. -/
def reserved : List String :=
  ["break", "case", "catch", "class", "const", "continue", "debugger", "default", "delete", "do",
    "else", "export", "extends", "false", "finally", "for", "function", "if", "import", "in",
    "instanceof", "new", "null", "return", "super", "switch", "this", "throw", "true", "try",
    "typeof", "var", "void", "while", "with", "enum"]

namespace Parser

/-- The word in hand, if it can be a name. -/
def nameText? : Parser (Option String) := do
  match ← token with
  | .word w => return if reserved.contains w then none else some w
  | _ => return none

/-- A name as a node of this kind. -/
def name (kind : String) : Parser Tree := do
  match ← nameText? with
  | some _ => leaf kind
  | none => failure

/-- Any word, reserved or not. -/
def anyWord (kind : String) : Parser Tree := do
  match ← token with
  | .word _ => leaf kind
  | _ => failure

def identifier : Parser Tree := name "identifier"

/-- A name that stands for a value; `undefined` has a kind of its own. -/
def valueName : Parser Tree := do
  if ← isWord "undefined" then leaf "undefined" else identifier

end Parser

end StaleQuery.Source
