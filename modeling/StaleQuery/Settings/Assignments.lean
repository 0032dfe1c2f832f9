import StaleQuery.Text.Blank
import StaleQuery.Text.Utf8

/-!
The statements of a settings file. A statement gives a value to a name, `NAME=value` or
`export NAME=value`, or only mentions it. Values may stand in quotes and then run over several lines.
A statement that cannot be read is passed over up to the end of the line where it fails.
-/

namespace StaleQuery.Settings

/-- A name with the value it is given, if any. -/
abbrev Assignment := String × Option String

def isLineEnd (c : Char) : Bool :=
  c == '\n' || c == '\r'

/-- Blank within a line. -/
def isGap (c : Char) : Bool :=
  Text.isBlank c && !isLineEnd c

def skipGap (cs : List Char) : List Char :=
  cs.dropWhile isGap

def skipLine (cs : List Char) : List Char :=
  (cs.dropWhile (!isLineEnd ·)).drop 1

/-- The rest after the word `export` and the gap behind it, where it stands. -/
def skipExport (cs : List Char) : List Char :=
  if "export".toList.isPrefixOf cs then
    match cs.drop 6 with
    | c :: rest => if isGap c then skipGap rest else cs
    | [] => cs
  else cs

/-- The text up to the closing quote and what follows it. A quote behind a backslash closes only if
no other does. -/
def closeQuote (quote : Char) : List Char → Option (List Char × List Char)
  | [] => none
  | [c] => if c = quote then some ([], []) else none
  | c :: d :: rest =>
    if c = quote then some ([], d :: rest)
    else if c = '\\' ∧ d = quote then
      match closeQuote quote rest with
      | some (text, after) => some (c :: d :: text, after)
      | none => some ([c], rest)
    else (closeQuote quote (d :: rest)).map fun (text, after) => (c :: text, after)

/-- What a backslash before a character stands for in double quotes. -/
def escaped? : Char → Option Char
  | '\\' => some '\\'
  | '\'' => some '\''
  | '"' => some '"'
  | 'a' => some (Char.ofNat 7)
  | 'b' => some (Char.ofNat 8)
  | 'f' => some (Char.ofNat 12)
  | 'n' => some '\n'
  | 'r' => some '\r'
  | 't' => some '\t'
  | 'v' => some (Char.ofNat 11)
  | _ => none

/-- In single quotes only the backslash and the quote itself are escaped. -/
def escapedSingle? (c : Char) : Option Char :=
  if c = '\\' || c = '\'' then some c else none

def unescape (escape? : Char → Option Char) : List Char → List Char
  | [] => []
  | [c] => [c]
  | c :: d :: rest =>
    if c = '\\' then
      match escape? d with
      | some e => e :: unescape escape? rest
      | none => c :: unescape escape? (d :: rest)
    else c :: unescape escape? (d :: rest)

/-- An open value goes on up to a comment, which is a blank and `#`. -/
def dropComment : List Char → List Char
  | [] => []
  | c :: rest =>
    if Text.isBlank c && (rest.dropWhile Text.isBlank).head? == some '#' then []
    else c :: dropComment rest

def readKey? (cs : List Char) : Option (List Char × List Char) :=
  match cs with
  | '\'' :: rest =>
    let key := rest.takeWhile (· ≠ '\'')
    match key, rest.drop key.length with
    | _ :: _, _ :: after => some (key, after)
    | _, _ => none
  | _ =>
    let isKey (c : Char) : Bool := c ≠ '=' && c ≠ '#' && !Text.isBlank c
    match cs.takeWhile isKey with
    | [] => none
    | key => some (key, cs.dropWhile isKey)

/-- The value after an equals sign and a gap. -/
def readValue? (cs : List Char) : Option (List Char × List Char) :=
  match cs with
  | [] => some ([], [])
  | '\'' :: rest => (closeQuote '\'' rest).map fun (v, after) => (unescape escapedSingle? v, after)
  | '"' :: rest => (closeQuote '"' rest).map fun (v, after) => (unescape escaped? v, after)
  | _ =>
    let line := cs.takeWhile (!isLineEnd ·)
    some (Text.trimEnd (dropComment line), cs.drop line.length)

/-- What may end a statement: a gap, a comment and the end of the line. Gives what is left, or else
where it fails. -/
def endStatement (cs : List Char) : Except (List Char) (List Char) :=
  let rest := skipGap cs
  let rest := if rest.head? == some '#' then rest.dropWhile (!isLineEnd ·) else rest
  match rest with
  | [] => .ok []
  | '\r' :: '\n' :: after => .ok after
  | c :: after => if isLineEnd c then .ok after else .error cs

/-- One statement and what is left after it. A comment line has no name. Where it cannot be read, the
place of the failure is given. -/
def readStatement (cs : List Char) : Except (List Char) (Option Assignment × List Char) := do
  let cs := skipExport cs
  let (key, rest) ←
    if cs.head? == some '#' then pure (none, cs)
    else
      match readKey? cs with
      | some (key, rest) => pure (some (String.ofList key), rest)
      | none => .error cs
  let rest := skipGap rest
  match rest with
  | '=' :: after =>
    let after := skipGap after
    match readValue? after with
    | some (value, left) =>
      return (key.map fun k => (k, some (String.ofList value)), ← endStatement left)
    | none => .error after
  | _ => return (key.map fun k => (k, none), ← endStatement rest)

/-- All statements in their order. Each one takes at least a character. -/
def readStatements : Nat → List Char → List Assignment
  | 0, _ => []
  | fuel + 1, cs =>
    match cs.dropWhile Text.isBlank with
    | [] => []
    | start =>
      match readStatement start with
      | .ok (some assignment, rest) => assignment :: readStatements fuel rest
      | .ok (none, rest) => readStatements fuel rest
      | .error failed => readStatements fuel (skipLine failed)

/-- Every way to end a line is read as one. -/
def unifyLines : List Char → List Char
  | [] => []
  | '\r' :: '\n' :: rest => '\n' :: unifyLines rest
  | c :: rest => (if c = '\r' then '\n' else c) :: unifyLines rest

def parse (text : String) : List Assignment :=
  let cs := unifyLines text.toList
  readStatements (cs.length + 1) cs

end StaleQuery.Settings
