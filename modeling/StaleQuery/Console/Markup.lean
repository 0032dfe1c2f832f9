import StaleQuery.Text.Blank
import StaleQuery.Text.Lowercase

/-!
Markup of printed text. A tag is `[name]` or `[/name]`, where the name starts with a small letter or
one of `#/@`; it styles what it encloses and is not printed itself. Backslashes before a tag
escape it, two of them standing for one.
-/

namespace StaleQuery.Markup

def startsTag (c : Char) : Bool :=
  ('a' ≤ c && c ≤ 'z') || c == '#' || c == '/' || c == '@'

/-- What stands between an opening bracket and the first closing one, if that is a tag, and what
follows. -/
def readTag? (cs : List Char) : Option (List Char × List Char) :=
  match cs with
  | [] => none
  | c :: rest =>
    if !startsTag c then none
    else
      let body := rest.takeWhile fun d => d ≠ ']' && d ≠ '['
      match rest.drop body.length with
      | ']' :: after => some (c :: body, after)
      | _ => none

/-- Text to print as it is, or a tag by what is in its brackets. -/
inductive Piece where
  | plain (text : List Char)
  | tag (content : List Char)
  deriving DecidableEq, Repr

/-- The pieces that backslashes before a tag give. -/
def escapedTag (slashes : Nat) (content : List Char) : List Piece :=
  let literal := if slashes < 2 then [] else [.plain (List.replicate (slashes / 2) '\\')]
  literal ++ [if slashes % 2 = 1 then .plain ('[' :: content ++ [']']) else .tag content]

/-- Cuts a text into its pieces. What has been read since the last piece is kept in reverse, and
`slashes` counts the backslashes at its end. -/
def pieces (read : List Char) (slashes : Nat) : Nat → List Char → List Piece
  | 0, _ => []
  | _, [] => if read = [] then [] else [.plain read.reverse]
  | fuel + 1, c :: rest =>
    if c = '[' then
      match readTag? rest with
      | some (content, after) =>
        let before := (read.drop slashes).reverse
        (if before = [] then [] else [.plain before]) ++ escapedTag slashes content ++
          pieces [] 0 fuel after
      | none => pieces (c :: read) 0 fuel rest
    else pieces (c :: read) (if c = '\\' then slashes + 1 else 0) fuel rest

/-- A backslash before a bracket that opens no tag is dropped. -/
def unescape : List Char → List Char
  | [] => []
  | [c] => [c]
  | c :: d :: rest =>
    if c = '\\' ∧ d = '[' then '[' :: unescape rest else c :: unescape (d :: rest)

/-- The name of a style, without a parameter and in one spelling. -/
def styleName (content : List Char) : String :=
  Text.lower (Text.trim (String.ofList (content.takeWhile (· ≠ '='))))

/-- Takes the innermost open style of a name away. -/
def close? (name : String) : List String → Option (List String)
  | [] => none
  | style :: outer =>
    if style = name then some outer else (close? name outer).map (style :: ·)

/-- The plain text of the pieces, given the open styles, innermost first. A tag that closes what is
not open is refused. -/
def plainText? (styles : List String) : List Piece → Option (List Char)
  | [] => some []
  | .plain text :: rest => (plainText? styles rest).map (unescape text ++ ·)
  | .tag ('/' :: content) :: rest =>
    let name := styleName content
    let left := if name = "" then (match styles with | [] => none | _ :: outer => some outer)
      else close? name styles
    match left with
    | some outer => plainText? outer rest
    | none => none
  | .tag content :: rest => plainText? (styleName content :: styles) rest

/-- The printed text of a marked one. -/
def render? (s : String) : Option (List Char) :=
  plainText? [] (pieces [] 0 (s.length + 1) s.toList)

/-- Doubles the backslashes before a tag and puts one more there. -/
def escapeFrom (slashes : Nat) : Nat → List Char → List Char
  | 0, cs => cs
  | _, [] => []
  | fuel + 1, c :: rest =>
    if c = '[' then
      match readTag? rest with
      | some (content, after) =>
        List.replicate (slashes + 1) '\\' ++ '[' :: content ++ ']' :: escapeFrom 0 fuel after
      | none => c :: escapeFrom 0 fuel rest
    else c :: escapeFrom (if c = '\\' then slashes + 1 else 0) fuel rest

/-- Marks up a text so that it prints as it is. A lone backslash at the end is doubled. -/
def escape (s : String) : String :=
  let cs := escapeFrom 0 (s.length + 1) s.toList
  let single := (cs.reverse.takeWhile (· == '\\')).length == 1
  String.ofList (if single then cs ++ ['\\'] else cs)

end StaleQuery.Markup
