import StaleQuery.Console.Markup
import StaleQuery.Console.Table
import StaleQuery.Json.Display
import StaleQuery.Text.Charset
import StaleQuery.Text.Icon

/-!
A terminal by the name of its encoding and its width. One that does not take UTF-8 gets icons spelled
out and tables in other frames.
-/

namespace StaleQuery.Console

/-- How asking for the encoding that the system prefers can end. -/
inductive Preference where
  | encoding (name : String)
  /-- The system has none that is known. -/
  | unknown
  /-- The system could not be asked. -/
  | failed

/-- The encoding of a terminal: what its stream says, or else what the system prefers, or else plain
ASCII. Nothing is known if the system could not be asked. -/
def detectEncoding (stream : Option String) (preference : Preference) : Option String :=
  match stream, preference with
  | some name, preference =>
    if name ≠ "" then some (Text.lower name)
    else detectPreferred preference
  | none, preference => detectPreferred preference
where
  detectPreferred : Preference → Option String
    | .encoding name => some (Text.lower name)
    | .unknown => some "ascii"
    | .failed => none

/-- Whether an encoding is UTF-8, by its name. -/
def isUtf8 (encoding : String) : Bool :=
  let plain := String.ofList (encoding.toList.map fun c => if c = '_' then '-' else c)
  plain = "utf-8" || plain = "utf8"

/-- Spells icons out where an encoding is not UTF-8. -/
def sanitize (encoding text : String) : String :=
  if isUtf8 encoding then text else Icon.spellOut text

structure Terminal where
  /-- The name of the encoding, in lower case. -/
  encoding : String
  width : Nat

/-- Why something cannot be printed. -/
inductive PrintFault where
  /-- A character is not in the character set of the stream. -/
  | unwritable
  /-- A tag closes what is not open. -/
  | markup
  deriving DecidableEq, Repr

namespace Terminal

/-- The terminal of a stream. Where icons are spelled out the last column is left free. -/
def attached (encoding : String) (columns : Nat) : Terminal :=
  let name := Text.lower encoding
  ⟨name, if isUtf8 name then columns else columns - 1⟩

def frame (terminal : Terminal) : Frame :=
  if isUtf8 terminal.encoding then .heavyHead
  else if "utf".toList.isPrefixOf terminal.encoding.toList then .square
  else .ascii

/-- What the stream takes of a text: all of it or nothing. -/
def send (terminal : Terminal) (text : String) : Except PrintFault String :=
  if (Charset.ofName terminal.encoding).canWriteAll text then .ok text else .error .unwritable

def joinLines (lines : List (List Char)) : String :=
  String.ofList (lines.flatMap (· ++ ['\n']))

/-- Lines of text as they come out. -/
def text (terminal : Terminal) (cs : List Char) : String :=
  joinLines (({ limit := terminal.width } : Layout).lines (dropControls cs))

/-- A printed object: its text, marked up or not. -/
def objectText (terminal : Terminal) (markup : Bool) (object : Json) :
    Except PrintFault (List Char) :=
  match object with
  | .str s =>
    let s := sanitize terminal.encoding s
    if markup then
      match Markup.render? s with
      | some cs => .ok cs
      | none => .error .markup
    else .ok s.toList
  | value => .ok value.display.toList

/-- Whether an object is printed on lines of its own. -/
def isBlock : Json → Bool
  | .arr _ | .obj _ => true
  | _ => false

/-- The texts that objects are joined to: with blanks between those on one line. -/
def joinObjects : List (Bool × List Char) → List (List Char)
  | [] => []
  | (block, cs) :: rest =>
    match rest, joinObjects rest with
    | (false, _) :: _, first :: others =>
      if block then cs :: first :: others else (cs ++ ' ' :: first) :: others
    | _, others => cs :: others

/-- Objects as they are laid out, with an end of line. -/
def compose (terminal : Terminal) (markup : Bool) (objects : List Json) :
    Except PrintFault String := do
  let texts ← objects.mapM fun o => return (isBlock o, ← terminal.objectText markup o)
  return if objects.isEmpty then "\n" else String.join ((joinObjects texts).map terminal.text)

/-- One print of objects. -/
def print (terminal : Terminal) (markup : Bool) (objects : List Json) : Except PrintFault String := do
  terminal.send (← terminal.compose markup objects)

def printText (terminal : Terminal) (s : String) : Except PrintFault String :=
  terminal.print true [.str s]

/-- One print of a text on the stream for errors, which takes every text: a character that it cannot
write it gives by its number. -/
def printError (terminal : Terminal) (s : String) : Except PrintFault String := do
  return (Charset.ofName terminal.encoding).spell (← terminal.compose true [.str s])

/-- The text of a cell of a table, from its markup. -/
def cell (marked : String) : Except PrintFault (List Char) :=
  match Markup.render? marked with
  | some cs => .ok (dropControls cs)
  | none => .error .markup

def printTable (terminal : Terminal) (table : Table) : Except PrintFault String :=
  terminal.send (joinLines (table.lines terminal.width))

end Terminal
end StaleQuery.Console
