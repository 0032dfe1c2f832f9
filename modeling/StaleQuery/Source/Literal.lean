import StaleQuery.Source.Parser

/-!
Literals: strings, templates, regular expressions and numbers.
-/

namespace StaleQuery.Source.Literal

open Source.Parser

/-- End of the escape at `i`, which holds a backslash. -/
def escapeEnd (bytes : ByteArray) (i : Nat) : Nat :=
  let b := byteAt bytes (i + 1)
  if b == 120 then i + 4
  else if b == 117 then
    if byteAt bytes (i + 2) == 123 then skipWhile bytes (· != 125) (i + 2) + 1 else i + 6
  else if b == 13 && byteAt bytes (i + 2) == 10 then i + 3
  else if b < 0x80 then i + 2
  else skipWhile bytes (fun c => 0x80 ≤ c && c < 0xC0) (i + 2)

/-- Plain pieces and escapes between `i` and `stop`. -/
def pieces (input : Input) (stop : Nat) : Nat → Nat → List Tree
  | 0, _ => []
  | fuel + 1, i =>
    if i ≥ stop then []
    else if byteAt input.bytes i == 92 then
      let j := min stop (escapeEnd input.bytes i)
      input.leaf "escape_sequence" i j "" :: pieces input stop fuel j
    else
      let j := min stop (skipWhile input.bytes (· != 92) i)
      input.leaf "string_fragment" i j "" :: pieces input stop fuel j

def string : Parser Tree := do
  let c ← cursor
  if c.token != .string then failure
  let input ← input
  take
  node "string" c.next (pieces input (c.stop - 1) (c.stop - c.next) (c.next + 1))

def number : Parser Tree := do
  if (← token) != .number then failure
  leaf "number"

/-- A regular expression; the slash in hand opens it. -/
def regex : Parser Tree := do
  let c ← cursor
  let input ← input
  let size := input.bytes.size
  let bodyEnd := regexBodyEnd input.bytes false (size - c.next) (c.next + 1)
  if byteAt input.bytes bodyEnd != 47 then failure
  let stop := skipWhile input.bytes isNameByte (bodyEnd + 1)
  advance stop
  let pattern := (input.leaf "regex_pattern" (c.next + 1) bodyEnd "").under "pattern"
  let flags := if stop == bodyEnd + 1 then []
    else [(input.leaf "regex_flags" (bodyEnd + 1) stop "").under "flags"]
  node "regex" c.next (pattern :: flags)

/-- Where the plain text of a template ends: at its closing quote or before `${`. -/
def templateTextEnd (bytes : ByteArray) : Nat → Nat → Nat
  | 0, i => i
  | fuel + 1, i =>
    let b := byteAt bytes i
    if i ≥ bytes.size || b == 96 then i
    else if b == 92 then templateTextEnd bytes fuel (i + 2)
    else if b == 36 && byteAt bytes (i + 1) == 123 then i
    else templateTextEnd bytes fuel (i + 1)

/-- The body of a template after its opening quote; `inner` reads what stands in `${…}`. -/
def templateParts (piece substitution : String) (inner : Parser Tree) :
    Nat → List Tree → Parser (List Tree)
  | 0, _ => failure
  | fuel + 1, parts => do
    let input ← input
    let here := (← cursor).last
    let stop := templateTextEnd input.bytes (input.bytes.size - here + 1) here
    let plain := (pieces input stop (stop - here) here).map fun t =>
      if t.kind == "string_fragment" then .node { t.label with kind := piece } [] else t
    let parts := plain.reverse ++ parts
    jump stop
    if byteAt input.bytes stop == 96 then
      jump (stop + 1)
      return parts.reverse
    if stop ≥ input.bytes.size then failure
    jump (stop + 2)
    let t ← inner
    -- the closing brace has to be the token in hand; the text goes on right after it
    let c ← cursor
    if c.token != .symbol "\x7d" then failure
    take
    let part ← node substitution stop [t]
    templateParts piece substitution inner fuel (part :: parts)

def templateWith (kind piece substitution : String) (inner : Parser Tree) : Parser Tree := do
  let c ← cursor
  if c.token != .template then failure
  advance c.stop
  let parts ← templateParts piece substitution inner (← remaining) []
  node kind c.next parts

def template (self : Grammar) : Parser Tree :=
  templateWith "template_string" "string_fragment" "template_substitution" (self (.sequence true))

end StaleQuery.Source.Literal
