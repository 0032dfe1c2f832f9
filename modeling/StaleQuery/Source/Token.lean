import StaleQuery.Text.Utf8
import StaleQuery.Tree.Basic

/-!
Tokens of the scripting languages. Positions are byte offsets. Between two tokens stand blanks
and comments; a token is the longest piece of text of its class, and names are kept as they are
spelled, escapes included.
-/

namespace StaleQuery.Source

inductive Dialect where
  | javascript
  | typescript
  | tsx
  deriving DecidableEq, Repr

def Dialect.name : Dialect → String
  | javascript => "javascript"
  | typescript => "typescript"
  | tsx => "tsx"

def Dialect.ofName? : String → Option Dialect
  | "javascript" => some javascript
  | "typescript" => some typescript
  | "tsx" => some tsx
  | _ => none

/-- Whether the dialect has type annotations. -/
def Dialect.typed : Dialect → Bool
  | javascript => false
  | typescript => true
  | tsx => true

/-- Whether `<` can open an element. -/
def Dialect.markup : Dialect → Bool
  | typescript => false
  | javascript => true
  | tsx => true

inductive Token where
  | eof
  | word (text : String)
  | privateName
  | number
  | string
  | template
  | symbol (text : String)
  deriving DecidableEq, Repr

section Scanning

variable (bytes : ByteArray)

def byteAt (i : Nat) : UInt8 :=
  if h : i < bytes.size then bytes[i] else 0

/-- First offset from `i` on whose byte fails the test. -/
def skipWhile (p : UInt8 → Bool) (i : Nat) : Nat :=
  if h : i < bytes.size then
    if p bytes[i] then skipWhile p (i + 1) else i
  else i
termination_by bytes.size - i

/-- Whether the text at `i` starts with `word`. -/
def startsWith (word : String) (i : Nat) : Bool :=
  let w := word.toUTF8
  i + w.size ≤ bytes.size && (List.range w.size).all fun k => byteAt bytes (i + k) == byteAt w k

/-- U+2028 and U+2029. -/
def isSeparator (i : Nat) : Bool :=
  byteAt bytes i == 0xE2 && byteAt bytes (i + 1) == 0x80 &&
    (byteAt bytes (i + 2) == 0xA8 || byteAt bytes (i + 2) == 0xA9)

def isLineBreak (i : Nat) : Bool :=
  byteAt bytes i == 10 || isSeparator bytes i

/-- Number of bytes of the blank at `i`; zero if there is none. -/
def blankWidth (i : Nat) : Nat :=
  let b := byteAt bytes i
  if i ≥ bytes.size then 0
  else if b == 32 || (9 ≤ b && b ≤ 13) then 1
  else if b < 0x80 then 0
  else
    let c := byteAt bytes (i + 1)
    let d := byteAt bytes (i + 2)
    if b == 0xC2 && (c == 0xA0 || c == 0x85) then 2
    else if b == 0xE2 && c == 0x80 && ((0x80 ≤ d && d ≤ 0x8B) || d == 0xA8 || d == 0xA9 || d == 0xAF)
    then 3
    else if b == 0xE2 && c == 0x81 && (d == 0x9F || d == 0xA0) then 3
    else if b == 0xE1 && c == 0x9A && d == 0x80 then 3
    else if b == 0xE3 && c == 0x80 && d == 0x80 then 3
    else if b == 0xEF && c == 0xBB && d == 0xBF then 3
    else 0

def isDigit (b : UInt8) : Bool := 48 ≤ b && b ≤ 57

def isNameByte (b : UInt8) : Bool :=
  (97 ≤ b && b ≤ 122) || (65 ≤ b && b ≤ 90) || b == 95 || b == 36 || isDigit b

/-- End of the name that starts at `i`; letters beyond ASCII and `\u` escapes belong to it. -/
def nameEnd : Nat → Nat → Nat
  | 0, i => i
  | fuel + 1, i =>
    let b := byteAt bytes i
    if isNameByte b then nameEnd fuel (i + 1)
    else if b == 92 && byteAt bytes (i + 1) == 117 then
      if byteAt bytes (i + 2) == 123 then
        nameEnd fuel (skipWhile bytes (· != 125) (i + 2) + 1)
      else nameEnd fuel (i + 6)
    else if b ≥ 0x80 && blankWidth bytes i == 0 then nameEnd fuel (i + 1)
    else i

def startsName (i : Nat) : Bool :=
  let b := byteAt bytes i
  (isNameByte b && !isDigit b) || (b == 92 && byteAt bytes (i + 1) == 117) ||
    (b ≥ 0x80 && blankWidth bytes i == 0)

/-- Offset just past the next `*/`. -/
def blockEnd : Nat → Nat → Nat
  | 0, i => i
  | fuel + 1, i =>
    let j := skipWhile bytes (· != 42) i
    if j ≥ bytes.size then bytes.size
    else if byteAt bytes (j + 1) == 47 then j + 2
    else blockEnd fuel (j + 1)

/-- End of the line that `i` is on. -/
def lineEnd : Nat → Nat → Nat
  | 0, i => i
  | fuel + 1, i =>
    let j := skipWhile bytes (fun b => b != 10 && b != 13 && b != 0xE2) i
    if j ≥ bytes.size then bytes.size
    else if byteAt bytes j == 0xE2 && !isSeparator bytes j then lineEnd fuel (j + 1)
    else j

/-- Offset just past the quote that ends a string; a backslash protects the next byte. -/
def stringEnd (quote : UInt8) : Nat → Nat → Nat
  | 0, i => i
  | fuel + 1, i =>
    let j := skipWhile bytes (fun b => b != quote && b != 92) i
    if j ≥ bytes.size then bytes.size
    else if byteAt bytes j == quote then j + 1
    else stringEnd quote fuel (j + 2)

/-- Offset just past the digits of an exponent, if one stands at `i`. -/
def exponentEnd (i : Nat) : Nat :=
  let e := byteAt bytes i
  if e == 101 || e == 69 then
    let s := byteAt bytes (i + 1)
    let j := if s == 43 || s == 45 then i + 2 else i + 1
    if isDigit (byteAt bytes j) then skipWhile bytes (fun b => isDigit b || b == 95) j else i
  else i

def numberEnd (i : Nat) : Nat :=
  let digits := skipWhile bytes fun b => isDigit b || b == 95
  let radix := byteAt bytes (i + 1)
  if byteAt bytes i == 48 && (radix == 120 || radix == 88 || radix == 111 || radix == 79 ||
      radix == 98 || radix == 66) then
    skipWhile bytes isNameByte (i + 2)
  else
    let j := digits i
    let j := if byteAt bytes j == 46 then digits (j + 1) else j
    let j := exponentEnd bytes j
    if byteAt bytes j == 110 then j + 1 else j

/-- The delimiter at `i` ends a class (`]`) or an expression (`/`). -/
def regexBodyEnd (inClass : Bool) : Nat → Nat → Nat
  | 0, i => i
  | fuel + 1, i =>
    let b := byteAt bytes i
    if i ≥ bytes.size then i
    else if b == 92 then regexBodyEnd inClass fuel (i + 2)
    else if b == 91 then regexBodyEnd true fuel (i + 1)
    else if b == 93 then regexBodyEnd false fuel (i + 1)
    else if b == 47 && !inClass then i
    else regexBodyEnd inClass fuel (i + 1)

end Scanning

/-- Longest first, so that the first one that fits is the token. -/
def symbols : List String :=
  [">>>=", "...", "===", "!==", "**=", "<<=", ">>=", ">>>", "&&=", "||=", "??=",
    "=>", "==", "!=", "<=", ">=", "&&", "||", "??", "?.", "++", "--", "+=", "-=", "*=", "/=", "%=",
    "&=", "|=", "^=", "<<", ">>", "**",
    "(", ")", "[", "]", "\x7b", "\x7d", ".", ",", ";", ":", "?", "=", "<", ">", "+", "-", "*", "/", "%",
    "&", "|", "^", "!", "~", "@"]

def symbolAt (bytes : ByteArray) (i : Nat) : String :=
  match symbols.find? (startsWith bytes · i) with
  | some "?." => if isDigit (byteAt bytes (i + 2)) then "?" else "?."
  | some s => s
  | none => ""

/-- The token at `i`, where no blank stands, and its end. -/
def tokenAt (bytes : ByteArray) (i : Nat) : Token × Nat :=
  let b := byteAt bytes i
  if i ≥ bytes.size then (.eof, i)
  else if startsName bytes i then
    let stop := nameEnd bytes (bytes.size - i) i
    (.word (Utf8.slice bytes i stop), stop)
  else if isDigit b || (b == 46 && isDigit (byteAt bytes (i + 1))) then (.number, numberEnd bytes i)
  else if b == 34 || b == 39 then (.string, stringEnd bytes b (bytes.size - i) (i + 1))
  else if b == 96 then (.template, i + 1)
  else if b == 35 then (.privateName, nameEnd bytes (bytes.size - i) (i + 1))
  else
    let s := symbolAt bytes i
    (.symbol s, i + max 1 s.length)

/-- A source text with the line and column of each offset. -/
structure Input where
  dialect : Dialect
  bytes : ByteArray
  points : Array Point
  /-- Whether an arrow function may state the type of its result. -/
  resultTypes : Bool

def pointsOf (bytes : ByteArray) : Array Point :=
  let step := fun (state : Array Point × Point) (b : UInt8) =>
    let (points, p) := state
    (points.push p, if b == 10 then ⟨p.row + 1, 0⟩ else ⟨p.row, p.column + 1⟩)
  let (points, last) := bytes.foldl step (Array.emptyWithCapacity (bytes.size + 1), ⟨0, 0⟩)
  points.push last

def Input.ofBytes (dialect : Dialect) (bytes : ByteArray) : Input :=
  ⟨dialect, bytes, pointsOf bytes, true⟩

def Input.point (input : Input) (i : Nat) : Point :=
  input.points.getD i default

def Input.leaf (input : Input) (kind : String) (start stop : Nat) (text : String) : Tree :=
  .node ⟨kind, none, true, ⟨input.point start, input.point stop⟩, text⟩ []

/-- What stands between two tokens: where the next one starts, whether a line ends before it, and
the comments, the latest first. -/
structure Gap where
  stop : Nat
  newline : Bool
  comments : List Tree

def gapFrom (input : Input) : Nat → Gap → Gap
  | 0, gap => gap
  | fuel + 1, gap =>
    let bytes := input.bytes
    let i := gap.stop
    let width := blankWidth bytes i
    if width > 0 then
      gapFrom input fuel { gap with stop := i + width, newline := gap.newline || isLineBreak bytes i }
    else if byteAt bytes i == 47 && byteAt bytes (i + 1) == 47 then
      let stop := lineEnd bytes (bytes.size - i + 1) i
      gapFrom input fuel { gap with
        stop := stop, comments := input.leaf "comment" i stop "" :: gap.comments }
    else if byteAt bytes i == 47 && byteAt bytes (i + 1) == 42 then
      let stop := blockEnd bytes (bytes.size - i + 1) (i + 2)
      let broken := (List.range (stop - i)).any fun k => isLineBreak bytes (i + k)
      gapFrom input fuel
        { stop := stop, newline := gap.newline || broken
          comments := input.leaf "comment" i stop "" :: gap.comments }
    else gap

def Input.gap (input : Input) (i : Nat) : Gap :=
  gapFrom input (input.bytes.size - i + 1) ⟨i, false, []⟩

end StaleQuery.Source
