import StaleQuery.Json.Number

/-!
Reading JSON. A text is one value with blanks around it; of two members with one key the later
value counts. Beside the standard numbers the words `NaN`, `Infinity` and `-Infinity` are read.
A reader has room for so many brackets one in another and for so many digits of a whole number. A
text that goes past its room is refused where it does so, whatever else the text holds.
-/

namespace StaleQuery.Json

/-- The room of a reader. There is room at least for a list of flat objects and for whole numbers of
ten digits. -/
structure Limits where
  /-- How many brackets may be open at a time. -/
  depth : Nat
  /-- How many digits a whole number may have. -/
  digits : Nat
  two_le_depth : 2 ≤ depth
  ten_le_digits : 10 ≤ digits

/-- What the defaults of a runtime leave: a thousand calls, some of which are open already, and
numbers of 4300 digits. -/
def Limits.standard : Limits :=
  ⟨960, 4300, by decide, by decide⟩

/-- Why a text is not read. -/
inductive ReadFault where
  /-- It is no JSON. -/
  | malformed
  /-- There is a bracket too many open, of an array or of an object. -/
  | tooDeep (array : Bool)
  /-- A whole number has so many digits. -/
  | tooLong (digits : Nat)
  deriving DecidableEq, Repr

def expect {α : Type} : Option α → Except ReadFault α
  | some a => .ok a
  | none => .error .malformed

def isBlank (c : Char) : Bool :=
  c == ' ' || c == '\t' || c == '\n' || c == '\r'

def skipBlanks (cs : List Char) : List Char :=
  cs.dropWhile isBlank

def hexValue? (c : Char) : Option Nat :=
  if '0' ≤ c ∧ c ≤ '9' then some (c.toNat - 48)
  else if 'a' ≤ c ∧ c ≤ 'f' then some (c.toNat - 87)
  else if 'A' ≤ c ∧ c ≤ 'F' then some (c.toNat - 55)
  else none

/-- Four hexadecimal digits and the rest. -/
def readUnit? : List Char → Option (Nat × List Char)
  | a :: b :: c :: d :: rest => do
    return ((((← hexValue? a) * 16 + (← hexValue? b)) * 16 + (← hexValue? c)) * 16 + (← hexValue? d),
      rest)
  | _ => none

def simpleEscape? : Char → Option Char
  | '"' => some '"'
  | '\\' => some '\\'
  | '/' => some '/'
  | 'b' => some (Char.ofNat 8)
  | 'f' => some (Char.ofNat 12)
  | 'n' => some '\n'
  | 'r' => some '\r'
  | 't' => some '\t'
  | _ => none

/-- The second half of a pair of surrogates, if the text goes on with one. -/
def readLow? : List Char → Option (Nat × List Char)
  | '\\' :: 'u' :: rest => do
    let (low, rest) ← readUnit? rest
    if 0xDC00 ≤ low ∧ low < 0xE000 then return (low, rest) else none
  | _ => none

/-- A character given by its number. Half a pair of surrogates alone is no character. -/
def readEscapedUnit? (cs : List Char) : Option (Char × List Char) := do
  let (unit, rest) ← readUnit? cs
  if 0xD800 ≤ unit ∧ unit < 0xDC00 then
    match readLow? rest with
    | some (low, rest) =>
      return (Char.ofNat (0x10000 + (unit - 0xD800) * 1024 + (low - 0xDC00)), rest)
    | none => return ('\uFFFD', rest)
  else if 0xDC00 ≤ unit ∧ unit < 0xE000 then return ('\uFFFD', rest)
  else return (Char.ofNat unit, rest)

/-- The characters up to the closing quote, collected in reverse. -/
def readChars? : Nat → List Char → List Char → Option (String × List Char)
  | 0, _, _ => none
  | fuel + 1, out, cs =>
    match cs with
    | [] => none
    | '"' :: rest => some (String.ofList out.reverse, rest)
    | '\\' :: 'u' :: rest =>
      match readEscapedUnit? rest with
      | some (c, rest) => readChars? fuel (c :: out) rest
      | none => none
    | '\\' :: e :: rest =>
      match simpleEscape? e with
      | some c => readChars? fuel (c :: out) rest
      | none => none
    | '\\' :: [] => none
    | c :: rest => if c.toNat < 32 then none else readChars? fuel (c :: out) rest

def readString? (cs : List Char) : Option (String × List Char) :=
  readChars? (cs.length + 1) [] cs

def isDigit (c : Char) : Bool :=
  '0' ≤ c && c ≤ '9'

/-- Digits of a whole number, without a needless zero in front. -/
def readWhole? (cs : List Char) : Option (List Char × List Char) :=
  match cs with
  | '0' :: rest => some (['0'], rest)
  | c :: _ => if isDigit c then some (cs.takeWhile isDigit, cs.dropWhile isDigit) else none
  | [] => none

def readFraction (cs : List Char) : List Char × List Char :=
  match cs with
  | '.' :: rest =>
    match rest.takeWhile isDigit with
    | [] => ([], cs)
    | ds => ('.' :: ds, rest.dropWhile isDigit)
  | _ => ([], cs)

def readExponentDigits (mark cs rest : List Char) : List Char × List Char :=
  match rest.takeWhile isDigit with
  | [] => ([], cs)
  | ds => (mark ++ ds, rest.dropWhile isDigit)

def readExponent (cs : List Char) : List Char × List Char :=
  match cs with
  | e :: sign :: rest =>
    if e == 'e' || e == 'E' then
      if sign == '+' || sign == '-' then readExponentDigits [e, sign] cs rest
      else readExponentDigits [e] cs (sign :: rest)
    else ([], cs)
  | _ => ([], cs)

/-- What a mark such as `e+07` says. -/
def exponentValue : List Char → Int
  | _ :: '-' :: ds => -(natOfDigits ds : Int)
  | _ :: '+' :: ds => natOfDigits ds
  | _ :: ds => natOfDigits ds
  | [] => 0

abbrev Read := List Char → Except ReadFault (Json × List Char)

/-- A number. Only whole numbers are limited. -/
def readNumber (digits : Nat) : Read := fun cs => do
  let (negative, body) := match cs with
    | '-' :: rest => (true, rest)
    | _ => (false, cs)
  let (whole, rest) ← expect (readWhole? body)
  let (fraction, rest) := readFraction rest
  let (exponent, rest) := readExponent rest
  if fraction.isEmpty && exponent.isEmpty then
    if digits < whole.length then .error (.tooLong whole.length)
    else
      let n := natOfDigits whole
      return (int (if negative then -(n : Int) else n), rest)
  else
    let places := fraction.drop 1
    return (ofDecimal negative (whole ++ places) (exponentValue exponent - places.length), rest)

/-- The rest of the text after a word it starts with. -/
def readWord? (word cs : List Char) : Option (List Char) :=
  if word.isPrefixOf cs then some (cs.drop word.length) else none

def words : List (List Char × Json) :=
  [("null".toList, null), ("true".toList, bool true), ("false".toList, bool false),
    ("NaN".toList, decimal "NaN"), ("Infinity".toList, decimal "Infinity"),
    ("-Infinity".toList, decimal "-Infinity")]

def readAtom (digits : Nat) : Read := fun cs =>
  match words.findSome? fun (word, value) => (readWord? word cs).map (value, ·) with
  | some found => .ok found
  | none => readNumber digits cs

/-- The items after an opening bracket that is not closed at once, collected in reverse. -/
def readItems (read : Read) : Nat → List Json → List Char → Except ReadFault (List Json × List Char)
  | 0, _, _ => .error .malformed
  | fuel + 1, items, cs => do
    let (v, rest) ← read (skipBlanks cs)
    match skipBlanks rest with
    | ',' :: rest => readItems read fuel (v :: items) rest
    | ']' :: rest => return ((v :: items).reverse, rest)
    | _ => .error .malformed

/-- The members after an opening brace that is not closed at once. -/
def readMembers (read : Read) : Nat → List (String × Json) → List Char →
    Except ReadFault (List (String × Json) × List Char)
  | 0, _, _ => .error .malformed
  | fuel + 1, members, cs =>
    match skipBlanks cs with
    | '"' :: rest => do
      let (key, rest) ← expect (readString? rest)
      match skipBlanks rest with
      | ':' :: rest =>
        let (v, rest) ← read (skipBlanks rest)
        match skipBlanks rest with
        | ',' :: rest => readMembers read fuel (insert key v members) rest
        | '}' :: rest => return (insert key v members, rest)
        | _ => .error .malformed
      | _ => .error .malformed
    | _ => .error .malformed

/-- One level of reading, given how nested values are read if another bracket may be opened. -/
def readLevel (digits : Nat) (nested : Option Read) : Read
  | '"' :: rest => do
    let (s, rest) ← expect (readString? rest)
    return (str s, rest)
  | '[' :: rest =>
    match nested with
    | none => .error (.tooDeep true)
    | some read =>
      match skipBlanks rest with
      | ']' :: rest => .ok (arr [], rest)
      | rest => do
        let (items, rest) ← readItems read (rest.length + 1) [] rest
        return (arr items, rest)
  | '{' :: rest =>
    match nested with
    | none => .error (.tooDeep false)
    | some read =>
      match skipBlanks rest with
      | '}' :: rest => .ok (obj [], rest)
      | rest => do
        let (members, rest) ← readMembers read (rest.length + 1) [] rest
        return (obj members, rest)
  | cs => readAtom digits cs

/-- Reads a value with room for `depth` brackets one in another. -/
def read (digits : Nat) : Nat → Read
  | 0 => readLevel digits none
  | depth + 1 => readLevel digits (some (read digits depth))

def parseChars (limits : Limits) (cs : List Char) : Except ReadFault Json := do
  let (v, rest) ← read limits.digits limits.depth (skipBlanks cs)
  if (skipBlanks rest).isEmpty then return v else .error .malformed

/-- The value that a text spells, or the first reason why it spells none. -/
def parse (limits : Limits) (text : String) : Except ReadFault Json :=
  parseChars limits text.toList

/-- Room that no text of so many characters goes past. -/
def Limits.ample (length : Nat) : Limits :=
  ⟨length + 2, length + 10, Nat.le_add_left .., Nat.le_add_left ..⟩

/-- The value that a text spells to a reader with room for it. -/
def parse? (text : String) : Option Json :=
  (parse (.ample text.toList.length) text).toOption

end StaleQuery.Json
