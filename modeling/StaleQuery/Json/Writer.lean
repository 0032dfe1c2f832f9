import StaleQuery.Json.Basic

/-!
Writing JSON in ASCII. Every character outside the printable ASCII range is escaped, those
beyond U+FFFF as a pair of surrogates. Two layouts: on one line, and indented by two spaces.
-/

namespace StaleQuery.Json

def hexDigit (n : Nat) : Char :=
  if n < 10 then Char.ofNat (48 + n) else Char.ofNat (87 + n)

/-- `\uXXXX` for one unit of sixteen bits. -/
def escapeUnit (n : Nat) : List Char :=
  ['\\', 'u', hexDigit (n / 4096 % 16), hexDigit (n / 256 % 16), hexDigit (n / 16 % 16),
    hexDigit (n % 16)]

def escapeChar (c : Char) : List Char :=
  if c = '"' then ['\\', '"']
  else if c = '\\' then ['\\', '\\']
  else if c = '\n' then ['\\', 'n']
  else if c = '\r' then ['\\', 'r']
  else if c = '\t' then ['\\', 't']
  else if c.toNat = 8 then ['\\', 'b']
  else if c.toNat = 12 then ['\\', 'f']
  else if 32 ≤ c.toNat ∧ c.toNat < 127 then [c]
  else if c.toNat < 0x10000 then escapeUnit c.toNat
  else
    let n := c.toNat - 0x10000
    escapeUnit (0xD800 + n / 1024) ++ escapeUnit (0xDC00 + n % 1024)

def quote (s : String) : List Char :=
  '"' :: (s.toList.flatMap escapeChar ++ ['"'])

def digits (n : Int) : List Char :=
  match n with
  | .ofNat n => Nat.toDigits 10 n
  | .negSucc n => '-' :: Nat.toDigits 10 (n + 1)

mutual
/-- The value on one line, in front of what follows it. -/
def writeLine : Json → List Char → List Char
  | null, k => "null".toList ++ k
  | bool true, k => "true".toList ++ k
  | bool false, k => "false".toList ++ k
  | int n, k => digits n ++ k
  | decimal text, k => text.toList ++ k
  | str s, k => quote s ++ k
  | arr items, k => '[' :: writeItems true items (']' :: k)
  | obj members, k => '{' :: writeMembers true members ('}' :: k)

def writeItems (first : Bool) : List Json → List Char → List Char
  | [], k => k
  | v :: rest, k =>
    (if first then [] else [',', ' ']) ++ writeLine v (writeItems false rest k)

def writeMembers (first : Bool) : List (String × Json) → List Char → List Char
  | [], k => k
  | (key, v) :: rest, k =>
    (if first then [] else [',', ' ']) ++ quote key ++ ':' :: ' ' ::
      writeLine v (writeMembers false rest k)
end

def line (v : Json) : String :=
  String.ofList (writeLine v [])

def newline (depth : Nat) : List Char :=
  '\n' :: List.replicate (2 * depth) ' '

mutual
/-- The value with each item and member on a line of its own, in front of what follows it. -/
def writeIndented (depth : Nat) : Json → List Char → List Char
  | arr [], k => '[' :: ']' :: k
  | arr (v :: rest), k =>
    '[' :: (newline (depth + 1) ++ writeIndented (depth + 1) v
      (indentItems (depth + 1) rest (newline depth ++ ']' :: k)))
  | obj [], k => '{' :: '}' :: k
  | obj ((key, v) :: rest), k =>
    '{' :: (newline (depth + 1) ++ quote key ++ ':' :: ' ' :: writeIndented (depth + 1) v
      (indentMembers (depth + 1) rest (newline depth ++ '}' :: k)))
  | null, k => "null".toList ++ k
  | bool true, k => "true".toList ++ k
  | bool false, k => "false".toList ++ k
  | int n, k => digits n ++ k
  | decimal text, k => text.toList ++ k
  | str s, k => quote s ++ k

def indentItems (depth : Nat) : List Json → List Char → List Char
  | [], k => k
  | v :: rest, k => ',' :: (newline depth ++ writeIndented depth v (indentItems depth rest k))

def indentMembers (depth : Nat) : List (String × Json) → List Char → List Char
  | [], k => k
  | (key, v) :: rest, k =>
    ',' :: (newline depth ++ quote key ++ ':' :: ' ' ::
      writeIndented depth v (indentMembers depth rest k))
end

def indented (v : Json) : String :=
  String.ofList (writeIndented 0 v [])

end StaleQuery.Json
