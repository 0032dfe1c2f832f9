/-!
Reading bytes as UTF-8 without ever refusing them. A well-formed sequence gives its
character; each longest piece that could still have become one, and each stray byte, gives a
single replacement character.
-/

namespace StaleQuery.Utf8

/-- What the bytes read so far leave open: nothing, or a sequence with `need` bytes to come,
the first of which lies between `low` and `high`. -/
inductive Pending where
  | none
  | more (code need low high : Nat)
  deriving DecidableEq, Repr

def replacement : Char := '\uFFFD'

/-- The bounds on the second byte rule out overlong forms, surrogates and everything past
U+10FFFF. -/
def start (b : UInt8) : List Char × Pending :=
  let n := b.toNat
  if n < 0x80 then ([Char.ofNat n], .none)
  else if n < 0xC2 then ([replacement], .none)
  else if n < 0xE0 then ([], .more (n - 0xC0) 1 0x80 0xBF)
  else if n = 0xE0 then ([], .more 0 2 0xA0 0xBF)
  else if n = 0xED then ([], .more 0xD 2 0x80 0x9F)
  else if n < 0xF0 then ([], .more (n - 0xE0) 2 0x80 0xBF)
  else if n = 0xF0 then ([], .more 0 3 0x90 0xBF)
  else if n < 0xF4 then ([], .more (n - 0xF0) 3 0x80 0xBF)
  else if n = 0xF4 then ([], .more 4 3 0x80 0x8F)
  else ([replacement], .none)

def decodeFrom : Pending → List UInt8 → List Char
  | .none, [] => []
  | .more .., [] => [replacement]
  | .none, b :: rest =>
    let (out, next) := start b
    out ++ decodeFrom next rest
  | .more code need low high, b :: rest =>
    if low ≤ b.toNat ∧ b.toNat ≤ high then
      let code := code * 64 + (b.toNat - 0x80)
      if need ≤ 1 then Char.ofNat code :: decodeFrom .none rest
      else decodeFrom (.more code (need - 1) 0x80 0xBF) rest
    else
      let (out, next) := start b
      replacement :: (out ++ decodeFrom next rest)

def decode (bytes : List UInt8) : String :=
  String.ofList (decodeFrom .none bytes)

/-- Text of the bytes from `start` up to `stop`. -/
def slice (bytes : ByteArray) (start stop : Nat) : String :=
  let piece := bytes.extract start stop
  match String.fromUTF8? piece with
  | some text => text
  | none => decode piece.toList

end StaleQuery.Utf8
