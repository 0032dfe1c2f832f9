import StaleQuery.Text.Lowercase

/-!
Character sets of an output stream: which characters it can write, and how the others are spelled
where nothing may be lost. The sets are ASCII, Latin-1, the code pages 1252 and 864, and those that
have all of Unicode. Other sets, such as code page 437 or KOI8-R, are left out.
-/

namespace StaleQuery

inductive Charset where
  | ascii
  | latin1
  | cp1252
  | cp864
  | unicode
  deriving DecidableEq, Repr

namespace Charset

/-- The characters of code page 1252 that stand at 80 to 9F there. -/
def cp1252Extras : List Nat :=
  [8364, 8218, 402, 8222, 8230, 8224, 8225, 710, 8240, 352, 8249, 338, 381, 8216, 8217, 8220, 8221,
    8226, 8211, 8212, 732, 8482, 353, 8250, 339, 382, 376]

/-- The characters of code page 864 beyond ASCII. -/
def cp864Extras : List Nat :=
  [160, 162, 163, 164, 166, 171, 172, 173, 176, 177, 183, 187, 188, 189, 215, 247, 946, 966, 1548,
    1563, 1567, 1600, 1617, 1632, 1633, 1634, 1635, 1636, 1637, 1638, 1639, 1640, 1641, 1642, 8729,
    8730, 8734, 8776, 9472, 9474, 9484, 9488, 9492, 9496, 9500, 9508, 9516, 9524, 9532, 9618, 9632,
    65149, 65152, 65153, 65154, 65155, 65156, 65157, 65163, 65165, 65166, 65167, 65169, 65171,
    65173, 65175, 65177, 65179, 65181, 65183, 65185, 65187, 65189, 65191, 65193, 65195, 65197,
    65199, 65201, 65203, 65205, 65207, 65209, 65211, 65213, 65215, 65217, 65221, 65225, 65226,
    65227, 65228, 65229, 65230, 65231, 65232, 65233, 65235, 65237, 65239, 65241, 65243, 65245,
    65247, 65249, 65251, 65253, 65255, 65257, 65259, 65260, 65261, 65263, 65264, 65265, 65266,
    65267, 65269, 65270, 65271, 65272, 65275, 65276]

def canWrite (charset : Charset) (c : Char) : Bool :=
  match charset with
  | ascii => c.toNat < 0x80
  | latin1 => c.toNat < 0x100
  | cp1252 =>
    c.toNat < 0x80 || (0xA0 ≤ c.toNat && c.toNat < 0x100) || cp1252Extras.contains c.toNat
  -- the Arabic percent sign stands in the place of the plain one
  | cp864 => (c.toNat < 0x80 && c != '%') || cp864Extras.contains c.toNat
  | unicode => true

def canWriteAll (charset : Charset) (text : String) : Bool :=
  text.toList.all charset.canWrite

def hexDigits : Nat → Nat → List Char
  | 0, _ => []
  | places + 1, n => hexDigits places (n / 16) ++ [Nat.digitChar (n % 16)]

/-- A character by its number: `\xe9`, `\u2713`, `\U0001f600`. -/
def backslashed (c : Char) : List Char :=
  if c.toNat < 0x100 then '\\' :: 'x' :: hexDigits 2 c.toNat
  else if c.toNat < 0x10000 then '\\' :: 'u' :: hexDigits 4 c.toNat
  else '\\' :: 'U' :: hexDigits 8 c.toNat

/-- The text as it is written where a character that is not in the set is given by its number. -/
def spell (charset : Charset) (text : String) : String :=
  String.ofList (text.toList.flatMap fun c => if charset.canWrite c then [c] else backslashed c)

def names : List (String × Charset) :=
  [("ascii", ascii), ("us-ascii", ascii), ("646", ascii),
    ("latin-1", latin1), ("latin1", latin1), ("iso-8859-1", latin1), ("iso8859-1", latin1),
    ("l1", latin1), ("8859", latin1), ("cp819", latin1),
    ("cp1252", cp1252), ("windows-1252", cp1252), ("1252", cp1252),
    ("cp864", cp864), ("ibm864", cp864), ("864", cp864), ("csibm864", cp864)]

/-- The set that goes by a name; every other name is taken for one of the Unicode encodings. -/
def ofName (name : String) : Charset :=
  let plain := (Text.lower name).map fun c => if c = '_' then '-' else c
  ((names.find? (·.1 == plain)).map (·.2)).getD unicode

end Charset
end StaleQuery
