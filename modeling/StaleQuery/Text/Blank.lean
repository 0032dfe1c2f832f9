import StaleQuery.Text.Ranges

/-!
Blank characters and trimming. Blank are the characters that Unicode calls white space and the
four separators U+001C to U+001F; a zero-width space is not.
-/

namespace StaleQuery.Text

/-- White space, from the tabulator to the ideographic space. -/
def blankRanges : List (Nat × Nat) := [
    (9, 13), (28, 32), (133, 133), (160, 160), (5760, 5760), (8192, 8202), (8232, 8233),
    (8239, 8239), (8287, 8287), (12288, 12288)]

def isBlank (c : Char) : Bool :=
  within blankRanges c

def trimStart (cs : List Char) : List Char :=
  cs.dropWhile isBlank

def trimEnd (cs : List Char) : List Char :=
  (cs.reverse.dropWhile isBlank).reverse

/-- The text without the blanks at its two ends. -/
def trim (s : String) : String :=
  String.ofList (trimEnd (trimStart s.toList))

end StaleQuery.Text
