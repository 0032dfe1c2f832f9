import StaleQuery.Text.Blank
import StaleQuery.Text.Split
import StaleQuery.Text.Width

/-!
Breaking text into lines of a given width. A word carries the blanks after it and goes to the next
line if it does not fit without them. A word too long for any line is cut up, or, where a line may
be cut short, left to stand out and end in an ellipsis.
-/

namespace StaleQuery.Console

open Text (isBlank trimEnd)

/-- What to do with a word that is longer than a line. -/
inductive Overflow where
  | fold
  | ellipsis
  deriving DecidableEq, Repr

/-- Where text stands in a line that is wider; `none` leaves the line as long as its text. -/
inductive Justify where
  | none
  | left
  | right
  | center
  deriving DecidableEq, Repr

/-- A word with the blanks after it, and before it at the start of a text. -/
def readWord (cs : List Char) : List Char × List Char :=
  let lead := cs.takeWhile isBlank
  let rest := cs.drop lead.length
  let body := rest.takeWhile (!isBlank ·)
  let rest := rest.drop body.length
  let tail := rest.takeWhile isBlank
  (if body = [] then [] else lead ++ body ++ tail, rest.drop tail.length)

def words : Nat → List Char → List (List Char)
  | 0, _ => []
  | fuel + 1, cs =>
    match readWord cs with
    | ([], _) => []
    | (word, rest) => word :: words fuel rest

/-- Cuts a word into pieces that fit; `used` columns of the first piece are taken. -/
def chop (limit used : Nat) : List Char → List (List Char)
  | [] => [[]]
  | c :: rest =>
    let w := Text.columns c
    if limit < used + w then
      match chop limit w rest with
      | [] => [[], [c]]
      | piece :: pieces => [] :: (c :: piece) :: pieces
    else
      match chop limit (used + w) rest with
      | [] => [[c]]
      | piece :: pieces => (c :: piece) :: pieces

/-- The places at which the pieces of a word start, but for the very start of the text, and the width
of the last one. -/
def foldBreaks (start : Nat) : List (List Char) → List Nat × Nat
  | [] => ([], 0)
  | [piece] => (if start = 0 then [] else [start], Text.width piece)
  | piece :: pieces =>
    let (breaks, last) := foldBreaks (start + piece.length) pieces
    (if start = 0 then breaks else start :: breaks, last)

/-- Where lines start after the first one, given the place and the column reached. -/
def breaks (limit : Nat) (overflow : Overflow) (start column : Nat) : List (List Char) → List Nat
  | [] => []
  | word :: rest =>
    let bare := Text.width (trimEnd word)
    let next := start + word.length
    if column + bare ≤ limit then breaks limit overflow next (column + Text.width word) rest
    else if limit < bare then
      match overflow with
      | .fold =>
        let (places, last) := foldBreaks start (chop limit 0 word)
        places ++ breaks limit overflow next last rest
      | .ellipsis =>
        (if start = 0 then [] else [start]) ++
          breaks limit overflow next (Text.width word) rest
    else start :: breaks limit overflow next (Text.width word) rest

/-- Cuts a text at ascending places. -/
def cut (start : Nat) (cs : List Char) : List Nat → List (List Char)
  | [] => [cs]
  | place :: places =>
    cs.take (place - start) :: cut place (cs.drop (place - start)) places

/-- Takes blanks off the end as far as the line is too long. -/
def trimExcess (limit : Nat) (cs : List Char) : List Char :=
  let blanks := (cs.reverse.takeWhile isBlank).length
  cs.take (cs.length - min blanks (cs.length - limit))

/-- As many columns of a text as are asked for. Half of a wide character is a blank. -/
def takeColumns (limit : Nat) : List Char → List Char
  | [] => []
  | c :: rest =>
    let w := Text.columns c
    if w ≤ limit then c :: takeColumns (limit - w) rest else List.replicate limit ' '

def pad (limit : Nat) (cs : List Char) : List Char :=
  cs ++ List.replicate (limit - Text.width cs) ' '

/-- Cuts a line that is too long, with an ellipsis if asked for. -/
def truncate (overflow : Overflow) (limit : Nat) (cs : List Char) : List Char :=
  if Text.width cs ≤ limit then cs
  else
    match overflow with
    | .fold => takeColumns limit cs
    | .ellipsis => takeColumns (limit - 1) cs ++ ['…']

def justified (justify : Justify) (overflow : Overflow) (limit : Nat) (cs : List Char) :
    List Char :=
  match justify with
  | .none => truncate overflow limit cs
  | .left => pad limit (truncate overflow limit cs)
  | .right =>
    let line := truncate overflow limit (trimEnd cs)
    List.replicate (limit - Text.width line) ' ' ++ line
  | .center =>
    let line := truncate overflow limit (trimEnd cs)
    pad limit (List.replicate ((limit - Text.width line) / 2) ' ' ++ line)

/-- Fills each tabulator up to the next multiple of eight columns. -/
def expandTabs (column : Nat) : List Char → List Char
  | [] => []
  | c :: rest =>
    if c = '\t' then
      let next := column - column % 8 + 8
      List.replicate (next - column) ' ' ++ expandTabs next rest
    else c :: expandTabs (column + Text.columns c) rest

/-- Characters that would move the cursor are not printed. -/
def isControl (c : Char) : Bool :=
  [7, 8, 11, 12, 13].contains c.toNat

def dropControls (cs : List Char) : List Char :=
  cs.filter (!isControl ·)

structure Layout where
  limit : Nat
  overflow : Overflow := .fold
  justify : Justify := .none
  /-- Whether lines are broken at all. -/
  wraps : Bool := true

/-- The lines of a text. -/
def Layout.lines (layout : Layout) (cs : List Char) : List (List Char) :=
  (Text.splitAt '\n' cs).flatMap fun line =>
    let line := expandTabs 0 line
    let parts :=
      if layout.wraps then
        cut 0 line (breaks layout.limit layout.overflow 0 0 (words (line.length + 1) line))
      else [line]
    parts.map fun part =>
      justified layout.justify layout.overflow layout.limit (trimExcess layout.limit part)

end StaleQuery.Console
