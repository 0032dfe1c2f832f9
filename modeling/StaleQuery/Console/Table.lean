import StaleQuery.Console.Wrap
import StaleQuery.Number.Rounding

/-!
Tables. Each column is as wide as its widest cell with a blank on either side. Where the table is
too wide for the terminal, the widest columns that may be broken into lines give way first, and
then all of them evenly.
-/

namespace StaleQuery.Console

/-- The characters of a border: left end, filling, divider and right end. -/
structure Border where
  left : Char
  fill : Char
  divider : Char
  right : Char
  deriving DecidableEq, Repr

/-- The lines around a table, below its head, and those that stand beside cells. -/
structure Frame where
  top : Border
  head : Border
  headRule : Border
  body : Border
  bottom : Border
  deriving DecidableEq, Repr

namespace Frame

def heavyHead : Frame :=
  { top := ⟨'┏', '━', '┳', '┓'⟩
    head := ⟨'┃', ' ', '┃', '┃'⟩
    headRule := ⟨'┡', '━', '╇', '┩'⟩
    body := ⟨'│', ' ', '│', '│'⟩
    bottom := ⟨'└', '─', '┴', '┘'⟩ }

def square : Frame :=
  { top := ⟨'┌', '─', '┬', '┐'⟩
    head := ⟨'│', ' ', '│', '│'⟩
    headRule := ⟨'├', '─', '┼', '┤'⟩
    body := ⟨'│', ' ', '│', '│'⟩
    bottom := ⟨'└', '─', '┴', '┘'⟩ }

def ascii : Frame :=
  { top := ⟨'+', '-', '-', '+'⟩
    head := ⟨'|', ' ', '|', '|'⟩
    headRule := ⟨'|', '-', '+', '|'⟩
    body := ⟨'|', ' ', '|', '|'⟩
    bottom := ⟨'+', '-', '-', '+'⟩ }

end Frame

structure Column where
  header : String
  justify : Justify := .left
  wraps : Bool := true

structure Table where
  title : List Char
  columns : List Column
  rows : List (List (List Char))
  /-- With a frame there is also a head of column names. -/
  frame : Option Frame

namespace Table

/-- The cells of a column from top to bottom. -/
def cells (t : Table) (i : Nat) : List (List Char) :=
  let head := match t.frame with
    | some _ => [((t.columns[i]?).map (·.header.toList)).getD []]
    | none => []
  head ++ t.rows.map fun row => (row[i]?).getD []

/-- The width of the longest line of a cell. -/
def cellWidth (cs : List Char) : Nat :=
  ((Text.splitAt '\n' cs).map Text.width).foldl max 0

/-- How wide a column would be with its blanks, if there is room for `limit`. -/
def columnWidth (t : Table) (limit i : Nat) : Nat :=
  if limit < 3 then limit
  else min limit (((t.cells i).map fun cs => min limit (cellWidth cs) + 2).foldl max 0)

def total (widths : List Nat) : Nat :=
  widths.foldl (· + ·) 0

/-- Takes `amount` away from those widths that may give, each in turn its share of what is left but
no more than its limit. -/
def reduce (amount parts : Nat) : List (Nat × Bool × Nat) → List Nat
  | [] => []
  | (width, gives, most) :: rest =>
    if gives && parts > 0 then
      let taken := min most (Number.roundDiv amount parts)
      (width - taken) :: reduce (amount - taken) (parts - 1) rest
    else width :: reduce amount parts rest

def reduceAll (amount : Nat) (columns : List (Nat × Bool × Nat)) : List Nat :=
  let columns := columns.map fun (width, gives, most) => (width, gives && most > 0, most)
  let parts := (columns.filter (·.2.1)).length
  if parts = 0 then columns.map (·.1) else reduce amount parts columns

/-- Narrows the widest columns that may be broken down to the next widest, until all fits. -/
def collapse (limit : Nat) : Nat → List (Nat × Bool) → List Nat
  | 0, columns => columns.map (·.1)
  | fuel + 1, columns =>
    let sum := total (columns.map (·.1))
    if sum ≤ limit then columns.map (·.1)
    else
      let flexible := (columns.filter (·.2)).map (·.1)
      let widest := flexible.foldl max 0
      let second := (flexible.filter (· ≠ widest)).foldl max 0
      if widest = second then columns.map (·.1)
      else
        let excess := sum - limit
        let most := min excess (widest - second)
        let widths := reduceAll excess
          (columns.map fun (width, wraps) => (width, wraps && width == widest, most))
        collapse limit fuel (widths.zip (columns.map (·.2)))

/-- The widths of the columns in a table of at most `limit` columns of the terminal, borders not
counted. -/
def widths (t : Table) (limit : Nat) : List Nat :=
  let places := List.range t.columns.length
  let natural := places.map fun i => max 1 (t.columnWidth limit i)
  if total natural ≤ limit then natural
  else
    let narrowed := collapse limit (total natural + 1) (natural.zip (t.columns.map (·.wraps)))
    let narrowed :=
      if total narrowed ≤ limit then narrowed
      else reduceAll (total narrowed - limit) (narrowed.map fun w => (w, true, w))
    (places.zip narrowed).map fun (i, w) => t.columnWidth w i

/-- Columns that the borders take. -/
def borderWidth (t : Table) : Nat :=
  match t.frame with
  | some _ => 2 + (t.columns.length - 1)
  | none => 0

def borderLine (border : Border) (widths : List Nat) : List Char :=
  let fills := widths.map fun w => List.replicate w border.fill
  border.left :: ([border.divider].intercalate fills ++ [border.right])

/-- The lines of one cell, each as wide as its column. A column of blanks alone shows nothing. -/
def cellLines (column : Column) (w : Nat) (cs : List Char) : List (List Char) :=
  if w ≤ 2 then [] else
  let layout : Layout :=
    { limit := w - 2, overflow := .ellipsis, justify := column.justify, wraps := column.wraps }
  (layout.lines cs).map fun line =>
    ' ' :: pad (w - 2) (takeColumns (w - 2) line) ++ [' ']

/-- Joins the cells of a row line by line; short cells are filled up below, or above in the head. -/
def rowLines (border : Option Border) (isHead : Bool) (widths : List Nat)
    (cells : List (List (List Char))) : List (List Char) :=
  let height := (cells.map List.length).foldl max 1
  let filled := (widths.zip cells).map fun (w, lines) =>
    let blanks := List.replicate (height - lines.length) (List.replicate w ' ')
    if isHead then blanks ++ lines else lines ++ blanks
  (List.range height).map fun i =>
    let parts := filled.map fun lines => (lines[i]?).getD []
    match border with
    | some b => b.left :: ([b.divider].intercalate parts ++ [b.right])
    | none => parts.flatten

/-- A row from its cells. -/
def row (t : Table) (border : Option Border) (isHead : Bool) (widths : List Nat)
    (cells : List (List Char)) : List (List Char) :=
  rowLines border isHead widths
    ((t.columns.zip (widths.zip cells)).map fun (column, w, cs) => cellLines column w cs)

def heads (t : Table) : List (List Char) :=
  t.columns.map fun column => column.header.toList

/-- The lines of a table on a terminal of a width. -/
def lines (t : Table) (terminal : Nat) : List (List Char) :=
  let widths := t.widths (terminal - t.borderWidth)
  let title : Layout := { limit := total widths + t.borderWidth, justify := .center }
  let titleLines := if t.title = [] then [] else title.lines t.title
  let body (border : Option Border) := t.rows.flatMap (t.row border false widths)
  let all := match t.frame with
    | none => titleLines ++ body none
    | some frame =>
      titleLines ++ [borderLine frame.top widths] ++
        t.row (some frame.head) true widths t.heads ++
        [borderLine frame.headRule widths] ++ body (some frame.body) ++
        [borderLine frame.bottom widths]
  all.map (takeColumns terminal)

end Table
end StaleQuery.Console
