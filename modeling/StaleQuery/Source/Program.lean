import StaleQuery.Source.Linkage

/-!
Whole programs. The rules of the grammar refer to one another through `Goal`; here the knot is
tied. Each turn through it lowers a bound that no program of the given length can exhaust.
-/

namespace StaleQuery.Source

open Source.Parser

/-- The grammar with at most `depth` rules open at a time. -/
def grammar : Nat → Grammar
  | 0, _ => failure
  | depth + 1, goal =>
    let self := grammar depth
    match goal with
    | .expression allowIn => expression self allowIn
    | .sequence allowIn => sequence self allowIn
    | .operators least allowIn => operators self least allowIn
    | .unary => unary self
    | .access => access self
    | .construction => construction self
    | .statement => statement self
    | .block => block self
    | .pattern => pattern self
    | .type => type self
    | .element => element self

/-- A line `#!…` at the very start. -/
def hashBang : Parser (List Tree) := do
  let input ← input
  if startsWith input.bytes "#!" 0 then
    let stop := lineEnd input.bytes (input.bytes.size + 1) 0
    jump stop
    return [input.leaf "hash_bang_line" 0 stop ""]
  else return []

def program (self : Grammar) : Parser Tree := do
  let first ← hashBang
  let body ← whileM (return (← token) != .eof) (return [← self .statement])
  advance (← start)
  node "program" 0 (first ++ body)

/-- The tree of a source text, if it is a program of the dialect. -/
def parse? (dialect : Dialect) (bytes : ByteArray) : Option Tree :=
  let input := Input.ofBytes dialect bytes
  let depth := 8 * (bytes.size + 4)
  (program (grammar depth) input (input.cursorAt 0 [])).map (·.1)

/-- The tree of a source text; a text that is no program is one `ERROR` node. -/
def parse (dialect : Dialect) (bytes : ByteArray) : Tree :=
  (parse? dialect bytes).getD ((Input.ofBytes dialect bytes).leaf "ERROR" 0 bytes.size "")

end StaleQuery.Source
