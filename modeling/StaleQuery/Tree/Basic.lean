/-!
Concrete syntax trees as a grammar hands them over. A node has a kind, an optional field name
under its parent, a flag that tells named nodes from punctuation, a zero-based range of lines
and byte columns, and the text it covers.
-/

namespace StaleQuery

structure Point where
  row : Nat
  column : Nat
  deriving DecidableEq, Repr, Inhabited

structure Range where
  start : Point
  stop : Point
  deriving DecidableEq, Repr, Inhabited

/-- All of a node but its children. -/
structure Label where
  kind : String
  field : Option String
  named : Bool
  range : Range
  text : String
  deriving DecidableEq, Repr, Inhabited

inductive Tree where
  | node (label : Label) (children : List Tree)
  deriving Repr

namespace Tree

def label : Tree → Label
  | node label _ => label

def children : Tree → List Tree
  | node _ children => children

def kind (t : Tree) : String := t.label.kind
def field (t : Tree) : Option String := t.label.field
def named (t : Tree) : Bool := t.label.named
def range (t : Tree) : Range := t.label.range
def text (t : Tree) : String := t.label.text

instance : Inhabited Tree := ⟨node default []⟩

def namedChildren (t : Tree) : List Tree :=
  t.children.filter (·.named)

/-- The named children that are not comments. -/
def operands (t : Tree) : List Tree :=
  t.namedChildren.filter (·.kind != "comment")

def operand? (t : Tree) : Option Tree :=
  t.operands.head?

/-- The first child under a field, named or not. -/
def child? (t : Tree) (field : String) : Option Tree :=
  t.children.find? (·.field == some field)

/-- The same node under a field of its parent. -/
def under (t : Tree) (field : String) : Tree :=
  node { t.label with field := some field } t.children

mutual
/-- Number of nodes. -/
def size : Tree → Nat
  | node _ children => sizes children + 1

def sizes : List Tree → Nat
  | [] => 0
  | t :: rest => t.size + sizes rest
end

@[simp] theorem size_node (label : Label) (children : List Tree) :
    (node label children).size = sizes children + 1 := by
  simp [size]

@[simp] theorem sizes_nil : sizes [] = 0 := by
  simp [sizes]

@[simp] theorem sizes_cons (t : Tree) (rest : List Tree) :
    sizes (t :: rest) = t.size + sizes rest := by
  simp [sizes]

@[simp] theorem sizes_append (s t : List Tree) : sizes (s ++ t) = sizes s + sizes t := by
  induction s with
  | nil => simp
  | cons _ _ ih => simp [ih, Nat.add_assoc]

theorem sizes_filter_le (p : Tree → Bool) (s : List Tree) : sizes (s.filter p) ≤ sizes s := by
  induction s with
  | nil => simp
  | cons t rest ih =>
    by_cases h : p t
    · simp [h]; omega
    · simp [h]; omega

theorem sizes_namedChildren_lt (t : Tree) : sizes t.namedChildren < t.size := by
  obtain ⟨label, children⟩ := t
  have := sizes_filter_le (·.named) children
  simp [namedChildren, Tree.children]
  omega

/-- One line of a flat listing: a node and the line of its parent. -/
structure Row where
  parent : Option Nat
  label : Label
  deriving Repr, Inhabited

/-- The subtree at each line of a listing in which parents come before their children. Lines are
taken from the last to the first, so all children of a node are complete when it is reached. -/
def ofRows (rows : Array Row) : Array Tree :=
  let step := fun (i : Nat) (state : Array (List Tree) × Array Tree) =>
    let (pending, done) := state
    let row := rows.getD i default
    let t := node row.label (pending.getD i [])
    let pending := match row.parent with
      | some p => pending.modify p (t :: ·)
      | none => pending
    (pending, done.setIfInBounds i t)
  let empty := (Array.replicate rows.size [], Array.replicate rows.size default)
  ((List.range rows.size).foldr step empty).2

end Tree
end StaleQuery
