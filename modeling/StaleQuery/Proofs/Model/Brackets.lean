import StaleQuery.Proofs.Model.Chains

/-!
# Trees with parentheses put into them

A tree and the places where it gets parentheses, from which both the tree without them and the tree
with them can be read. Parentheses go around expressions and into places of operands. Whatever is read
of a node, by field, by kind or by position, is then found in both trees, and a chain is optional in
both or in neither.
-/
namespace StaleQuery

/-- What a pair of parentheses brings into a tree: a node, and whatever stands in it on either side of
what is enclosed. -/
structure Parens where
  range : Range
  text : String
  before : List Tree
  after : List Tree

namespace Tree

/-- The same node under no field. -/
def loose (t : Tree) : Tree :=
  node { t.label with field := none } t.children

def isOperand (t : Tree) : Bool :=
  t.named && t.kind != "comment"

/-- A named node that is neither a comment nor the mark of an optional link. -/
def IsExpression (t : Tree) : Prop :=
  t.isOperand = true ∧ t.kind ≠ "optional_chain"

instance (t : Tree) : Decidable t.IsExpression :=
  inferInstanceAs (Decidable (_ ∧ _))

/-- No link of the chain that ends here is optional. -/
def Unmarked (t : Tree) : Prop :=
  ∀ link ∈ t.spine, link.hasOptionalMark = false

theorem unmarked_iff {t : Tree} : t.Unmarked ↔ t.inOptionalChain = false := by
  rw [← Bool.not_eq_true, inOptionalChain_iff, Unmarked]
  simp

theorem operands_eq (t : Tree) : t.operands = t.children.filter isOperand := by
  rw [operands, namedChildren, List.filter_filter]
  congr 1
  funext c
  exact Bool.and_comm _ _

end Tree

namespace Parens

/-- Nothing but tokens and comments stands beside what is enclosed. -/
def Clean (p : Parens) : Prop :=
  ∀ s ∈ p.before ++ p.after, s.isOperand = false

instance (p : Parens) : Decidable p.Clean :=
  inferInstanceAs (Decidable (∀ s ∈ p.before ++ p.after, _))

/-- The node in parentheses. They take its place under the node above. -/
def around (p : Parens) (t : Tree) : Tree :=
  .node ⟨"parenthesized_expression", t.field, true, p.range, p.text⟩
    (p.before ++ t.loose :: p.after)

/-- The node in several pairs of parentheses, of which the first is the outermost. -/
def enclose (list : List Parens) (t : Tree) : Tree :=
  list.foldr around t

variable {p : Parens} {t : Tree}

theorem operand?_around (hp : p.Clean) (ht : t.isOperand = true) :
    (p.around t).operand? = some t.loose := by
  have hbefore : p.before.filter Tree.isOperand = [] := by
    rw [List.filter_eq_nil_iff]
    intro s hs
    simp [hp s (List.mem_append_left _ hs)]
  have hloose : t.loose.isOperand = true := ht
  have hchildren : (p.around t).children = p.before ++ t.loose :: p.after := rfl
  rw [Tree.operand?, Tree.operands_eq, hchildren, List.filter_append, hbefore, List.nil_append,
    List.filter_cons_of_pos hloose, List.head?_cons]

theorem isOperand_enclose (ht : t.isOperand = true) (list : List Parens) :
    (enclose list t).isOperand = true := by
  cases list with
  | nil => exact ht
  | cons p rest => rfl

end Parens

/-- Kinds in which every operand is lowered as it is. -/
def operandKinds : List String :=
  ["arguments", "await_expression", "expression_statement", "parenthesized_expression"]

/-- Kinds with a field under which an operand is lowered as it is. -/
def operandFields : List (String × String) :=
  [("call_expression", "function"), ("member_expression", "object"),
    ("subscript_expression", "object"), ("subscript_expression", "index"),
    ("arrow_function", "body"), ("function_expression", "body"), ("function", "body"),
    ("generator_function", "body"), ("method_definition", "body"),
    ("variable_declarator", "value"), ("pair", "value")]

/-- Whether an operand that lowering goes into stands under this field of a node. -/
def holdsOperand (kind : String) (field : Option String) : Bool :=
  operandKinds.contains kind || field.any fun name => operandFields.contains (kind, name)

/-- Forms that look at the kinds of their children. -/
def Form.readsKinds : Form → Bool
  | conditional | tryCatch | declaration | objectPattern | object => true
  | _ => false

theorem holdsOperand_of_readsKinds {kind : String} (h : (Form.ofKind kind).readsKinds = true)
    (field : Option String) : holdsOperand kind field = false := by
  cases field with
  | none =>
    unfold Form.ofKind at h
    split at h <;> simp_all [Form.readsKinds, holdsOperand, operandKinds]
  | some name =>
    unfold Form.ofKind at h
    split at h <;> simp_all [Form.readsKinds, holdsOperand, operandKinds, operandFields]

theorem holdsOperand_arguments {kind : String} (h : Form.ofKind kind = .call) :
    holdsOperand kind (some "arguments") = false := by
  unfold Form.ofKind at h
  split at h <;> simp_all [holdsOperand, operandKinds, operandFields]

/-- A tree and where parentheses are put into it. The text of a node changes with what is put into
it. -/
inductive Bracketing where
  | node (label : Label) (text : String) (children : List Bracketing)
  | enclosed (parens : Parens) (inner : Bracketing)

namespace Bracketing

mutual
/-- The tree without the parentheses. -/
def plain : Bracketing → Tree
  | node label _ children => .node label (plains children)
  | enclosed _ inner => inner.plain

def plains : List Bracketing → List Tree
  | [] => []
  | r :: rest => r.plain :: plains rest
end

mutual
/-- The tree with the parentheses. -/
def full : Bracketing → Tree
  | node label text children => .node { label with text } (fulls children)
  | enclosed parens inner => parens.around inner.full

def fulls : List Bracketing → List Tree
  | [] => []
  | r :: rest => r.full :: fulls rest
end

/-- The label in the tree without the parentheses. -/
def label : Bracketing → Label
  | node label .. => label
  | enclosed _ inner => inner.label

def kind (r : Bracketing) : String := r.label.kind
def field (r : Bracketing) : Option String := r.label.field

def isOperand (r : Bracketing) : Bool :=
  r.label.named && r.kind != "comment"

def IsNode : Bracketing → Prop
  | node .. => True
  | enclosed .. => False

def children : Bracketing → List Bracketing
  | node _ _ children => children
  | enclosed .. => []

def operands (r : Bracketing) : List Bracketing :=
  r.children.filter isOperand

def operand? (r : Bracketing) : Option Bracketing :=
  r.operands.head?

def child? (r : Bracketing) (field : String) : Option Bracketing :=
  r.children.find? (·.field == some field)

/-- Parentheses are put around expressions, in places of operands; and where a chain goes on, around
nothing that ends in an optional chain. Only texts that are not read may change. -/
inductive Admissible : Bracketing → Prop where
  | node {label text children} : (Form.ofKind label.kind = .identifier → text = label.text) →
      (∀ c ∈ children, Admissible c) →
      (∀ c ∈ children, ¬ c.IsNode → holdsOperand label.kind c.field = true) →
      (∀ c ∈ children, ¬ c.IsNode → ∀ field, (Form.ofKind label.kind).spineField? = some field →
        c.field = some field → c.plain.Unmarked) →
      Admissible (node label text children)
  | enclosed {parens inner} : parens.Clean → inner.plain.IsExpression → Admissible inner →
      Admissible (enclosed parens inner)

/-- The nodes that both trees have in common, and those that were enclosed. -/
inductive PartOf (s : Bracketing) : Bracketing → Prop where
  | here : PartOf s s
  | child {r c} : c ∈ r.children → PartOf s c → PartOf s r
  | inside {parens r} : PartOf s r → PartOf s (enclosed parens r)

theorem Admissible.part {r s : Bracketing} (h : r.Admissible) (hs : s.PartOf r) : s.Admissible := by
  induction hs with
  | here => exact h
  | child hc _ ih =>
    cases h with
    | node _ hbelow _ _ => exact ih (hbelow _ hc)
    | enclosed => cases hc
  | inside _ ih =>
    cases h with
    | enclosed _ _ hinner => exact ih hinner

/-! What can be read of the two trees -/

theorem label_plain : ∀ r : Bracketing, r.plain.label = r.label
  | node .. => rfl
  | enclosed _ inner => label_plain inner

theorem field_full : ∀ r : Bracketing, r.full.field = r.field
  | node .. => rfl
  | enclosed _ inner => field_full inner

theorem kind_plain (r : Bracketing) : r.plain.kind = r.kind := by
  rw [Tree.kind, label_plain, kind]

theorem field_plain (r : Bracketing) : r.plain.field = r.field := by
  rw [Tree.field, label_plain, field]

theorem isOperand_plain (r : Bracketing) : r.plain.isOperand = r.isOperand := by
  rw [Tree.isOperand, Tree.named, kind_plain, label_plain, isOperand]

theorem plains_eq (list : List Bracketing) : plains list = list.map plain := by
  induction list with
  | nil => rfl
  | cons r rest ih => rw [plains, ih, List.map_cons]

theorem fulls_eq (list : List Bracketing) : fulls list = list.map full := by
  induction list with
  | nil => rfl
  | cons r rest ih => rw [fulls, ih, List.map_cons]

theorem full_of_not_isNode {r : Bracketing} (h : ¬ r.IsNode) :
    ∃ parens inner, r.full = Parens.around parens inner := by
  cases r with
  | node => exact absurd trivial h
  | enclosed parens inner => exact ⟨parens, inner.full, rfl⟩

theorem Admissible.isExpression {r : Bracketing} (h : r.Admissible) (hr : ¬ r.IsNode) :
    r.plain.IsExpression := by
  cases h with
  | node => exact absurd trivial hr
  | enclosed _ hexpression _ => exact hexpression

theorem Admissible.isOperand_full {r : Bracketing} (h : r.Admissible) :
    r.full.isOperand = r.isOperand := by
  by_cases hr : r.IsNode
  · cases r with
    | node => rfl
    | enclosed => exact hr.elim
  · obtain ⟨parens, inner, hfull⟩ := full_of_not_isNode hr
    rw [hfull, ← isOperand_plain, (h.isExpression hr).1]
    rfl

section

variable {r : Bracketing} (h : r.IsNode)
include h

theorem kind_full : r.full.kind = r.kind := by
  cases r with
  | node => rfl
  | enclosed => exact h.elim

theorem span_full : r.full.span = r.plain.span := by
  cases r with
  | node => rfl
  | enclosed => exact h.elim

theorem children_plain : r.plain.children = r.children.map plain := by
  cases r with
  | node => exact plains_eq _
  | enclosed => exact h.elim

theorem children_full : r.full.children = r.children.map full := by
  cases r with
  | node => exact fulls_eq _
  | enclosed => exact h.elim

theorem child?_plain (field : String) : r.plain.child? field = (r.child? field).map plain := by
  rw [Tree.child?, children_plain h, List.find?_map, child?]
  simp only [Function.comp_def, field_plain]

theorem child?_full (field : String) : r.full.child? field = (r.child? field).map full := by
  rw [Tree.child?, children_full h, List.find?_map, child?]
  simp only [Function.comp_def, field_full]

theorem operands_plain : r.plain.operands = r.operands.map plain := by
  rw [Tree.operands_eq, children_plain h, List.filter_map, operands]
  simp only [Function.comp_def, isOperand_plain]

theorem operand?_plain : r.plain.operand? = r.operand?.map plain := by
  rw [Tree.operand?, operands_plain h, List.head?_map, operand?]

end

namespace Admissible

variable {r : Bracketing} (h : r.Admissible)
include h

theorem of_mem_children : ∀ c ∈ r.children, c.Admissible := by
  cases h with
  | node _ hbelow _ _ => exact hbelow
  | enclosed => exact fun c hc => by cases hc

theorem of_child? {c : Bracketing} {field : String} (hc : r.child? field = some c) :
    c.Admissible :=
  h.of_mem_children c (List.mem_of_find?_eq_some hc)

theorem of_mem_operands {c : Bracketing} (hc : c ∈ r.operands) : c.Admissible :=
  h.of_mem_children c (List.mem_filter.mp hc).1

theorem of_operand? {c : Bracketing} (hc : r.operand? = some c) : c.Admissible :=
  h.of_mem_operands (List.mem_of_mem_head? hc)

/-- What stands in no place of an operand has no parentheses around it. -/
theorem isNode_of_mem {c : Bracketing} (hc : c ∈ r.children)
    (hno : holdsOperand r.kind c.field = false) : c.IsNode := by
  cases h with
  | node _ _ hplaces _ =>
    by_contra hwrapped
    exact absurd (hno.symm.trans (hplaces c hc hwrapped)) Bool.false_ne_true
  | enclosed => cases hc

theorem isNode_of_child? {c : Bracketing} {field : String} (hc : r.child? field = some c)
    (hno : holdsOperand r.kind (some field) = false) : c.IsNode := by
  have hfield : c.field = some field := by simpa using List.find?_some hc
  exact h.isNode_of_mem (List.mem_of_find?_eq_some hc) (hfield ▸ hno)

theorem isNode_of_mem_operands {c : Bracketing} (hreads : (Form.ofKind r.kind).readsKinds = true)
    (hc : c ∈ r.operands) : c.IsNode :=
  h.isNode_of_mem (List.mem_filter.mp hc).1 (holdsOperand_of_readsKinds hreads _)

theorem operands_full (hnode : r.IsNode) : r.full.operands = r.operands.map full := by
  rw [Tree.operands_eq, children_full hnode, List.filter_map, operands]
  congr 1
  apply List.filter_congr
  intro c hc
  exact (h.of_mem_children c hc).isOperand_full

theorem operand?_full (hnode : r.IsNode) : r.full.operand? = r.operand?.map full := by
  rw [Tree.operand?, h.operands_full hnode, List.head?_map, operand?]

theorem text_full (hnode : r.IsNode) (hform : Form.ofKind r.kind = .identifier) :
    r.full.text = r.plain.text := by
  cases h with
  | node htext _ _ _ => exact htext hform
  | enclosed => exact hnode.elim

theorem hasOptionalMark_full (hnode : r.IsNode) :
    r.full.hasOptionalMark = r.plain.hasOptionalMark := by
  rw [Tree.hasOptionalMark, Tree.hasOptionalMark, children_full hnode, children_plain hnode,
    List.any_map, List.any_map, Bool.eq_iff_iff, List.any_eq_true, List.any_eq_true]
  refine exists_congr fun c => and_congr_right fun hc => ?_
  rw [Function.comp_apply, Function.comp_apply]
  by_cases hcnode : c.IsNode
  · rw [kind_full hcnode, kind_plain]
  · obtain ⟨parens, inner, hfull⟩ := full_of_not_isNode hcnode
    have hkind := ((h.of_mem_children c hc).isExpression hcnode).2
    have hno : (c.plain.kind == "optional_chain") = false := by simpa using hkind
    rw [hfull, hno]
    rfl

end Admissible

/-- A chain is optional with and without the parentheses, or neither way. -/
theorem Admissible.inOptionalChain_full {r : Bracketing} (h : r.Admissible) (hnode : r.IsNode) :
    r.full.inOptionalChain = r.plain.inOptionalChain := by
  induction h with
  | @node label text children htext hbelow hplaces hspine ih =>
    have hr : (Bracketing.node label text children).Admissible := .node htext hbelow hplaces hspine
    rw [Tree.inOptionalChain_eq, Tree.inOptionalChain_eq (plain _), hr.hasOptionalMark_full hnode]
    have hform : (Bracketing.node label text children).full.form =
        (Bracketing.node label text children).plain.form := rfl
    rw [hform]
    cases hfield : (Bracketing.node label text children).plain.form.spineField? with
    | none => rfl
    | some field =>
      simp only [child?_full hnode, child?_plain hnode]
      cases hc : (Bracketing.node label text children).child? field with
      | none => rfl
      | some c =>
        have hmem : c ∈ children := List.mem_of_find?_eq_some hc
        have hunder : c.field = some field := by simpa using List.find?_some hc
        simp only [Option.map_some, Option.any_some]
        by_cases hcnode : c.IsNode
        · rw [ih c hmem hcnode]
        · -- parentheses end the chain, which had no optional link from here down
          obtain ⟨parens, inner, hfull⟩ := full_of_not_isNode hcnode
          rw [hfull, Tree.unmarked_iff.mp (hspine c hmem hcnode field hfield hunder)]
          rfl
  | enclosed => exact hnode.elim

end Bracketing

end StaleQuery
