import StaleQuery.Model.Lowering

/-!
# Sealed parts are not read

Two trees that differ only below nodes of sealed kinds are one tree of which some parts were
rewritten. Whatever lowering reads of a node, by field, by kind or by position, is the same in both
versions, and so are the models. The kinds that are sealed by themselves but opened by the node above
them are no such parts, and neither is the handler of a `try`.
-/
namespace StaleQuery

/-- Kinds that are lowered together with the node above. -/
def readByParent : List String :=
  ["arguments", "else_clause", "pair", "pair_pattern", "method_definition",
    "object_assignment_pattern", "computed_property_name"]

/-- A kind that is sealed wherever it stands. -/
def Label.IsSealed (label : Label) : Prop :=
  Form.ofKind label.kind = .other ∧ label.kind ∉ readByParent

instance (label : Label) : Decidable label.IsSealed :=
  inferInstanceAs (Decidable (_ ∧ _))

theorem Form.kind_of_tryCatch {kind : String} (h : ofKind kind = .tryCatch) :
    kind = "try_statement" := by
  unfold ofKind at h
  split at h <;> simp_all

inductive Version where
  | old
  | new
  deriving DecidableEq, Repr

def Version.pick {α : Type} : Version → α → α → α
  | old, a, _ => a
  | new, _, b => b

/-- A tree in two versions. A node that was kept has the same place in both, though perhaps not the
same text; below one that was rewritten each version has children of its own. -/
inductive Revision where
  | kept (label : Label) (text : String) (children : List Revision)
  | rewritten (label : Label) (text : String) (old new : List Tree)

namespace Revision

/-- The label in the old version. -/
def label : Revision → Label
  | kept label .. | rewritten label .. => label

def kind (r : Revision) : String := r.label.kind
def field (r : Revision) : Option String := r.label.field
def named (r : Revision) : Bool := r.label.named

def IsKept : Revision → Prop
  | kept .. => True
  | rewritten .. => False

mutual
/-- One of the two versions. -/
def tree (v : Version) : Revision → Tree
  | kept label text children =>
    .node { label with text := v.pick label.text text } (trees v children)
  | rewritten label text old new =>
    .node { label with text := v.pick label.text text } (v.pick old new)

def trees (v : Version) : List Revision → List Tree
  | [] => []
  | r :: rest => r.tree v :: trees v rest
end

/-- What two versions have in common below a node. -/
def children : Revision → List Revision
  | kept _ _ children => children
  | rewritten .. => []

def namedChildren (r : Revision) : List Revision :=
  r.children.filter (·.named)

def operands (r : Revision) : List Revision :=
  r.namedChildren.filter (·.kind != "comment")

def operand? (r : Revision) : Option Revision :=
  r.operands.head?

def child? (r : Revision) (field : String) : Option Revision :=
  r.children.find? (·.field == some field)

/-- The rewriting is confined to sealed kinds, and to the text of nodes that are not read by their
text. The handler of a `try` is opened whatever its kind. -/
inductive Admissible : Revision → Prop where
  | kept {label text children} : (Form.ofKind label.kind = .identifier → text = label.text) →
      (∀ c ∈ children, Admissible c) →
      (label.kind = "try_statement" → ∀ c ∈ children, c.field = some "handler" → c.IsKept) →
      Admissible (kept label text children)
  | rewritten {label text old new} : label.IsSealed → Admissible (rewritten label text old new)

/-! What can be read of a version -/

section

variable (v : Version) (r : Revision)

theorem trees_eq (list : List Revision) : trees v list = list.map (tree v) := by
  induction list with
  | nil => rfl
  | cons r rest ih => rw [trees, ih, List.map_cons]

@[simp] theorem kind_tree : (r.tree v).kind = r.kind := by
  cases r <;> rfl

@[simp] theorem field_tree : (r.tree v).field = r.field := by
  cases r <;> rfl

@[simp] theorem named_tree : (r.tree v).named = r.named := by
  cases r <;> rfl

theorem form_tree : (r.tree v).form = Form.ofKind r.kind := by
  rw [Tree.form, kind_tree]

theorem span_tree (w : Version) : (r.tree v).span = (r.tree w).span := by
  cases r <;> rfl

end

section

variable {r : Revision} (h : r.IsKept) (v : Version)
include h

theorem children_tree : (r.tree v).children = r.children.map (tree v) := by
  cases r with
  | kept => exact trees_eq v _
  | rewritten => exact h.elim

theorem child?_tree (field : String) :
    (r.tree v).child? field = (r.child? field).map (tree v) := by
  rw [Tree.child?, children_tree h, List.find?_map, child?]
  simp only [Function.comp_def, field_tree]

theorem namedChildren_tree : (r.tree v).namedChildren = r.namedChildren.map (tree v) := by
  rw [Tree.namedChildren, children_tree h, List.filter_map, namedChildren]
  simp only [Function.comp_def, named_tree]

theorem operands_tree : (r.tree v).operands = r.operands.map (tree v) := by
  rw [Tree.operands, namedChildren_tree h, List.filter_map, operands]
  simp only [Function.comp_def, kind_tree]

theorem operand?_tree : (r.tree v).operand? = r.operand?.map (tree v) := by
  rw [Tree.operand?, operands_tree h, List.head?_map, operand?]

end

namespace Admissible

variable {r : Revision} (h : r.Admissible)
include h

theorem of_mem_children : ∀ c ∈ r.children, c.Admissible := by
  cases h with
  | kept _ hbelow _ => exact hbelow
  | rewritten => exact fun c hc => by cases hc

theorem of_child? {c : Revision} {field : String} (hc : r.child? field = some c) :
    c.Admissible :=
  h.of_mem_children c (List.mem_of_find?_eq_some hc)

theorem of_mem_operands {c : Revision} (hc : c ∈ r.operands) : c.Admissible :=
  h.of_mem_children c (List.mem_filter.mp (List.mem_filter.mp hc).1).1

theorem of_operand? {c : Revision} (hc : r.operand? = some c) : c.Admissible :=
  h.of_mem_operands (List.mem_of_mem_head? hc)

theorem isKept (hopen : ¬ r.label.IsSealed) : r.IsKept := by
  cases h with
  | kept => trivial
  | rewritten hsealed => exact absurd hsealed hopen

theorem isKept_of_form (hform : Form.ofKind r.kind ≠ .other) : r.IsKept :=
  h.isKept fun hsealed => hform hsealed.1

theorem isKept_of_read (hkind : r.kind ∈ readByParent) : r.IsKept :=
  h.isKept fun hsealed => hsealed.2 hkind

theorem isKept_of_handler {c : Revision} (hkind : r.kind = "try_statement")
    (hc : r.child? "handler" = some c) : c.IsKept := by
  have hfield : c.field = some "handler" := by simpa using List.find?_some hc
  cases h with
  | kept _ _ hhandler => exact hhandler hkind c (List.mem_of_find?_eq_some hc) hfield
  | rewritten => cases hc

theorem text_eq (hform : Form.ofKind r.kind = .identifier) (v w : Version) :
    (r.tree v).text = (r.tree w).text := by
  cases h with
  | kept htext _ _ =>
    have hsame := htext hform
    subst hsame
    cases v <;> cases w <;> rfl
  | @rewritten label _ _ _ hsealed =>
    have hother : Form.ofKind label.kind = .identifier := hform
    rw [hsealed.1] at hother
    cases hother

end Admissible

/-- A chain goes on in the first child under a field, which is the same one in both versions. -/
theorem spineInOptionalChain_eq {children : List Revision} {v w : Version}
    (h : ∀ c ∈ children, (c.tree v).inOptionalChain = (c.tree w).inOptionalChain) (field : String) :
    Tree.spineInOptionalChain field (children.map (tree v)) =
      Tree.spineInOptionalChain field (children.map (tree w)) := by
  induction children with
  | nil => rfl
  | cons c rest ih =>
    have hrest := ih fun d hd => h d (List.mem_cons_of_mem _ hd)
    simp only [List.map_cons, Tree.spineInOptionalChain, field_tree, h c List.mem_cons_self, hrest]

theorem Admissible.inOptionalChain_eq {r : Revision} (h : r.Admissible) (v w : Version) :
    (r.tree v).inOptionalChain = (r.tree w).inOptionalChain := by
  induction h with
  | kept _ _ _ ih =>
    simp only [tree, Tree.inOptionalChain, trees_eq, List.any_map, Function.comp_def, kind_tree,
      spineInOptionalChain_eq ih]
  | rewritten hsealed =>
    simp only [tree, Tree.inOptionalChain, hsealed.1, Form.spineField?]

end Revision

namespace Lowering

/-- A way to lower that does not tell one version from another. -/
def Agrees (f : Lower) : Prop :=
  ∀ r : Revision, r.Admissible → ∀ v w, f (r.tree v) = f (r.tree w)

open Revision

theorem mapM_trees {α : Type} {f : Tree → Option α} {list : List Revision} {v w : Version}
    (h : ∀ c ∈ list, f (c.tree v) = f (c.tree w)) :
    (list.map (tree v)).mapM f = (list.map (tree w)).mapM f := by
  induction list with
  | nil => rfl
  | cons c rest ih =>
    rw [List.map_cons, List.map_cons, List.mapM_cons, List.mapM_cons, h c List.mem_cons_self,
      ih fun d hd => h d (List.mem_cons_of_mem _ hd)]

theorem entries_agrees {entry : Tree → Option (Option Node)} {r : Revision} (hkept : r.IsKept)
    {v w : Version} (h : ∀ c ∈ r.operands, entry (c.tree v) = entry (c.tree w)) :
    entries entry (r.tree v) = entries entry (r.tree w) := by
  rw [entries, entries, operands_tree hkept, operands_tree hkept, mapM_trees h]

/-- What is made of a node that may be missing. -/
theorem onChild {α : Type} {o : Option Revision} {v w : Version} {missing : α} {run : Tree → α}
    (h : ∀ c, o = some c → run (c.tree v) = run (c.tree w)) :
    (match o.map (tree v) with | none => missing | some c => run c) =
      match o.map (tree w) with | none => missing | some c => run c := by
  cases o with
  | none => rfl
  | some c => exact h c rfl

section

variable {o : Option Revision} (h : ∀ c, o = some c → c.Admissible) (v w : Version)
include h

theorem key_agrees : key (o.map (tree v)) = key (o.map (tree w)) := by
  cases o with
  | none => rfl
  | some c =>
    have hc := h c rfl
    have named : Form.ofKind c.kind = .identifier →
        Node.identifier (c.tree v).text = Node.identifier (c.tree w).text := fun hform => by
      rw [hc.text_eq hform v w]
    simp only [Option.map_some, key, kind_tree]
    split
    · exact named (by rename_i hkind; rw [hkind]; rfl)
    · exact named (by rename_i hkind; rw [hkind]; rfl)
    · exact named (by rename_i hkind; rw [hkind]; rfl)
    · rename_i hkind
      have hkept : c.IsKept := hc.isKept_of_read (by rw [hkind]; decide)
      rw [operand?_tree hkept, operand?_tree hkept]
      cases hinner : c.operand? with
      | none => rfl
      | some inner =>
        have hadmissible := hc.of_operand? hinner
        simp only [Option.map_some, kind_tree]
        split
        · rename_i hidentifier
          rw [hadmissible.text_eq (by rw [hidentifier]; rfl) v w]
        · rfl
    · rfl

variable {f : Lower} (hf : Agrees f)
include hf

theorem value_agrees : value f (o.map (tree v)) = value f (o.map (tree w)) := by
  cases o with
  | none => rfl
  | some c => exact hf c (h c rfl) v w

theorem optional_agrees : optional f (o.map (tree v)) = optional f (o.map (tree w)) := by
  cases o with
  | none => rfl
  | some c => exact hf c (h c rfl) v w

theorem arguments_agrees : arguments f (o.map (tree v)) = arguments f (o.map (tree w)) := by
  cases o with
  | none => rfl
  | some c =>
    have hc := h c rfl
    simp only [Option.map_some, arguments, kind_tree]
    split
    · rename_i hkind
      have hkept : c.IsKept := hc.isKept_of_read (by rw [hkind]; decide)
      rw [operands_tree hkept, operands_tree hkept]
      exact mapM_trees fun d hd => hf d (hc.of_mem_operands hd) v w
    · rfl

end

section

variable {f : Lower} (hf : Agrees f) {r : Revision} (h : r.Admissible) (hkept : r.IsKept)
  (v w : Version)
include hf h hkept

theorem access_agrees (field : String) :
    access f (r.tree v) field = access f (r.tree w) field := by
  simp only [access, child?_tree hkept, kind_tree]
  cases ho : r.child? "object" with
  | none => rfl
  | some receiver =>
    cases hp : r.child? field with
    | none => rfl
    | some name =>
      simp only [Option.map_some, hf receiver (h.of_child? ho) v w, hf name (h.of_child? hp) v w]

theorem call_agrees : call f (r.tree v) = call f (r.tree w) := by
  have harguments : arguments f ((r.child? "arguments").map (tree v)) =
      arguments f ((r.child? "arguments").map (tree w)) :=
    arguments_agrees (fun c hc => h.of_child? hc) v w hf
  have htag : ∀ u, ((r.child? "arguments").map (tree u)).any (·.kind == "template_string") =
      (r.child? "arguments").any (·.kind == "template_string") := by
    intro u
    cases r.child? "arguments" <;> simp
  simp only [call, child?_tree hkept, kind_tree, htag, harguments, span_tree v r w]
  cases hcallee : r.child? "function" with
  | none => rfl
  | some callee => simp only [Option.map_some, hf callee (h.of_child? hcallee) v w]

theorem function_agrees : function f (r.tree v) = function f (r.tree w) := by
  simp only [function, child?_tree hkept, kind_tree]
  apply onChild
  intro body hbody
  rw [hf body (h.of_child? hbody) v w]

theorem catchClause_agrees : catchClause f (r.tree v) = catchClause f (r.tree w) := by
  simp only [catchClause, child?_tree hkept, kind_tree]
  apply onChild
  intro body hbody
  rw [hf body (h.of_child? hbody) v w]

theorem wrap_agrees (make : Node → Node) : wrap f (r.tree v) make = wrap f (r.tree w) make := by
  simp only [wrap, operand?_tree hkept, kind_tree]
  apply onChild
  intro inner hinner
  rw [hf inner (h.of_operand? hinner) v w]

omit hf in
theorem alternative_tree : ∃ o : Option Revision, (∀ c, o = some c → c.Admissible) ∧
    ∀ u, alternative (r.tree u) = o.map (tree u) := by
  cases ha : r.child? "alternative" with
  | none => exact ⟨none, nofun, fun u => by simp [alternative, child?_tree hkept, ha]⟩
  | some a =>
    have hadmissible := h.of_child? ha
    by_cases hkind : a.kind = "else_clause"
    · have hopen : a.IsKept := hadmissible.isKept_of_read (by rw [hkind]; decide)
      refine ⟨a.operand?, fun c => hadmissible.of_operand?, fun u => ?_⟩
      simp [alternative, child?_tree hkept, ha, hkind, operand?_tree hopen]
    · refine ⟨some a, fun c hc => Option.some.inj hc ▸ hadmissible, fun u => ?_⟩
      simp [alternative, child?_tree hkept, ha, hkind]

theorem conditional_agrees : conditional f (r.tree v) = conditional f (r.tree w) := by
  obtain ⟨o, hadmissible, halternative⟩ := alternative_tree h hkept
  simp only [conditional, child?_tree hkept, kind_tree, halternative,
    optional_agrees hadmissible v w hf]
  apply onChild
  intro consequence hc
  rw [hf consequence (h.of_child? hc) v w]

omit hkept in
theorem handler_agrees (hkind : r.kind = "try_statement") :
    handler f ((r.child? "handler").map (tree v)) =
      handler f ((r.child? "handler").map (tree w)) := by
  apply onChild
  intro c hc
  have hopen := h.isKept_of_handler hkind hc
  have hadmissible := h.of_child? hc
  rw [child?_tree hopen, child?_tree hopen]
  apply onChild
  intro body hbody
  rw [hf body (hadmissible.of_child? hbody) v w]

theorem tryCatch_agrees (hkind : r.kind = "try_statement") :
    tryCatch f (r.tree v) = tryCatch f (r.tree w) := by
  simp only [tryCatch, child?_tree hkept, kind_tree, handler_agrees hf h v w hkind]
  apply onChild
  intro body hbody
  rw [hf body (h.of_child? hbody) v w]

theorem declarator_agrees : declarator f (r.tree v) = declarator f (r.tree w) := by
  have hvalue : optional f ((r.child? "value").map (tree v)) =
      optional f ((r.child? "value").map (tree w)) :=
    optional_agrees (fun c hc => h.of_child? hc) v w hf
  simp only [declarator, child?_tree hkept, kind_tree, hvalue]
  apply onChild
  intro target htarget
  rw [hf target (h.of_child? htarget) v w]

end

section

variable {f : Lower} (hf : Agrees f) {r : Revision} (h : r.Admissible) (v w : Version)
include hf h

theorem patternEntry_agrees : patternEntry f (r.tree v) = patternEntry f (r.tree w) := by
  simp only [patternEntry, kind_tree]
  split
  · rename_i hkind
    rw [h.text_eq (by rw [hkind]; rfl) v w]
  · rename_i hkind
    have hkept : r.IsKept := h.isKept_of_read (by rw [hkind]; decide)
    simp only [child?_tree hkept]
    rw [key_agrees (fun c hc => h.of_child? hc) v w,
      value_agrees (fun c hc => h.of_child? hc) v w hf]
  · rename_i hkind
    have hkept : r.IsKept := h.isKept_of_read (by rw [hkind]; decide)
    simp only [child?_tree hkept]
    rw [key_agrees (fun c hc => h.of_child? hc) v w]
  · rfl

theorem objectEntry_agrees : objectEntry f (r.tree v) = objectEntry f (r.tree w) := by
  simp only [objectEntry, kind_tree, span_tree v r w]
  split
  · rename_i hkind
    have hkept : r.IsKept := h.isKept_of_read (by rw [hkind]; decide)
    simp only [child?_tree hkept]
    rw [key_agrees (fun c hc => h.of_child? hc) v w,
      value_agrees (fun c hc => h.of_child? hc) v w hf]
  · rename_i hkind
    rw [h.text_eq (by rw [hkind]; rfl) v w]
  · rename_i hkind
    have hkept : r.IsKept := h.isKept_of_read (by rw [hkind]; decide)
    simp only [child?_tree hkept]
    rw [key_agrees (fun c hc => h.of_child? hc) v w, function_agrees hf h hkept v w]
  · rfl

omit hf in
theorem declarators_tree (hkept : r.IsKept) : ∃ list : List Revision,
    (∀ c ∈ list, c.Admissible ∧ c.IsKept) ∧
    ∀ u, (r.tree u).operands.filter isDeclarator = list.map (tree u) := by
  have hopen : ∀ c ∈ r.operands, c.kind = "variable_declarator" → c.IsKept := fun c hc hkind =>
    (h.of_mem_operands hc).isKept_of_form (by rw [hkind]; decide)
  refine ⟨r.operands.filter fun c =>
    c.kind == "variable_declarator" && (c.child? "name").isSome, fun c hc => ?_, fun u => ?_⟩
  · obtain ⟨hc, htest⟩ := List.mem_filter.mp hc
    have hkind : c.kind = "variable_declarator" := by simp_all
    exact ⟨h.of_mem_operands hc, hopen c hc hkind⟩
  · rw [operands_tree hkept, List.filter_map]
    congr 1
    apply List.filter_congr
    intro c hc
    by_cases hkind : c.kind = "variable_declarator"
    · simp [isDeclarator, hkind, child?_tree (hopen c hc hkind)]
    · have hno : (c.kind == "variable_declarator") = false := by simpa using hkind
      simp [isDeclarator, hno]

theorem declaration_agrees (hkept : r.IsKept) :
    declaration f (r.tree v) = declaration f (r.tree w) := by
  obtain ⟨list, hlist, htrees⟩ := declarators_tree h hkept
  have hmodels : (list.map (tree v)).mapM (declarator f) =
      (list.map (tree w)).mapM (declarator f) :=
    mapM_trees fun c hc => declarator_agrees hf (hlist c hc).1 (hlist c hc).2 v w
  rw [declaration, declaration, htrees, htrees, hmodels]

/-- One level of lowering does not tell the versions apart if the next does not. -/
theorem level_agrees : level f (r.tree v) = level f (r.tree w) := by
  have hchain := h.inOptionalChain_eq v w
  simp only [level, form_tree, kind_tree, hchain]
  split
  · rfl
  have hopen : Form.ofKind r.kind ≠ .other → r.IsKept := h.isKept_of_form
  have hoperands : ∀ c ∈ r.operands, c.Admissible := fun c => h.of_mem_operands
  cases hform : Form.ofKind r.kind <;> simp only [hform, ne_eq, reduceCtorEq, not_false_eq_true,
    forall_const] at hopen ⊢
  case identifier => rw [h.text_eq hform v w]
  case parenthesized => exact wrap_agrees hf h hopen v w id
  case member => exact access_agrees hf h hopen v w "property"
  case subscript => exact access_agrees hf h hopen v w "index"
  case call => exact call_agrees hf h hopen v w
  case await => exact wrap_agrees hf h hopen v w .await
  case block =>
    rw [operands_tree hopen, operands_tree hopen, mapM_trees fun c hc => hf c (hoperands c hc) v w]
  case expressionStatement => exact wrap_agrees hf h hopen v w .expressionStatement
  case conditional => exact conditional_agrees hf h hopen v w
  case tryCatch => exact tryCatch_agrees hf h hopen v w (Form.kind_of_tryCatch hform)
  case catchClause => exact catchClause_agrees hf h hopen v w
  case declaration => exact declaration_agrees hf h v w hopen
  case declarator => exact declarator_agrees hf h hopen v w
  case objectPattern =>
    rw [entries_agrees hopen fun c hc => patternEntry_agrees hf (hoperands c hc) v w]
  case object =>
    rw [entries_agrees hopen fun c hc => objectEntry_agrees hf (hoperands c hc) v w]
  case function => exact function_agrees hf h hopen v w

end
end Lowering

/-- Whatever the limit, the versions of a node have one model, or both have none. -/
theorem Revision.Admissible.lower_eq {r : Revision} (h : r.Admissible) (limit : Nat)
    (v w : Version) : (r.tree v).lower limit = (r.tree w).lower limit := by
  induction limit generalizing r v w with
  | zero => rfl
  | succ limit ih => exact Lowering.level_agrees (fun r h v w => ih h v w) h v w

theorem Revision.Admissible.lowerCallSite_eq {r : Revision} (h : r.Admissible) (hkept : r.IsKept)
    (limit : Nat) (v w : Version) :
    (r.tree v).lowerCallSite limit = (r.tree w).lowerCallSite limit :=
  Lowering.call_agrees (fun _ h v w => h.lower_eq limit v w) h hkept v w

end StaleQuery
