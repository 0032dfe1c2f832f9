import StaleQuery.Proofs.Model.Chains
import StaleQuery.Proofs.Rule.CallSites

/-!
# Comments do not count

A comment with nothing below it that stands under no field can be taken out of a tree wherever it is.
Lowering never reads it, neither by field nor by position, and the walk passes over it. So the nodes
that are left have the models that they had, and the reports are the same. It does not matter whether
all such comments go or only some.
-/
namespace StaleQuery

namespace Tree

/-- A comment with nothing below it, under no field. -/
def isLooseComment (t : Tree) : Bool :=
  t.kind == "comment" && t.field.isNone && t.children.isEmpty

section

variable (chosen : Tree → Bool)

/-- Of the loose comments only the chosen ones go. -/
def stays (t : Tree) : Bool :=
  !(t.isLooseComment && chosen t)

mutual
/-- The tree without the chosen ones of its loose comments. The root stays in any case. -/
def without : Tree → Tree
  | node label children => node label (withoutAll children)

def withoutAll : List Tree → List Tree
  | [] => []
  | t :: rest => if t.stays chosen then t.without :: withoutAll rest else withoutAll rest
end

end

mutual
/-- Every node below, at any depth, named or not, each before those below it. -/
def descendants : Tree → List Tree
  | node _ children => descendantsOf children

def descendantsOf : List Tree → List Tree
  | [] => []
  | t :: rest => t :: (t.descendants ++ descendantsOf rest)
end

theorem induction_on_children {motive : Tree → Prop}
    (h : ∀ t, (∀ c ∈ t.children, motive c) → motive t) (t : Tree) : motive t :=
  h t fun c _ => induction_on_children h c
termination_by t.size
decreasing_by exact size_lt_of_mem_children ‹_›

theorem descendantsOf_eq (list : List Tree) :
    descendantsOf list = list.flatMap fun c => c :: c.descendants := by
  induction list with
  | nil => rfl
  | cons c rest ih => rw [descendantsOf, ih, List.flatMap_cons, List.cons_append]

theorem descendants_eq (t : Tree) :
    t.descendants = t.children.flatMap fun c => c :: c.descendants := by
  obtain ⟨label, children⟩ := t
  rw [descendants, descendantsOf_eq]
  rfl

variable (chosen : Tree → Bool) (t : Tree)

/-! What can be read of a tree without comments -/

@[simp] theorem kind_without : (t.without chosen).kind = t.kind := by
  cases t
  rfl

@[simp] theorem field_without : (t.without chosen).field = t.field := by
  cases t
  rfl

@[simp] theorem named_without : (t.without chosen).named = t.named := by
  cases t
  rfl

@[simp] theorem text_without : (t.without chosen).text = t.text := by
  cases t
  rfl

@[simp] theorem span_without : (t.without chosen).span = t.span := by
  cases t
  rfl

@[simp] theorem form_without : (t.without chosen).form = t.form := by
  cases t
  rfl

variable {chosen t}

theorem stays_of_kind (h : t.kind ≠ "comment") : t.stays chosen = true := by
  simp [stays, isLooseComment, h]

theorem stays_of_field {field : String} (h : t.field = some field) : t.stays chosen = true := by
  simp [stays, isLooseComment, h]

theorem isLooseComment_of_not_stays (h : t.stays chosen = false) : t.isLooseComment = true := by
  have hgoes : t.isLooseComment = true ∧ chosen t = true := by simpa [stays] using h
  exact hgoes.1

theorem kind_of_not_stays (h : t.stays chosen = false) : t.kind = "comment" := by
  by_contra hkind
  rw [stays_of_kind hkind] at h
  cases h

theorem children_of_not_stays (h : t.stays chosen = false) : t.children = [] := by
  have hloose := isLooseComment_of_not_stays h
  simp only [isLooseComment, Bool.and_eq_true, List.isEmpty_iff] at hloose
  exact hloose.2

variable (chosen t)

theorem withoutAll_eq (list : List Tree) :
    withoutAll chosen list = (list.filter (stays chosen)).map (without chosen) := by
  induction list with
  | nil => rfl
  | cons c rest ih =>
    rw [withoutAll, ih]
    by_cases h : c.stays chosen = true
    · simp [h]
    · simp [h]

theorem children_without :
    (t.without chosen).children = (t.children.filter (stays chosen)).map (without chosen) := by
  obtain ⟨label, children⟩ := t
  exact withoutAll_eq chosen children

/-- A child that stands under a field stays, so the first one is still the first. -/
theorem child?_without (field : String) :
    (t.without chosen).child? field = (t.child? field).map (without chosen) := by
  rw [child?, children_without, List.find?_map, List.find?_filter, child?]
  congr 2
  funext c
  by_cases h : c.field = some field
  · simp [h, stays_of_field h]
  · simp [h]

theorem namedChildren_without : (t.without chosen).namedChildren =
    (t.namedChildren.filter (stays chosen)).map (without chosen) := by
  have hnamed : (fun c : Tree => c.named) ∘ without chosen = fun c => c.named := by
    funext c
    exact named_without chosen c
  rw [namedChildren, children_without, List.filter_map, hnamed, namedChildren, List.filter_comm]

theorem operands_without : (t.without chosen).operands = t.operands.map (without chosen) := by
  rw [operands, namedChildren_without, List.filter_map, List.filter_filter, operands]
  congr 1
  apply List.filter_congr
  intro c _
  by_cases h : c.kind = "comment"
  · simp [h]
  · simp [stays_of_kind h]

theorem operand?_without : (t.without chosen).operand? = t.operand?.map (without chosen) := by
  rw [operand?, operands_without, List.head?_map, operand?]

theorem hasOptionalMark_without : (t.without chosen).hasOptionalMark = t.hasOptionalMark := by
  rw [hasOptionalMark, children_without, List.any_map, List.any_filter, hasOptionalMark]
  congr 1
  funext c
  by_cases h : c.kind = "optional_chain"
  · have hstays : c.stays chosen = true := stays_of_kind (by rw [h]; decide)
    simp [h, hstays]
  · simp [h]

theorem inOptionalChain_without : (t.without chosen).inOptionalChain = t.inOptionalChain := by
  induction t using induction_on_children with
  | h t ih =>
    have hspine : ∀ field, ((t.child? field).map (without chosen)).any inOptionalChain =
        (t.child? field).any inOptionalChain := by
      intro field
      cases hnext : t.child? field with
      | none => rfl
      | some next => exact ih next (List.mem_of_find?_eq_some hnext)
    rw [inOptionalChain_eq, inOptionalChain_eq t]
    simp only [form_without, hasOptionalMark_without, child?_without, hspine]

theorem descendants_of_not_stays {chosen : Tree → Bool} {t : Tree} (h : t.stays chosen = false) :
    t.descendants = [] := by
  rw [descendants_eq, children_of_not_stays h, List.flatMap_nil]

/-- What is put together child by child does not miss children that contribute nothing. -/
theorem flatMap_stays {α : Type} {chosen : Tree → Bool} {g h : Tree → List α} {list : List Tree}
    (hstays : ∀ c ∈ list, c.stays chosen = true → g c = h c)
    (hgoes : ∀ c, c.stays chosen = false → h c = []) :
    (list.filter (stays chosen)).flatMap g = list.flatMap h := by
  induction list with
  | nil => rfl
  | cons c rest ih =>
    have hrest := ih fun d hd => hstays d (List.mem_cons_of_mem _ hd)
    by_cases hc : c.stays chosen = true
    · rw [List.filter_cons_of_pos hc, List.flatMap_cons, List.flatMap_cons, hrest,
        hstays c List.mem_cons_self hc]
    · have hnothing := hgoes c (by simpa using hc)
      rw [List.filter_cons_of_neg hc, List.flatMap_cons, hrest, hnothing, List.nil_append]

/-- The nodes of the tree without comments are those that stay, in their order. -/
theorem descendants_without : (t.without chosen).descendants =
    (t.descendants.filter (stays chosen)).map (without chosen) := by
  induction t using induction_on_children with
  | h t ih =>
    rw [descendants_eq, children_without, List.flatMap_map, descendants_eq t, List.filter_flatMap,
      List.map_flatMap]
    apply flatMap_stays
    · intro c hc hstays
      rw [List.filter_cons_of_pos hstays, List.map_cons, ih c hc]
    · intro c hgoes
      simp [hgoes, descendants_of_not_stays hgoes]

end Tree

namespace Lowering

open StaleQuery.Tree

/-- A way to lower that does not see whether the chosen comments are there. -/
def Overlooks (chosen : Tree → Bool) (f : Lower) : Prop :=
  ∀ t, f (t.without chosen) = f t

theorem key_without (chosen : Tree → Bool) (o : Option Tree) :
    key (o.map (without chosen)) = key o := by
  cases o with
  | none => rfl
  | some t =>
    simp only [Option.map_some, key, kind_without, text_without, operand?_without]
    split
    · rfl
    · rfl
    · rfl
    · cases t.operand? with
      | none => rfl
      | some inner => simp
    · rfl

section

variable {chosen : Tree → Bool} {f : Lower} (hf : Overlooks chosen f)
include hf

theorem mapM_without (list : List Tree) : (list.map (without chosen)).mapM f = list.mapM f := by
  rw [List.mapM_map]
  exact congrArg (list.mapM ·) (funext hf)

theorem value_without (o : Option Tree) : value f (o.map (without chosen)) = value f o := by
  cases o with
  | none => rfl
  | some t => exact hf t

theorem optional_without (o : Option Tree) :
    optional f (o.map (without chosen)) = optional f o := by
  cases o with
  | none => rfl
  | some t => exact hf t

theorem arguments_without (o : Option Tree) :
    arguments f (o.map (without chosen)) = arguments f o := by
  cases o with
  | none => rfl
  | some t => simp only [Option.map_some, arguments, kind_without, operands_without, mapM_without hf]

variable (t : Tree)

theorem access_without (field : String) : access f (t.without chosen) field = access f t field := by
  simp only [access, child?_without, kind_without]
  cases t.child? "object" with
  | none => rfl
  | some receiver =>
    cases t.child? field with
    | none => rfl
    | some name => simp only [Option.map_some, hf receiver, hf name]

theorem call_without : call f (t.without chosen) = call f t := by
  have htag : ((t.child? "arguments").map (without chosen)).any (·.kind == "template_string") =
      (t.child? "arguments").any (·.kind == "template_string") := by
    cases t.child? "arguments" <;> simp
  simp only [call, child?_without, kind_without, span_without, htag, arguments_without hf]
  cases t.child? "function" with
  | none => rfl
  | some callee => simp only [Option.map_some, hf callee]

theorem function_without : function f (t.without chosen) = function f t := by
  simp only [function, child?_without, kind_without]
  cases t.child? "body" with
  | none => rfl
  | some body => simp only [Option.map_some, hf body]

theorem catchClause_without : catchClause f (t.without chosen) = catchClause f t := by
  simp only [catchClause, child?_without, kind_without]
  cases t.child? "body" with
  | none => rfl
  | some body => simp only [Option.map_some, hf body]

theorem wrap_without (make : Node → Node) : wrap f (t.without chosen) make = wrap f t make := by
  simp only [wrap, operand?_without, kind_without]
  cases t.operand? with
  | none => rfl
  | some inner => simp only [Option.map_some, hf inner]

omit hf in
theorem alternative_without :
    alternative (t.without chosen) = (alternative t).map (without chosen) := by
  simp only [alternative, child?_without]
  cases t.child? "alternative" with
  | none => rfl
  | some clause =>
    by_cases h : clause.kind = "else_clause"
    · simp [h, operand?_without]
    · simp [h]

theorem conditional_without : conditional f (t.without chosen) = conditional f t := by
  simp only [conditional, child?_without, kind_without, alternative_without, optional_without hf]
  cases t.child? "consequence" with
  | none => rfl
  | some consequence => simp only [Option.map_some, hf consequence]

theorem handler_without (o : Option Tree) :
    handler f (o.map (without chosen)) = handler f o := by
  cases o with
  | none => rfl
  | some clause =>
    simp only [Option.map_some, handler, child?_without]
    cases clause.child? "body" with
    | none => rfl
    | some body => simp only [Option.map_some, hf body]

theorem tryCatch_without : tryCatch f (t.without chosen) = tryCatch f t := by
  simp only [tryCatch, child?_without, kind_without, handler_without hf]
  cases t.child? "body" with
  | none => rfl
  | some body => simp only [Option.map_some, hf body]

theorem declarator_without : declarator f (t.without chosen) = declarator f t := by
  simp only [declarator, child?_without, kind_without, optional_without hf]
  cases t.child? "name" with
  | none => rfl
  | some target => simp only [Option.map_some, hf target]

theorem declaration_without : declaration f (t.without chosen) = declaration f t := by
  have htest : isDeclarator ∘ without chosen = isDeclarator := by
    funext d
    simp [isDeclarator, child?_without]
  rw [declaration, operands_without, List.filter_map, htest,
    mapM_without (declarator_without hf), declaration]

theorem patternEntry_without : patternEntry f (t.without chosen) = patternEntry f t := by
  simp only [patternEntry, kind_without, text_without, child?_without, key_without,
    value_without hf]

theorem objectEntry_without : objectEntry f (t.without chosen) = objectEntry f t := by
  simp only [objectEntry, kind_without, text_without, span_without, child?_without, key_without,
    value_without hf, function_without hf]

omit hf in
theorem entries_without {entry : Tree → Option (Option Node)}
    (hentry : ∀ c, entry (c.without chosen) = entry c) :
    entries entry (t.without chosen) = entries entry t := by
  have hmap : (t.operands.map (without chosen)).mapM entry = t.operands.mapM entry := by
    rw [List.mapM_map]
    exact congrArg (t.operands.mapM ·) (funext hentry)
  rw [entries, operands_without, hmap, entries]

/-- One level of lowering overlooks the comments if the next one does. -/
theorem level_without : level f (t.without chosen) = level f t := by
  simp only [level, inOptionalChain_without, form_without, kind_without, text_without]
  split
  · rfl
  cases t.form with
  | identifier | other => rfl
  | parenthesized | await | expressionStatement => exact wrap_without hf t _
  | member | subscript => exact access_without hf t _
  | call => exact call_without hf t
  | block => simp only [operands_without, mapM_without hf]
  | conditional => exact conditional_without hf t
  | tryCatch => exact tryCatch_without hf t
  | catchClause => exact catchClause_without hf t
  | declaration => exact declaration_without hf t
  | declarator => exact declarator_without hf t
  | objectPattern => simp only [entries_without t (patternEntry_without hf)]
  | object => simp only [entries_without t (objectEntry_without hf)]
  | function => exact function_without hf t

end
end Lowering

namespace Tree

variable (chosen : Tree → Bool) (limit : Nat) (t : Tree)

theorem lower_without : (t.without chosen).lower limit = t.lower limit := by
  induction limit generalizing t with
  | zero => rfl
  | succ limit ih => exact Lowering.level_without ih t

theorem lowerCallSite_without :
    (t.without chosen).lowerCallSite limit = t.lowerCallSite limit :=
  Lowering.call_without (lower_without chosen limit) t

end Tree

namespace Rule

open StaleQuery.Tree

variable (rule : Rule) (limit : Nat) (filePath : String) (chosen : Tree → Bool)

theorem namesHook_without (t : Tree) : rule.namesHook (t.without chosen) = rule.namesHook t := by
  simp only [namesHook, child?_without]
  cases t.child? "function" with
  | none => rfl
  | some callee => simp

theorem own_without (t : Tree) :
    rule.own limit filePath (t.without chosen) = rule.own limit filePath t := by
  have hcheck : rule.checkCallSite limit (t.without chosen) = rule.checkCallSite limit t := by
    simp only [checkCallSite, lowerCallSite_without, span_without]
  simp only [own, kind_without, namesHook_without, hcheck]

variable {chosen}

/-- A comment that goes contributes nothing. -/
theorem listing_of_not_stays {t : Tree} (h : t.stays chosen = false) :
    rule.listing limit filePath t = [] := by
  have hkind := kind_of_not_stays h
  have hbelow : t.namedChildren = [] := by rw [namedChildren, children_of_not_stays h]; rfl
  rw [listing, gather_eq, hbelow]
  simp [own, hkind]

variable (chosen)

theorem listing_without (t : Tree) :
    rule.listing limit filePath (t.without chosen) = rule.listing limit filePath t := by
  induction t using induction_on_named with
  | h t ih =>
    rw [listing, gather_eq, own_without, namedChildren_without, List.flatMap_map, listing, gather_eq]
    apply congrArg
    apply flatMap_stays
    · intro c hc _
      exact ih c hc
    · intro c hgoes
      exact rule.listing_of_not_stays limit filePath hgoes

end Rule

/-- Taking loose comments out of a tree, all of them or some, leaves the other nodes in their order,
each with the model that it had, and it leaves the reports as they were. -/
theorem comments_never_matter (rule : Rule) (limit : Nat) (filePath : String)
    (chosen : Tree → Bool) (t : Tree) :
    (t.without chosen).descendants =
      (t.descendants.filter (Tree.stays chosen)).map (Tree.without chosen) ∧
    (∀ s : Tree, (s.without chosen).lower limit = s.lower limit ∧
      (s.without chosen).lowerCallSite limit = s.lowerCallSite limit) ∧
    rule.checkTree limit filePath (t.without chosen) = rule.checkTree limit filePath t := by
  refine ⟨Tree.descendants_without chosen t, fun s => ?_, ?_⟩
  · exact ⟨s.lower_without chosen limit, s.lowerCallSite_without chosen limit⟩
  · rw [Rule.checkTree_eq_ok, Rule.checkTree_eq_ok, Rule.listing_without]

/-- Of the two comments in a list of arguments, the one under a field is not loose. -/
example : (lineNode "arguments" none 0 9 "()" [lineNode "comment" none 1 3 "//" [],
      lineNode "comment" (some "value") 3 5 "//" [], lineNode "object" none 5 8 "" []]).without
        (fun _ => true) =
    lineNode "arguments" none 0 9 "()" [lineNode "comment" (some "value") 3 5 "//" [],
      lineNode "object" none 5 8 "" []] := rfl

end StaleQuery
