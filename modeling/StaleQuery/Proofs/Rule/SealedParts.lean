import StaleQuery.Proofs.Model.SealedParts
import StaleQuery.Proofs.Rule.CallSites

/-!
# Reports do not depend on sealed parts

The walk visits calls below sealed nodes too, so the reports on two versions of a tree may differ. But
every node that both versions have in common contributes the same to either list, and all else comes
from calls inside the rewritten parts.
-/
namespace StaleQuery

namespace Revision

/-- The nodes that the versions have in common, at any depth, named or not. -/
inductive PartOf : Revision → Revision → Prop where
  | here (r) : PartOf r r
  | deeper {r s c} : c ∈ r.children → PartOf s c → PartOf s r

theorem Admissible.part {r s : Revision} (h : r.Admissible) (hs : s.PartOf r) : s.Admissible := by
  induction hs with
  | here => exact h
  | deeper hc _ ih => exact ih (h.of_mem_children _ hc)

mutual
/-- Those of them that are reached through named nodes, each before those below it. -/
def visited : Revision → List Revision
  | kept label text children => kept label text children :: visitedBelow children
  | rewritten label text old new => [rewritten label text old new]

def visitedBelow : List Revision → List Revision
  | [] => []
  | c :: rest => if c.named then c.visited ++ visitedBelow rest else visitedBelow rest
end

theorem visitedBelow_eq (children : List Revision) :
    visitedBelow children = (children.filter (·.named)).flatMap visited := by
  induction children with
  | nil => rfl
  | cons c rest ih =>
    rw [visitedBelow, ih]
    by_cases hnamed : c.named = true
    · simp [hnamed]
    · simp [hnamed]

theorem visited_eq (r : Revision) : r.visited = r :: r.namedChildren.flatMap visited := by
  cases r with
  | kept label text children =>
    rw [visited, visitedBelow_eq]
    rfl
  | rewritten => simp [visited, namedChildren, children]

theorem Admissible.partOf_of_mem_visited {r s : Revision} (h : r.Admissible)
    (hs : s ∈ r.visited) : s.PartOf r := by
  induction h with
  | @kept label text children _ _ _ ih =>
    rw [visited_eq, List.mem_cons, List.mem_flatMap] at hs
    rcases hs with rfl | ⟨c, hc, hs⟩
    · exact .here _
    · have hchild : c ∈ children := (List.mem_filter.mp hc).1
      exact .deeper hchild (ih c hchild hs)
  | rewritten _ =>
    rw [visited, List.mem_singleton] at hs
    subst hs
    exact .here _

/-- What one version has below a node that was rewritten. -/
def replaced (v : Version) : Revision → List Tree
  | kept .. => []
  | rewritten _ _ old new => (v.pick old new).filter (·.named)

end Revision

namespace Rule

variable (rule : Rule) (limit : Nat) (filePath : String) {r : Revision}

theorem namesHook_eq (h : r.Admissible) (hkept : r.IsKept) (v w : Version) :
    rule.namesHook (r.tree v) = rule.namesHook (r.tree w) := by
  simp only [namesHook, Revision.child?_tree hkept]
  cases hcallee : r.child? "function" with
  | none => rfl
  | some callee =>
    simp only [Option.map_some, Revision.kind_tree]
    by_cases hkind : callee.kind = "identifier"
    · have hform : Form.ofKind callee.kind = .identifier := by rw [hkind]; rfl
      rw [(h.of_child? hcallee).text_eq hform v w]
    · have hno : (callee.kind == "identifier") = false := by simpa using hkind
      simp only [hno, Bool.false_and]

theorem checkCallSite_eq (h : r.Admissible) (hkept : r.IsKept) (v w : Version) :
    rule.checkCallSite limit (r.tree v) = rule.checkCallSite limit (r.tree w) := by
  simp only [checkCallSite, h.lowerCallSite_eq hkept limit v w, Revision.span_tree v r w]

/-- A node that both versions have in common contributes the same to both lists of reports. -/
theorem own_eq (h : r.Admissible) (v w : Version) :
    rule.own limit filePath (r.tree v) = rule.own limit filePath (r.tree w) := by
  by_cases hcall : r.kind = "call_expression"
  · have hkept : r.IsKept := h.isKept_of_form (by rw [hcall]; decide)
    simp only [own, Revision.kind_tree, rule.namesHook_eq h hkept v w,
      rule.checkCallSite_eq limit h hkept v w]
  · have hno : (r.kind == "call_expression") = false := by simpa using hcall
    simp [own, hno]

/-- The reports on a version, node by node. -/
theorem listing_tree (h : r.Admissible) (v : Version) :
    rule.listing limit filePath (r.tree v) = r.visited.flatMap fun s =>
      rule.own limit filePath (s.tree v) ++
        (s.replaced v).flatMap (rule.listing limit filePath) := by
  induction h with
  | @kept label text children htext hbelow hhandler ih =>
    have hnamed := Revision.namedChildren_tree (r := .kept label text children) trivial v
    have hrest : ∀ c ∈ (Revision.kept label text children).namedChildren,
        rule.listing limit filePath (c.tree v) = c.visited.flatMap fun s =>
          rule.own limit filePath (s.tree v) ++
            (s.replaced v).flatMap (rule.listing limit filePath) := fun c hc =>
      ih c (List.mem_filter.mp hc).1
    rw [listing, Tree.gather_eq, hnamed, List.flatMap_map, Revision.visited_eq, List.flatMap_cons,
      List.flatMap_assoc, Revision.replaced, List.flatMap_nil, List.append_nil]
    exact congrArg _ (List.flatMap_congr hrest)
  | @rewritten label text old new hsealed =>
    rw [listing, Tree.gather_eq, Revision.visited, List.flatMap_singleton]
    rfl

end Rule

/-- Statements whose bodies are never searched. -/
def unsearched : List String :=
  ["for_statement", "for_in_statement", "while_statement", "do_statement", "switch_statement",
    "return_statement", "labeled_statement", "finally_clause", "class", "class_declaration",
    "abstract_class_declaration"]

/-- Between two versions of a tree that differ only below sealed nodes, every node in common has one
model and contributes the same reports; whatever else is reported on a version comes from inside its
rewritten parts. Loops and the like are such nodes. -/
theorem sealed_parts_never_matter (rule : Rule) (limit : Nat) (filePath : String) {r : Revision}
    (h : r.Admissible) :
    (∀ s : Revision, s.PartOf r →
      (s.tree .old).lower limit = (s.tree .new).lower limit ∧
      (s.IsKept → (s.tree .old).lowerCallSite limit = (s.tree .new).lowerCallSite limit) ∧
      rule.own limit filePath (s.tree .old) = rule.own limit filePath (s.tree .new)) ∧
    (∀ v, rule.checkTree limit filePath (r.tree v) = .ok (r.visited.flatMap fun s =>
      rule.own limit filePath (s.tree .old) ++
        (s.replaced v).flatMap (rule.listing limit filePath))) ∧
    ∀ label : Label, label.kind ∈ unsearched → label.IsSealed := by
  refine ⟨fun s hs => ?_, fun v => ?_, fun label hlabel => ?_⟩
  · have hpart := h.part hs
    exact ⟨hpart.lower_eq limit .old .new,
      fun hkept => hpart.lowerCallSite_eq hkept limit .old .new,
      rule.own_eq limit filePath hpart .old .new⟩
  · rw [Rule.checkTree_eq_ok, rule.listing_tree limit filePath h v]
    congr 1
    apply List.flatMap_congr
    intro s hs
    rw [rule.own_eq limit filePath (h.part (h.partOf_of_mem_visited hs)) v .old]
  · have hall : ∀ kind ∈ unsearched, Form.ofKind kind = .other ∧ kind ∉ readByParent := by decide
    exact hall label.kind hlabel

/-- A node that has the same text in both versions. -/
def Revision.same (kind : String) (field : Option String) (start stop : Nat) (text : String)
    (children : List Revision) : Revision :=
  .kept ⟨kind, field, true, ⟨⟨0, start⟩, ⟨0, stop⟩⟩, text⟩ text children

/-- A callback whose loop calls the operation in the old version and registers another mutation in
the new one. -/
def loopInCallback : Revision :=
  .same "call_expression" none 0 40 ""
    [.same "identifier" (some "function") 0 11 "useMutation" [],
     .same "arguments" (some "arguments") 11 40 ""
      [.same "object" none 12 39 ""
        [.same "pair" none 13 38 ""
          [.same "property_identifier" (some "key") 13 15 "onSuccess" [],
           .same "arrow_function" (some "value") 16 38 ""
            [.same "statement_block" (some "body") 20 38 ""
              [.rewritten ⟨"for_statement", none, true, ⟨⟨0, 21⟩, ⟨0, 37⟩⟩, "old"⟩ "new"
                [lineNode "call_expression" (some "body") 30 36 ""
                  [lineNode "identifier" (some "function") 30 34 "invalidateQueries" []]]
                [bareSite 30 36 []]]]]]]]

theorem Revision.admissible_same {kind : String} {field : Option String} {start stop : Nat}
    {text : String} {children : List Revision} (h : kind ≠ "try_statement") :
    (same kind field start stop text children).Admissible ↔ ∀ c ∈ children, c.Admissible :=
  ⟨fun hsame => hsame.of_mem_children, fun hbelow =>
    .kept (fun _ => rfl) hbelow fun hno => absurd hno h⟩

theorem loopInCallback_admissible : loopInCallback.Admissible := by
  have hloop (range text new old trees) : (Revision.rewritten
      ⟨"for_statement", none, true, range, text⟩ new old trees).Admissible :=
    .rewritten ⟨rfl, by simp [readByParent]⟩
  simp [loopInCallback, Revision.admissible_same, hloop]

/-- The registration is reported in both versions, and the one in the new loop only there. -/
theorem loop_calls_unseen : loopInCallback.Admissible ∧
    ({} : Rule).checkTree 400 "a.js" (loopInCallback.tree .old) =
      .ok [⟨"a.js", ⟨1, 14, 1, 39⟩, .notInvalidated⟩] ∧
    ({} : Rule).checkTree 400 "a.js" (loopInCallback.tree .new) =
      .ok [⟨"a.js", ⟨1, 14, 1, 39⟩, .notInvalidated⟩,
        ⟨"a.js", ⟨1, 31, 1, 37⟩, .missingOptions⟩] := by
  have h := (sealed_parts_never_matter {} 400 "a.js" loopInCallback_admissible).2.1
  refine ⟨loopInCallback_admissible, (h .old).trans ?_, (h .new).trans ?_⟩
  · exact congrArg Except.ok (by decide +kernel)
  · exact congrArg Except.ok (by decide +kernel)

end StaleQuery
