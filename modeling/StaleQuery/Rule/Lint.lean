import StaleQuery.Model.Lowering
import StaleQuery.Rule.Diagnostic

/-!
Checking every call of a tree. Calls are visited in the order in which they are written, and each
one that spells the hook as a plain name is lowered and checked on its own.
-/

namespace StaleQuery

namespace Tree

/-- The nodes of one kind among those still to visit, after those already found, which are kept in
reverse. -/
def collect (kind : String) (stack found : List Tree) : List Tree :=
  match stack with
  | [] => found.reverse
  | t :: rest => collect kind (t.namedChildren ++ rest) (if t.kind == kind then t :: found else found)
termination_by sizes stack
decreasing_by
  have := t.sizes_namedChildren_lt
  simp
  omega

/-- Every node of a kind, each before those below it. Only named children are followed. -/
def ofKind (kind : String) (t : Tree) : List Tree :=
  collect kind [t] []

/-- Every call of the tree. -/
def calls (t : Tree) : List Tree :=
  t.ofKind "call_expression"

end Tree

namespace Rule

variable (rule : Rule)

/-- Whether a call is spelled with the plain name of the hook. -/
def namesHook (t : Tree) : Bool :=
  match t.child? "function" with
  | some callee => callee.kind == "identifier" && callee.text == rule.hook
  | none => false

/-- A registration too deep to lower cannot be shown to reach the operation: it is reported as a
whole. -/
def checkCallSite (limit : Nat) (t : Tree) : Except Fault (Option (Span × Reason)) :=
  match t.lowerCallSite limit with
  | none => .ok (some (t.span, .notInvalidated))
  | some (.call callee arguments span) => do
    match ← rule.check limit (.call callee arguments span) with
    | none => return none
    | some finding => return some (← finding.anchor.span?, finding.reason)
  | some _ => .ok none

def checkTree (limit : Nat) (filePath : String) (t : Tree) : Except Fault (List Diagnostic) := do
  let sites := t.calls.filter rule.namesHook
  let reports ← sites.mapM (rule.checkCallSite limit)
  return (reports.filterMap id).map fun (span, reason) => ⟨filePath, span, reason⟩

end Rule
end StaleQuery
