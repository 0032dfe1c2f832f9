import Mathlib.Data.List.Basic
import Mathlib.Logic.Equiv.Basic
import StaleQuery.Proofs.Model.Events
import StaleQuery.Rule.Registration

/-!
# Names matter only by being equal

A renaming that keeps different names apart is carried through a whole check: the aliases that a
search has gathered are those of the other search renamed, and so both end in the same way.
-/
namespace StaleQuery

namespace Node

mutual
/-- The node with another name for each identifier in it. -/
def rename (f : String → String) : Node → Node
  | absent => absent
  | identifier name => identifier (f name)
  | member receiver name => member (receiver.rename f) (name.rename f)
  | call callee arguments span => call (callee.rename f) (renameAll f arguments) span
  | await argument => await (argument.rename f)
  | block statements => block (renameAll f statements)
  | expressionStatement expression => expressionStatement (expression.rename f)
  | function body => function (body.rename f)
  | conditional consequent alternate => conditional (consequent.rename f) (alternate.rename f)
  | catchClause body => catchClause (body.rename f)
  | tryCatch body handler => tryCatch (body.rename f) (handler.rename f)
  | patternProperty key value => patternProperty (key.rename f) (value.rename f)
  | objectPattern properties => objectPattern (renameAll f properties)
  | declarator target init => declarator (target.rename f) (init.rename f)
  | declaration declarators => declaration (renameAll f declarators)
  | property key value span => property (key.rename f) (value.rename f) span
  | object properties => object (renameAll f properties)
  | sealed kind => sealed kind

def renameAll (f : String → String) : List Node → List Node
  | [] => []
  | n :: rest => n.rename f :: renameAll f rest
end

@[simp] theorem renameAll_eq (f : String → String) (list : List Node) :
    renameAll f list = list.map (rename f) := by
  induction list with
  | nil => rfl
  | cons n rest ih => rw [renameAll, ih, List.map_cons]

theorem searched_rename (f : String → String) (n : Node) :
    (n.rename f).searched = n.searched.map (rename f) := by
  cases n <;> simp [rename, searched]

theorem entry?_rename (f : String → String) (n : Node) :
    Node.entry? (n.rename f) = n.entry?.map fun (key, value) =>
      (key.rename f, value.rename f) := by
  cases n <;> rfl

theorem span?_rename (f : String → String) {n : Node} {span : Span} (h : n.span? = .ok span) :
    (n.rename f).span? = .ok span := by
  cases n <;> first | exact h | cases h

theorem findSome?_properties?_rename (f : String → String) (arguments : List Node) :
    (arguments.map (rename f)).findSome? properties? =
      (arguments.findSome? properties?).map (List.map (rename f)) := by
  induction arguments with
  | nil => rfl
  | cons a rest ih =>
    rw [List.map_cons, List.findSome?_cons, List.findSome?_cons]
    cases a with
    | object properties => simp [rename, properties?]
    | _ => exact ih

end Node

def Fault.rename (f : String → String) (fault : Fault) : Fault :=
  { fault with holder := fault.holder.rename f }

def Outcome.rename (f : String → String) : Outcome → Outcome
  | found => found
  | missed aliases => missed (aliases.map f)
  | tooDeep => tooDeep
  | broken fault => broken (fault.rename f)

def Finding.rename (f : String → String) (finding : Finding) : Finding :=
  { finding with anchor := finding.anchor.rename f }

def Rule.rename (f : String → String) (rule : Rule) : Rule :=
  ⟨f rule.hook, f rule.callback, f rule.operation⟩

theorem Outcome.andThen_rename {f : String → String} (o : Outcome)
    {next next' : Aliases → Outcome}
    (h : ∀ aliases, next' (aliases.map f) = (next aliases).rename f) :
    (o.rename f).andThen next' = (o.andThen next).rename f := by
  cases o with
  | missed aliases => exact h aliases
  | found | tooDeep | broken => rfl

section

variable {f : String → String} (hf : Function.Injective f)
include hf

theorem Node.isIdentifier_rename (name : String) (n : Node) :
    (n.rename f).isIdentifier (f name) = n.isIdentifier name := by
  cases n with
  | identifier other =>
    have hname : f other = f name ↔ other = name := hf.eq_iff
    simp only [rename, isIdentifier, Bool.beq_eq_decide_eq, hname]
  | _ => rfl

theorem Aliases.contains_rename (aliases : Aliases) (name : String) :
    (aliases.map f).contains (f name) = aliases.contains name := by
  apply Bool.eq_iff_iff.mpr
  rw [List.contains_iff_mem, List.contains_iff_mem]
  exact List.mem_map_of_injective hf

namespace Search

variable (operation : String)

theorem directAlias_rename (target init : Node) (aliases : Aliases) :
    directAlias (f operation) (target.rename f) (init.rename f) (aliases.map f) =
      (directAlias operation target init aliases).map f := by
  cases target with
  | identifier name =>
    cases init with
    | member receiver property =>
      simp only [Node.rename, directAlias, Node.isIdentifier_rename hf]
      split <;> rfl
    | identifier source =>
      simp only [Node.rename, directAlias, Aliases.contains_rename hf]
      split <;> rfl
    | _ => rfl
  | _ => cases init <;> rfl

theorem patternAliases_rename (properties : List Node) (aliases : Aliases) :
    patternAliases (f operation) (properties.map (Node.rename f)) (aliases.map f) =
      ((patternAliases operation properties aliases).map (List.map f)).mapError (Fault.rename f) := by
  induction properties generalizing aliases with
  | nil => rfl
  | cons p rest ih =>
    rw [List.map_cons, patternAliases, patternAliases, Node.entry?_rename]
    cases p.entry? with
    | none => rfl
    | some entry =>
      obtain ⟨key, value⟩ := entry
      simp only [Option.map_some, Node.isIdentifier_rename hf]
      -- a name is added on both sides or on neither
      cases key.isIdentifier operation with
      | false => exact ih aliases
      | true =>
        cases value with
        | identifier name => exact ih (name :: aliases)
        | _ => exact ih aliases

theorem collectAliases_rename (target init : Node) (aliases : Aliases) :
    collectAliases (f operation) (target.rename f) (init.rename f) (aliases.map f) =
      ((collectAliases operation target init aliases).map (List.map f)).mapError
        (Fault.rename f) := by
  have hdirect := directAlias_rename hf operation target init aliases
  cases target with
  | objectPattern properties =>
    simp only [collectAliases, hdirect]
    rw [Node.rename, Node.renameAll_eq]
    exact patternAliases_rename hf operation properties _
  | _ => exact congrArg Except.ok hdirect

theorem matchesCallee_rename (aliases : Aliases) (callee : Node) :
    matchesCallee (f operation) (aliases.map f) (callee.rename f) =
      matchesCallee operation aliases callee := by
  cases callee with
  | member receiver property => exact Node.isIdentifier_rename hf operation property
  | identifier name => exact Aliases.contains_rename hf aliases name
  | _ => rfl

theorem enter_rename (n : Node) (aliases : Aliases) :
    enter (f operation) (n.rename f) (aliases.map f) = (enter operation n aliases).rename f := by
  cases n with
  | declarator target init =>
    simp only [Node.rename, enter, collectAliases_rename hf operation]
    cases collectAliases operation target init aliases <;> rfl
  | call callee arguments span =>
    simp only [Node.rename, enter, matchesCallee_rename hf operation]
    split <;> rfl
  | _ => rfl

omit hf in
theorem each_rename {visit visit' : Visit}
    (h : ∀ n aliases, visit' (n.rename f) (aliases.map f) = (visit n aliases).rename f)
    (list : List Node) (aliases : Aliases) :
    each visit' (list.map (Node.rename f)) (aliases.map f) = (each visit list aliases).rename f := by
  induction list generalizing aliases with
  | nil => rfl
  | cons n rest ih =>
    rw [List.map_cons, each_cons, each_cons, h]
    exact Outcome.andThen_rename _ ih

end Search

/-- The search for the renamed operation in the renamed node ends as the other does, renamed. -/
theorem search_rename (operation : String) (limit : Nat) (n : Node) (aliases : Aliases) :
    search (f operation) limit (n.rename f) (aliases.map f) =
      (search operation limit n aliases).rename f := by
  induction limit generalizing n aliases with
  | zero => cases n <;> rfl
  | succ limit ih =>
    rw [search, search, Search.level_eq, Search.level_eq, Node.searched_rename,
      Search.enter_rename hf]
    apply Outcome.andThen_rename
    exact Search.each_rename ih n.searched

theorem isReachable_rename (operation : String) (limit : Nat) (n : Node) :
    isReachable limit (f operation) (n.rename f) =
      (isReachable limit operation n).mapError (Fault.rename f) := by
  have hsearch := search_rename hf operation limit n []
  rw [List.map_nil] at hsearch
  rw [isReachable, isReachable, hsearch]
  cases search operation limit n [] <;> rfl

namespace Rule

variable (rule : Rule)

theorem callback?_rename (properties : List Node) :
    (rule.rename f).callback? (properties.map (Node.rename f)) =
      ((rule.callback? properties).map (Option.map fun (p, value) =>
        (p.rename f, value.rename f))).mapError (Fault.rename f) := by
  induction properties with
  | nil => rfl
  | cons p rest ih =>
    rw [List.map_cons, callback?, callback?, Node.entry?_rename]
    cases p.entry? with
    | none => rfl
    | some entry =>
      obtain ⟨key, value⟩ := entry
      have hkey : (key.rename f).isIdentifier (rule.rename f).callback =
          key.isIdentifier rule.callback := Node.isIdentifier_rename hf rule.callback key
      simp only [Option.map_some, hkey]
      split
      · rfl
      · exact ih

theorem check_rename (limit : Nat) (call : Node) :
    (rule.rename f).check limit (call.rename f) =
      ((rule.check limit call).map (Option.map (Finding.rename f))).mapError (Fault.rename f) := by
  cases call with
  | call callee arguments span =>
    have hcallee : (callee.rename f).isIdentifier (rule.rename f).hook =
        callee.isIdentifier rule.hook := Node.isIdentifier_rename hf rule.hook callee
    simp only [Node.rename, check, isRegistration, Node.callee?, Node.options?, Node.arguments?,
      bind, Except.bind, pure, Except.pure, Node.renameAll_eq, Node.findSome?_properties?_rename,
      hcallee]
    cases callee.isIdentifier rule.hook with
    | false => rfl
    | true =>
      cases arguments.findSome? Node.properties? with
      | none => simp [Except.map, Except.mapError, Finding.rename, Node.rename]
      | some properties =>
        simp only [Option.map_some, callback?_rename hf rule properties]
        cases rule.callback? properties with
        | error fault => rfl
        | ok found =>
          cases found with
          | none => simp [Except.map, Except.mapError, Finding.rename, Node.rename]
          | some entry =>
            have hreach : isReachable limit (rule.rename f).operation (entry.2.rename f) =
                (isReachable limit rule.operation entry.2).mapError (Fault.rename f) :=
              isReachable_rename hf rule.operation limit entry.2
            simp only [Except.map, Except.mapError, Option.map_some, hreach]
            rcases isReachable limit rule.operation entry.2 with fault | _ | _ <;> rfl
  | _ => rfl

end Rule
end

/-- A check of a renamed call against the renamed rule comes to what the check of the call itself
comes to, with the same reason, about the renamed node, in the same place; a search likewise. -/
theorem renaming_keeps_verdicts {f : String → String} (hf : Function.Injective f) (rule : Rule)
    (limit : Nat) (call : Node) :
    (rule.rename f).check limit (call.rename f) =
      ((rule.check limit call).map (Option.map (Finding.rename f))).mapError (Fault.rename f) ∧
    (∀ finding : Finding, (finding.rename f).reason = finding.reason ∧
      ∀ span, finding.anchor.span? = .ok span → (finding.rename f).anchor.span? = .ok span) ∧
    ∀ operation node, isReachable limit (f operation) (node.rename f) =
      (isReachable limit operation node).mapError (Fault.rename f) := by
  refine ⟨Rule.check_rename hf rule limit call, fun finding => ⟨rfl, fun span => ?_⟩,
    fun operation node => ?_⟩
  · exact Node.span?_rename f
  · exact isReachable_rename hf operation limit node

/-- The name of the operation and another one, exchanged. -/
def exchanged : String → String :=
  Equiv.swap "invalidateQueries" "refresh"

/-- A callback that calls the operation by an alias of an alias if `source` names the operation. -/
def aliasingCallback (source : String) : Node :=
  .function (.block
    [.declaration [.declarator (.identifier "first") (.member (.identifier "client")
      (.identifier source)), .declarator (.identifier "second") (.identifier "first")],
    .expressionStatement (.call (.identifier "second") [] ⟨3, 1, 3, 9⟩)])

def aliasingCall (source : String) : Node :=
  .call (.identifier "useMutation")
    [.object [.property (.identifier "onSuccess") (aliasingCallback source) ⟨2, 1, 4, 2⟩]]
    ⟨1, 1, 5, 3⟩

theorem exchanged_alias_same_verdict :
    Function.Injective exchanged ∧
    ({} : Rule).check 9 (aliasingCall "invalidateQueries") = .ok none ∧
    (({} : Rule).rename exchanged).check 9 ((aliasingCall "invalidateQueries").rename exchanged) =
      .ok none ∧
    (({} : Rule).rename exchanged).check 9 ((aliasingCall "refresh").rename exchanged) =
      .ok (some ⟨(Node.property (.identifier "onSuccess") (aliasingCallback "refresh")
        ⟨2, 1, 4, 2⟩).rename exchanged, .notInvalidated⟩) ∧
    isReachable 9 "refresh" ((aliasingCallback "invalidateQueries").rename exchanged) =
      .ok true := by
  have hinjective : Function.Injective exchanged := Equiv.injective _
  have hfound := renaming_keeps_verdicts hinjective {} 9 (aliasingCall "invalidateQueries")
  have hmissed := renaming_keeps_verdicts hinjective {} 9 (aliasingCall "refresh")
  exact ⟨hinjective, rfl, hfound.1.trans rfl, hmissed.1.trans rfl,
    (hfound.2.2 "invalidateQueries" (aliasingCallback "invalidateQueries")).trans rfl⟩

end StaleQuery
