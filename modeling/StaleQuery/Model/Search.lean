import StaleQuery.Model.Node

/-!
Is a call of an operation reachable inside a callback? The search goes through blocks,
conditionals, handlers, awaits, nested calls and nested functions, in the order in which they are
written, and gathers the local names that stand for the operation on its way. A name that has
become an alias stays one to the end of the search.
-/

namespace StaleQuery

abbrev Aliases := List String

/-- An entry stands where entries with a key and a value are expected, and is neither. -/
structure Fault where
  holder : Node
  field : String
  deriving Repr

inductive Outcome where
  | found
  /-- Nothing was found; these names are aliases from here on. -/
  | missed (aliases : Aliases)
  | tooDeep
  | broken (fault : Fault)
  deriving Repr

namespace Outcome

/-- Goes on only as long as nothing has ended the search. -/
def andThen : Outcome → (Aliases → Outcome) → Outcome
  | missed aliases, next => next aliases
  | outcome, _ => outcome

end Outcome

namespace Node

def isIdentifier (name : String) : Node → Bool
  | identifier other => other == name
  | _ => false

/-- Key and value of an entry of a literal or of a pattern. -/
def entry? : Node → Option (Node × Node)
  | property key value _ => some (key, value)
  | patternProperty key value => some (key, value)
  | _ => none

end Node

namespace Search

variable (operation : String)

/-- Names that a target binds to the operation because of what it is initialised with. -/
def directAlias (target init : Node) (aliases : Aliases) : Aliases :=
  match init, target with
  | .member _ property, .identifier name =>
    if property.isIdentifier operation then name :: aliases else aliases
  | .identifier source, .identifier name =>
    if aliases.contains source then name :: aliases else aliases
  | _, _ => aliases

/-- Names that a destructuring pattern binds to the operation. -/
def patternAliases : List Node → Aliases → Except Fault Aliases
  | [], aliases => .ok aliases
  | p :: rest, aliases =>
    match p.entry? with
    | none => .error ⟨p, "key"⟩
    | some (key, value) =>
      match key.isIdentifier operation, value with
      | true, .identifier name => patternAliases rest (name :: aliases)
      | _, _ => patternAliases rest aliases

def collectAliases (target init : Node) (aliases : Aliases) : Except Fault Aliases :=
  let aliases := directAlias operation target init aliases
  match target with
  | .objectPattern properties => patternAliases operation properties aliases
  | _ => .ok aliases

/-- A member named like the operation, whatever its object, or an alias. -/
def matchesCallee (aliases : Aliases) : Node → Bool
  | .member _ property => property.isIdentifier operation
  | .identifier name => aliases.contains name
  | _ => false

abbrev Visit := Node → Aliases → Outcome

def each (visit : Visit) : List Node → Aliases → Outcome
  | [], aliases => .missed aliases
  | n :: rest, aliases => (visit n aliases).andThen (each visit rest)

/-- One level of the search, given how the next level is searched. -/
def level (visit : Visit) : Visit
  | .declarator target init, aliases =>
    match collectAliases operation target init aliases with
    | .ok aliases => visit init aliases
    | .error fault => .broken fault
  | .call callee arguments _, aliases =>
    if matchesCallee operation aliases callee then .found
    else (visit callee aliases).andThen (each visit arguments)
  | .await argument, aliases => visit argument aliases
  | .block body, aliases => each visit body aliases
  | .expressionStatement expression, aliases => visit expression aliases
  | .function body, aliases => visit body aliases
  | .member object property, aliases => (visit object aliases).andThen (visit property)
  | .conditional consequent alternate, aliases =>
    (visit consequent aliases).andThen (visit alternate)
  | .tryCatch block handler, aliases => (visit block aliases).andThen (visit handler)
  | .catchClause body, aliases => visit body aliases
  | .declaration declarators, aliases => each visit declarators aliases
  | .absent, aliases => .missed aliases
  | .identifier _, aliases => .missed aliases
  | .patternProperty .., aliases => .missed aliases
  | .objectPattern _, aliases => .missed aliases
  | .property .., aliases => .missed aliases
  | .object _, aliases => .missed aliases
  | .sealed _, aliases => .missed aliases

end Search

/-- Searches at most `limit` levels of nodes. -/
def search (operation : String) : Nat → Search.Visit
  | 0 => fun
    | .absent, aliases => .missed aliases
    | _, _ => .tooDeep
  | limit + 1 => Search.level operation (search operation limit)

/-- A body nested too deeply to search does not reach the operation. -/
def isReachable (limit : Nat) (operation : String) (node : Node) : Except Fault Bool :=
  match search operation limit node [] with
  | .found => .ok true
  | .missed _ => .ok false
  | .tooDeep => .ok false
  | .broken fault => .error fault

end StaleQuery
