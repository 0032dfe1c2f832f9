import StaleQuery.Model.Search
import StaleQuery.Proofs.Model.WellFormed

/-!
# The search as a walk over events

Only calls and declarators do anything during a search. Their sequence, in the order of the visit,
is a plain function of the node; within the depth limit a search is nothing but one pass over it.
-/
namespace StaleQuery

namespace Outcome

@[simp] theorem missed_andThen (aliases : Aliases) (next : Aliases → Outcome) :
    (missed aliases).andThen next = next aliases := rfl

@[simp] theorem found_andThen (next : Aliases → Outcome) : found.andThen next = found := rfl

@[simp] theorem broken_andThen (fault : Fault) (next : Aliases → Outcome) :
    (broken fault).andThen next = broken fault := rfl

@[simp] theorem andThen_missed (o : Outcome) : o.andThen missed = o := by
  cases o <;> rfl

theorem andThen_assoc (o : Outcome) (f g : Aliases → Outcome) :
    (o.andThen f).andThen g = o.andThen fun aliases => (f aliases).andThen g := by
  cases o <;> rfl

end Outcome

namespace Node

theorem isIdentifier_iff {name : String} {n : Node} :
    n.isIdentifier name = true ↔ n = .identifier name := by
  cases n <;> simp [isIdentifier]

/-- The places below a node that are searched, in the order in which they are visited. -/
def searched : Node → List Node
  | declarator _ init => [init]
  | call callee arguments _ => callee :: arguments
  | await argument => [argument]
  | block statements => statements
  | expressionStatement expression => [expression]
  | function body => [body]
  | member receiver name => [receiver, name]
  | conditional consequent alternate => [consequent, alternate]
  | tryCatch body handler => [body, handler]
  | catchClause body => [body]
  | declaration declarators => declarators
  | absent | identifier _ | patternProperty .. | objectPattern _ | property .. | object _
  | sealed _ => []

theorem sizeOf_lt_of_mem_searched {n m : Node} (h : m ∈ n.searched) : sizeOf m < sizeOf n := by
  cases n with
  | call callee arguments span =>
    rcases List.mem_cons.mp h with rfl | h
    · simp +arith
    · have := List.sizeOf_lt_of_mem h
      simp +arith
      omega
  | block list | declaration list =>
    have : sizeOf m < sizeOf list := List.sizeOf_lt_of_mem h
    simp +arith
    omega
  | declarator _ child | await child | expressionStatement child | function child
  | catchClause child =>
    obtain rfl : m = child := List.mem_singleton.mp h
    simp +arith
  | member first second | conditional first second | tryCatch first second =>
    have hm : m = first ∨ m = second := by simpa [searched] using h
    rcases hm with rfl | rfl <;> simp +arith
  | absent | identifier | patternProperty | objectPattern | property | object | «sealed» =>
    cases h

def isEvent : Node → Bool
  | call .. | declarator .. => true
  | _ => false

/-- The calls and declarators of a node, each before those below it. -/
def events (n : Node) : List Node :=
  (if n.isEvent then [n] else []) ++ n.searched.attach.flatMap fun m => m.1.events
termination_by sizeOf n
decreasing_by exact sizeOf_lt_of_mem_searched m.2

theorem events_eq (n : Node) :
    n.events = (if n.isEvent then [n] else []) ++ n.searched.flatMap events := by
  rw [events, List.flatMap_subtype (g := events) (by simp)]
  simp

/-- Whether a node is searched to its end within `limit` levels. -/
def Within : Nat → Node → Prop
  | 0, n => n = absent
  | limit + 1, n => ∀ m ∈ n.searched, m.Within limit

theorem within_absent (limit : Nat) : absent.Within limit := by
  cases limit with
  | zero => rfl
  | succ limit => exact fun m hm => by cases hm

theorem WellFormed.searched {n : Node} (h : n.WellFormed) :
    ∀ m ∈ n.searched, m = absent ∨ m.WellFormed := by
  intro m hm
  cases h with
  | identifier | «sealed» | objectPattern | object => cases hm
  | declaratorOnly => exact Or.inl (List.mem_singleton.mp hm)
  | declarator _ h | await h | expressionStatement h | function h | catchClause h =>
    obtain rfl := List.mem_singleton.mp hm
    exact Or.inr h
  | block h | declaration _ h => exact Or.inr (h m hm)
  | call h ha =>
    rcases List.mem_cons.mp hm with rfl | hm
    · exact Or.inr h
    · exact Or.inr (ha m hm)
  | conditional h | tryOnly h =>
    rcases List.mem_cons.mp hm with rfl | hm
    · exact Or.inr h
    · exact Or.inl (List.mem_singleton.mp hm)
  | member h k | conditionalElse h k | tryCatch h k =>
    rcases List.mem_cons.mp hm with rfl | hm
    · exact Or.inr h
    · obtain rfl := List.mem_singleton.mp hm
      exact Or.inr k

theorem events_absent : absent.events = [] := by
  simp [events_eq, isEvent, Node.searched]

theorem WellFormed.events {n : Node} (h : n.WellFormed) : ∀ e ∈ n.events, e.WellFormed := by
  induction n using Node.events.induct with
  | case1 n ih =>
    intro e he
    rw [events_eq, List.mem_append, List.mem_flatMap] at he
    rcases he with he | ⟨m, hm, he⟩
    · split at he
      · obtain rfl := List.mem_singleton.mp he
        exact h
      · cases he
    · rcases h.searched m hm with rfl | hw
      · simp [events_absent] at he
      · exact ih ⟨m, hm⟩ hw e he

end Node

namespace Search

variable (operation : String)

/-- What a node does by itself: a call may end the search, a declarator may add names. -/
def enter : Visit
  | .declarator target init, aliases =>
    match collectAliases operation target init aliases with
    | .ok aliases => .missed aliases
    | .error fault => .broken fault
  | .call callee _ _, aliases =>
    if matchesCallee operation aliases callee then .found else .missed aliases
  | _, aliases => .missed aliases

variable {operation}

theorem enter_of_not_event {n : Node} (h : n.isEvent = false) (aliases : Aliases) :
    enter operation n aliases = .missed aliases := by
  cases n <;> first | rfl | cases h

@[simp] theorem each_nil (visit : Visit) : each visit [] = .missed := rfl

@[simp] theorem each_cons (visit : Visit) (n : Node) (rest : List Node) (aliases : Aliases) :
    each visit (n :: rest) aliases = (visit n aliases).andThen (each visit rest) := rfl

@[simp] theorem each_singleton (visit : Visit) (n : Node) : each visit [n] = visit n :=
  funext fun _ => Outcome.andThen_missed _

theorem each_append (visit : Visit) (first second : List Node) (aliases : Aliases) :
    each visit (first ++ second) aliases = (each visit first aliases).andThen (each visit second) := by
  induction first generalizing aliases with
  | nil => rfl
  | cons n rest ih =>
    simp only [List.cons_append, each_cons, Outcome.andThen_assoc]
    exact congrArg _ (funext ih)

theorem each_flatMap {visit step : Visit} {parts : Node → List Node} {list : List Node}
    (h : ∀ n ∈ list, ∀ aliases, visit n aliases = each step (parts n) aliases)
    (aliases : Aliases) : each visit list aliases = each step (list.flatMap parts) aliases := by
  induction list generalizing aliases with
  | nil => rfl
  | cons n rest ih =>
    rw [List.flatMap_cons, each_append, each_cons, h n List.mem_cons_self]
    exact congrArg _ (funext (ih fun m hm => h m (List.mem_cons_of_mem _ hm)))

theorem level_eq (visit : Visit) (n : Node) (aliases : Aliases) :
    level operation visit n aliases = (enter operation n aliases).andThen (each visit n.searched) := by
  cases n with
  | declarator target init =>
    simp only [level, enter, Node.searched]
    split <;> simp [*]
  | call callee arguments span =>
    simp only [level, enter, Node.searched]
    split <;> simp
  | _ => simp [level, enter, Node.searched]

end Search

theorem search_absent (operation : String) (limit : Nat) (aliases : Aliases) :
    search operation limit .absent aliases = .missed aliases := by
  cases limit <;> rfl

theorem isReachable_eq_true_iff {operation : String} {limit : Nat} {n : Node} :
    isReachable limit operation n = .ok true ↔ search operation limit n [] = .found := by
  simp only [isReachable]
  split <;> simp_all

/-- Within its depth limit a search is one pass over the events. -/
theorem search_eq_each_events {operation : String} {limit : Nat} {n : Node} (h : n.Within limit)
    (aliases : Aliases) :
    search operation limit n aliases = Search.each (Search.enter operation) n.events aliases := by
  induction limit generalizing n aliases with
  | zero =>
    obtain rfl : n = .absent := h
    simp [search, Node.events_absent]
  | succ limit ih =>
    have below : ∀ aliases, Search.each (search operation limit) n.searched aliases =
        Search.each (Search.enter operation) (n.searched.flatMap Node.events) aliases :=
      Search.each_flatMap fun m hm aliases => ih (h m hm) aliases
    rw [search, Search.level_eq, Node.events_eq, Search.each_append, funext below]
    split
    · rw [Search.each_singleton]
    · rename_i hn
      rw [Search.enter_of_not_event (by simpa using hn), Search.each_nil]

end StaleQuery
