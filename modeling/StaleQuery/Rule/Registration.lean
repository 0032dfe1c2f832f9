import StaleQuery.Model.Search

/-!
Registrations of a mutation and what is wrong with them. A registration calls the hook; its
options are the first object literal among the arguments, and the callback in them has to reach
the operation.
-/

namespace StaleQuery

/-- The three names that a check is about. -/
structure Rule where
  hook : String := "useMutation"
  callback : String := "onSuccess"
  operation : String := "invalidateQueries"
  deriving DecidableEq, Repr, Inhabited

inductive Reason where
  | missingOptions
  | missingCallback
  | notInvalidated
  deriving DecidableEq, Repr

def Reason.text : Reason → String
  | missingOptions => "missing-options"
  | missingCallback => "missing-callback"
  | notInvalidated => "not-invalidated"

/-- A registration that may leave stale data behind, and the node that is pointed at. -/
structure Finding where
  anchor : Node
  reason : Reason
  deriving Repr

namespace Node

def callee? : Node → Except Fault Node
  | call callee _ _ => .ok callee
  | n => .error ⟨n, "callee"⟩

def arguments? : Node → Except Fault (List Node)
  | call _ arguments _ => .ok arguments
  | n => .error ⟨n, "arguments"⟩

def span? : Node → Except Fault Span
  | call _ _ span => .ok span
  | property _ _ span => .ok span
  | n => .error ⟨n, "span"⟩

def properties? : Node → Option (List Node)
  | object properties => some properties
  | _ => none

/-- The properties of the first object literal among the arguments of a call. -/
def options? (call : Node) : Except Fault (Option (List Node)) :=
  return (← call.arguments?).findSome? properties?

end Node

namespace Rule

variable (rule : Rule)

def isRegistration (call : Node) : Except Fault Bool :=
  return (← call.callee?).isIdentifier rule.hook

/-- The first entry keyed by the name of the callback, with its value. -/
def callback? : List Node → Except Fault (Option (Node × Node))
  | [] => .ok none
  | p :: rest =>
    match p.entry? with
    | none => .error ⟨p, "key"⟩
    | some (key, value) =>
      if key.isIdentifier rule.callback then .ok (some (p, value)) else callback? rest

/-- A call of anything but the hook has no finding. -/
def check (limit : Nat) (call : Node) : Except Fault (Option Finding) := do
  if !(← rule.isRegistration call) then return none
  match ← call.options? with
  | none => return some ⟨call, .missingOptions⟩
  | some properties =>
    match ← rule.callback? properties with
    | none => return some ⟨call, .missingCallback⟩
    | some (property, value) =>
      if ← isReachable limit rule.operation value then return none
      return some ⟨property, .notInvalidated⟩

end Rule
end StaleQuery
