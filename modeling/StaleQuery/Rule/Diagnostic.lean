import StaleQuery.Model.Node
import StaleQuery.Rule.Registration

/-!
What the rule is called, what it says, and one report of it.
-/

namespace StaleQuery

namespace Rule

def name : String := "require-mutation-invalidation"

def kind : String := "problem"

def description : String := "Enforce calling invalidateQueries in useMutation onSuccess callbacks"

def messageId : String := "missingInvalidation"

def message : String :=
  "useMutation onSuccess callback must call invalidateQueries to ensure data consistency"

def url : String :=
  "https://github.com/adelowo/eslint-plugin-react-query-keys/blob/main/docs/rules/" ++ name ++ ".md"

end Rule

/-- One reported place in a file. -/
structure Diagnostic where
  filePath : String
  span : Span
  reason : Reason
  deriving DecidableEq, Repr

end StaleQuery
