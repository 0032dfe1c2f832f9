import StaleQuery.Files.Ledger

/-!
The rows of a result cache: for each path, the key under which a result was stored and its text.
-/

namespace StaleQuery

/-- A stored text with the key of the file that it belongs to. -/
structure Row where
  key : String
  text : String
  deriving DecidableEq, Repr

abbrev Store := Ledger String Row

structure Statistics where
  cachedFiles : Nat
  filesWithDiagnostics : Nat
  deriving DecidableEq, Repr

namespace Store

/-- What is stored for a path under a key. -/
def lookup (store : Store) (path key : String) : Option String :=
  match Ledger.get? path store with
  | some row => if row.key = key then some row.text else none
  | none => none

def save (store : Store) (path key text : String) : Store :=
  Ledger.put path ⟨key, text⟩ store

/-- Changes the text of a path that has a row. -/
def replaceText (store : Store) (path text : String) : Store :=
  match Ledger.get? path store with
  | some row => Ledger.put path ⟨row.key, text⟩ store
  | none => store

/-- The text of no diagnostics at all. -/
def emptyText : String := "[]"

def statistics (store : Store) : Statistics :=
  ⟨store.length, (store.filter (·.2.text ≠ emptyText)).length⟩

end Store
end StaleQuery
