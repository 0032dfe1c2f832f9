import StaleQuery.Cache.Store
import StaleQuery.Json.Reader
import StaleQuery.Json.Writer

/-!
The rows of a cache as text, for keeping them in a file.
-/

namespace StaleQuery.Store

def rowToJson (path : String) (row : Row) : Json :=
  .arr [.str path, .str row.key, .str row.text]

def encode (store : Store) : String :=
  (Json.arr (store.map fun (path, row) => rowToJson path row)).line

def rowOfJson? : Json → Option (String × Row)
  | .arr [.str path, .str key, .str text] => some (path, ⟨key, text⟩)
  | _ => none

/-- The rows that a text was made from. -/
def decode? (text : String) : Option Store :=
  match Json.parse? text with
  | some (.arr items) => items.mapM rowOfJson?
  | _ => none

end StaleQuery.Store
