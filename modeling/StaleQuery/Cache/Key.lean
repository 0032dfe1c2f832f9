import StaleQuery.Files.Basic
import StaleQuery.Json.Writer

/-!
The key of a file: the version of the rule, the time of the last change and the size. A result that
was stored under another key is out of date.
-/

namespace StaleQuery

def Entry.cacheKey (version : String) (e : Entry) : String :=
  version ++ ":" ++ e.modified.text ++ ":" ++ String.ofList (Nat.toDigits 10 e.size)

/-- The key of what a path leads to, if it leads to anything. -/
def Files.cacheKey? (files : Files) (cwd : Location) (version : String) (path : Path) :
    Option String :=
  match files.entry cwd path with
  | .ok e => some (e.cacheKey version)
  | .error _ => none

end StaleQuery
