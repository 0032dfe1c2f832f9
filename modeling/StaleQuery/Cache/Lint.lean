import StaleQuery.Cache.Handle
import StaleQuery.Cache.Key
import StaleQuery.Files.Discovery
import StaleQuery.Json.Writer
import StaleQuery.Rule.Lint
import StaleQuery.Rule.Record
import StaleQuery.Source.Toolchain

/-!
Checking files, with a cache or without. With one, a file is first looked up under its key; if
nothing is stored there it is read and checked, and the result is stored under the key that
the file has then.
-/

namespace StaleQuery

/-- Why checking a file through a cache fails. -/
inductive LintFault where
  | cache (fault : CacheFault)
  | record (fault : RecordFault)

/-- The rule with the names it has unless told otherwise. -/
def Rule.standard : Rule := {}

/-- The reports on a tree. Lowering gives well-formed models only, on which checking never stops
short. -/
def Rule.reports (rule : Rule) (limit : Nat) (filePath : String) (t : Tree) : List Diagnostic :=
  match rule.checkTree limit filePath t with
  | .ok ds => ds
  | .error _ => []

/-- The place in which work is done: the files, where paths start from, the version that goes into
keys, and what parses sources and reads JSON. -/
structure Workspace where
  files : Files
  cwd : Location
  version : String
  tools : Toolchain := .standard

namespace Workspace

def cacheKey? (w : Workspace) (path : Path) : Option String :=
  w.files.cacheKey? w.cwd w.version path

/-- Checks one file. What is no file of a dialect, or cannot be read, has no reports. -/
def lintFile (w : Workspace) (readable : Bool) (path : Path) : List Diagnostic :=
  match path.dialect?, w.files.entry w.cwd path with
  | some dialect, .ok (.file (.bytes data) _) =>
    if readable then
      Rule.standard.reports depthLimit path.toString (w.tools.parse dialect data)
    else []
  | _, _ => []

/-- What is stored for a file as it is now. A text that is no JSON counts as nothing stored, but one
that goes past the limits of the reader is not taken for that. -/
def stored? (w : Workspace) (handle : Handle) (path : Path) : Except CacheFault (Option Json) :=
  match w.cacheKey? path with
  | none => .ok none
  | some key => do
    match (← w.files.rows handle).lookup path.toString key with
    | none => return none
    | some text =>
      match Json.parse w.tools.limits text with
      | .error .malformed | .ok .null => return none
      | .error fault => .error (.unreadable fault)
      | .ok value => return some value

/-- Stores a value for a file as it is now: data that a reader with the same limits has room for. -/
def store (w : Workspace) (handle : Handle) (path : Path) (value : Json) :
    Except CacheFault Workspace :=
  match w.cacheKey? path with
  | none => .ok w
  | some key => do
    let rows ← w.files.rows handle
    let files ← w.files.setRows handle (rows.save path.toString key value.line)
    return { w with files }

/-- Reads and checks a file and stores the result. -/
def lintAndStore (w : Workspace) (handle : Handle) (path : Path) :
    Except LintFault (List Record) × Workspace :=
  let records := (w.lintFile true path).map Diagnostic.record
  match w.store handle path (Record.listToJson records) with
  | .ok w => (.ok records, w)
  | .error fault => (.error (.cache fault), w)

/-- Checks a file through a cache, if there is one. -/
def lintCached (w : Workspace) (handle : Option Handle) (path : Path) :
    Except LintFault (List Record) × Workspace :=
  match handle with
  | none => (.ok ((w.lintFile true path).map Diagnostic.record), w)
  | some handle =>
    match w.stored? handle path with
    | .error fault => (.error (.cache fault), w)
    | .ok none => w.lintAndStore handle path
    | .ok (some value) =>
      match Record.listOfJson value with
      | .ok records => (.ok records, w)
      | .error fault => (.error (.record fault), w)

/-- Checks files one after the other and stops at the first that fails. -/
def lintAll (w : Workspace) (handle : Option Handle) :
    List Path → Except LintFault (List Record) × Workspace
  | [] => (.ok [], w)
  | path :: rest =>
    match w.lintCached handle path with
    | (.error fault, w) => (.error fault, w)
    | (.ok first, w) =>
      match w.lintAll handle rest with
      | (.error fault, w) => (.error fault, w)
      | (.ok others, w) => (.ok (first ++ others), w)

def discover (w : Workspace) (excluded : List String) (paths : List Path) : List Path :=
  w.files.discover w.cwd excluded paths

/-- Checks every source that the paths stand for. -/
def lintPaths (w : Workspace) (handle : Option Handle) (excluded : List String)
    (paths : List Path) : Except LintFault (List Record) × Workspace :=
  w.lintAll handle (w.discover excluded paths)

end Workspace
end StaleQuery
