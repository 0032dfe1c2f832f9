import StaleQuery.Files.Change
import StaleQuery.Json.Reader

/-!
Opening a cache and getting at its rows. The rows live in a file `lint.db`; a cache that is closed,
or whose file has been put out of the way, says so when it is used.
-/

namespace StaleQuery

inductive Handle where
  /-- Open on the file at a place. -/
  | live (place : Location)
  /-- Open on a file that has been removed since. -/
  | detached (rows : Store)
  | closed

/-- Why a cache cannot be used. -/
inductive CacheFault where
  | file (fault : FileFault)
  /-- The file holds something else. -/
  | notStore
  /-- The file has been emptied. -/
  | noRows
  /-- There is a directory in its place. -/
  | unopenable
  /-- The file is gone and cannot be written. -/
  | readOnly
  /-- A stored text goes past the limits of the reader. -/
  | unreadable (fault : Json.ReadFault)
  | closed
  deriving DecidableEq, Repr

def Cache.fileName : String := "lint.db"

def Cache.defaultDirectory : String := ".mutation_guard_cache"

namespace Files

/-- Whether there is room for no row: a single byte is what a store that was never written to may
leave behind. -/
def blankStore (data : ByteArray) : Bool :=
  data.size ≤ 1

/-- The rows that an open cache starts with: those of its file, or none in a new or blank file. -/
def openRows (files : Files) (place : Location) : Except CacheFault Files :=
  match files.get? place with
  | some (.directory _) => .error .unopenable
  | some (.file (.store _) _) => .ok files
  | some (.file (.bytes data) _) =>
    if blankStore data then .ok (files.put place (.file (.store []) (Time.ofSeconds files.clock 0)))
    else .error .notStore
  | none => .ok (files.put place (.file (.store []) (Time.ofSeconds files.clock 0)))

/-- Opens the cache in a directory, which is made if need be. -/
def openCache (files : Files) (cwd : Location) (directory : Path) :
    Except CacheFault Location × Files :=
  match files.makeDirectories cwd directory with
  | (some fault, made) => (.error (.file fault), made)
  | (none, made) =>
    match made.locate cwd (directory.join ⟨"", [Cache.fileName]⟩) with
    | .error fault => (.error (.file fault), made)
    | .ok place =>
      match made.openRows place with
      | .ok ready => (.ok place, ready)
      | .error fault => (.error fault, made)

def rows (files : Files) : Handle → Except CacheFault Store
  | .closed => .error .closed
  | .detached rows => .ok rows
  | .live place =>
    match files.get? place with
    | some (.file (.store rows) _) => .ok rows
    | some (.file (.bytes data) _) => .error (if blankStore data then .noRows else .notStore)
    | _ => .error .noRows

def setRows (files : Files) (handle : Handle) (rows : Store) : Except CacheFault Files := do
  let _ ← files.rows handle
  match handle with
  | .live place => return files.put place (.file (.store rows) (Time.ofSeconds files.clock 0))
  | _ => .error .readOnly

end Files
end StaleQuery
