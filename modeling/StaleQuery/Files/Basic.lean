import StaleQuery.Files.Path
import StaleQuery.Files.Time
import StaleQuery.Cache.Store

/-!
A tree of files and directories and how paths are followed through it. A place is given by the names
that lead to it from the root. A directory carries the time of the last change of its own
list of names. Names are texts: those that are not UTF-8 are left out, and so are symbolic links. No
name has a slash or a NUL in it.
-/

namespace StaleQuery

/-- The names from the root down. -/
abbrev Location := List String

inductive Content where
  | bytes (data : ByteArray)
  | store (rows : Store)

inductive Entry where
  | directory (modified : Time)
  | file (content : Content) (modified : Time)

/-- Why an operation on files is refused. -/
inductive FileFault where
  | notFound
  | notDirectory
  | taken
  | isDirectory
  deriving DecidableEq, Repr

structure Files where
  entries : Ledger Location Entry
  /-- The second in which the next change of a directory happens. Every change is later than the
  one before. -/
  clock : Nat

namespace Content

def size : Content → Nat
  | bytes data => data.size
  | store rows => rows.foldl (fun n (path, row) =>
      n + path.utf8ByteSize + row.key.utf8ByteSize + row.text.utf8ByteSize) 0

end Content

namespace Entry

def isDirectory : Entry → Bool
  | directory _ => true
  | file .. => false

def modified : Entry → Time
  | directory t => t
  | file _ t => t

/-- Directories all have one size. -/
def size : Entry → Nat
  | directory _ => 4096
  | file content _ => content.size

def touched (t : Time) : Entry → Entry
  | directory _ => directory t
  | file content _ => file content t

end Entry

namespace Files

/-- A lone root directory. -/
def empty (clock : Nat) : Files :=
  ⟨[([], .directory (Time.ofSeconds clock 0))], clock + 1⟩

def get? (files : Files) (place : Location) : Option Entry :=
  Ledger.get? place files.entries

/-- Follows names from a place. Whatever is stepped through must be a directory. -/
def walk (files : Files) (place : Location) : List String → Except FileFault Location
  | [] => .ok place
  | name :: rest =>
    match files.get? place with
    | none => .error .notFound
    | some (.file ..) => .error .notDirectory
    | some (.directory _) =>
      files.walk (if name = ".." then place.dropLast else place ++ [name]) rest

/-- Where a path leads to, seen from a working directory. Nothing need be there. -/
def locate (files : Files) (cwd : Location) (path : Path) : Except FileFault Location :=
  files.walk (if path.isAbsolute then [] else cwd) path.parts

def entry (files : Files) (cwd : Location) (path : Path) : Except FileFault Entry := do
  match files.get? (← files.locate cwd path) with
  | some e => return e
  | none => .error .notFound

def has (files : Files) (cwd : Location) (path : Path) : Bool :=
  match files.entry cwd path with
  | .ok _ => true
  | .error _ => false

def isFile (files : Files) (cwd : Location) (path : Path) : Bool :=
  match files.entry cwd path with
  | .ok e => !e.isDirectory
  | .error _ => false

def isDirectory (files : Files) (cwd : Location) (path : Path) : Bool :=
  match files.entry cwd path with
  | .ok e => e.isDirectory
  | .error _ => false

/-- Takes the double dots out of a path without looking at any file. -/
def resolveParts (place : Location) : List String → Location
  | [] => place
  | name :: rest => resolveParts (if name = ".." then place.dropLast else place ++ [name]) rest

def resolve (cwd : Location) (path : Path) : Location :=
  resolveParts (if path.isAbsolute then [] else cwd) path.parts

end Files

/-- The absolute path that spells a place. -/
def Location.path (place : Location) : Path :=
  ⟨"/", place⟩

end StaleQuery
