import StaleQuery.Files.Basic

/-!
Changes of a tree of files. An operation that is refused half way leaves what it has done by then,
so each gives the tree it ends with beside the refusal.
-/

namespace StaleQuery.Files

/-- Stamps a directory whose list of names has changed. -/
def stampDirectory (files : Files) (place : Location) : Files :=
  match files.get? place with
  | some (.directory _) =>
    ⟨Ledger.put place (.directory (Time.ofSeconds files.clock 0)) files.entries, files.clock + 1⟩
  | _ => files

/-- Puts an entry at a place; a new one is noted by the directory above. -/
def put (files : Files) (place : Location) (e : Entry) : Files :=
  let written : Files := { files with entries := Ledger.put place e files.entries }
  if (files.get? place).isSome then written else written.stampDirectory place.dropLast

def erase (files : Files) (place : Location) : Files :=
  let left : Files := { files with entries := Ledger.erase place files.entries }
  left.stampDirectory place.dropLast

/-- Makes one directory in one that is there. -/
def makeDirectory (files : Files) (cwd : Location) (path : Path) : Except FileFault Files := do
  let place ← files.locate cwd path
  match files.get? place with
  | some _ => .error .taken
  | none => return files.put place (.directory (Time.ofSeconds files.clock 0))

/-- Makes a directory with all that is missing above it; one that is there already is welcome. The
names of the path come last first. -/
def makeDirectoriesRev (files : Files) (cwd : Location) (anchor : String) :
    List String → Option FileFault × Files
  | [] => (if files.isDirectory cwd ⟨anchor, []⟩ then none else some .notFound, files)
  | name :: above =>
    let path : Path := ⟨anchor, (name :: above).reverse⟩
    match files.makeDirectory cwd path with
    | .ok made => (none, made)
    | .error .notFound =>
      match files.makeDirectoriesRev cwd anchor above with
      | (some fault, made) => (some fault, made)
      | (none, made) =>
        match made.makeDirectory cwd path with
        | .ok complete => (none, complete)
        | .error fault => (if made.isDirectory cwd path then none else some fault, made)
    | .error fault => (if files.isDirectory cwd path then none else some fault, files)

def makeDirectories (files : Files) (cwd : Location) (path : Path) : Option FileFault × Files :=
  files.makeDirectoriesRev cwd path.anchor path.parts.reverse

/-- Writes a whole file where its directory is there. -/
def writeContent (files : Files) (cwd : Location) (path : Path) (content : Content) (time : Time) :
    Except FileFault Files := do
  let place ← files.locate cwd path
  match files.get? place with
  | some (.directory _) => .error .isDirectory
  | _ => return files.put place (.file content time)

/-- Writes a file and makes the directories above it. -/
def write (files : Files) (cwd : Location) (path : Path) (data : ByteArray) (time : Time) :
    Option FileFault × Files :=
  match files.makeDirectories cwd path.parent with
  | (some fault, made) => (some fault, made)
  | (none, made) =>
    match made.writeContent cwd path (.bytes data) time with
    | .ok written => (none, written)
    | .error fault => (some fault, made)

/-- Sets the time of a file or directory. -/
def touch (files : Files) (cwd : Location) (path : Path) (time : Time) : Except FileFault Files := do
  let place ← files.locate cwd path
  match files.get? place with
  | none => .error .notFound
  | some e => return { files with entries := Ledger.put place (e.touched time) files.entries }

def remove (files : Files) (cwd : Location) (path : Path) : Except FileFault Files := do
  let place ← files.locate cwd path
  match files.get? place with
  | none => .error .notFound
  | some (.directory _) => .error .isDirectory
  | some (.file ..) => return files.erase place

end StaleQuery.Files
