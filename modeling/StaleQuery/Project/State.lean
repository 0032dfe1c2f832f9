import StaleQuery.Command.Run

/-!
A project over time: its files, the working directory, the environment, the settings, and a cache
that may be open. Every step gives an answer and the state after it; a step that fails leaves what it
has done by then.
-/

namespace StaleQuery

structure Project where
  workspace : Workspace
  environment : Environment := []
  /-- Whether the settings file has been loaded. -/
  configured : Bool := false
  handle : Option Handle := none

namespace Project

def files (p : Project) : Files := p.workspace.files

def withFiles (p : Project) (files : Files) : Project :=
  { p with workspace := { p.workspace with files } }

/-- An empty project in a directory of its own. -/
def new (root : Location) (clock : Nat) : Project :=
  let files := (Files.empty clock).makeDirectories [] root.path
  { workspace := { files := files.2, cwd := root, version := Report.version } }

/-! Files -/

def write (p : Project) (path : Path) (data : ByteArray) (time : Time) :
    Option FileFault × Project :=
  let (fault, files) := p.files.write p.workspace.cwd path data time
  (fault, p.withFiles files)

def makeDirectory (p : Project) (path : Path) : Option FileFault × Project :=
  let (fault, files) := p.files.makeDirectories p.workspace.cwd path
  (fault, p.withFiles files)

def touch (p : Project) (path : Path) (time : Time) : Except FileFault Project := do
  return p.withFiles (← p.files.touch p.workspace.cwd path time)

/-- A cache that is open on a removed file keeps what it holds. -/
def detach (p : Project) (path : Path) : Option Handle :=
  match p.handle, p.files.locate p.workspace.cwd path with
  | some (.live place), .ok removed =>
    if place = removed then
      match p.files.rows (.live place) with
      | .ok rows => some (.detached rows)
      | .error _ => p.handle
    else p.handle
  | handle, _ => handle

def remove (p : Project) (path : Path) : Except FileFault Project := do
  let files ← p.files.remove p.workspace.cwd path
  return { p.withFiles files with handle := p.detach path }

def changeDirectory (p : Project) (path : Path) : Except FileFault Project := do
  let place ← p.files.locate p.workspace.cwd path
  match p.files.get? place with
  | some (.directory _) => return { p with workspace := { p.workspace with cwd := place } }
  | some (.file ..) => .error .notDirectory
  | none => .error .notFound

/-! Checking -/

def lintCached (p : Project) (path : Path) : Except LintFault (List Record) × Project :=
  let (result, workspace) := p.workspace.lintCached p.handle path
  (result, { p with workspace })

def lintPaths (p : Project) (excluded : List String) (paths : List Path) :
    Except LintFault (List Record) × Project :=
  let (result, workspace) := p.workspace.lintPaths p.handle excluded paths
  (result, { p with workspace })

/-! The cache -/

/-- Opens a cache in place of the one before, which stays if that fails. -/
def openCache (p : Project) (directory : Path) : Option CacheFault × Project :=
  match p.files.openCache p.workspace.cwd directory with
  | (.ok place, files) => (none, { p.withFiles files with handle := some (.live place) })
  | (.error fault, files) => (some fault, p.withFiles files)

def closeCache (p : Project) : Project :=
  { p with handle := p.handle.map fun _ => .closed }

def setVersion (p : Project) (version : String) : Project :=
  { p with workspace := { p.workspace with version } }

/-- The cache that is in use, open or not. -/
def currentHandle (p : Project) : Handle :=
  p.handle.getD .closed

def cacheGet (p : Project) (path : Path) : Except CacheFault (Option Json) :=
  p.workspace.stored? p.currentHandle path

def cacheSet (p : Project) (path : Path) (value : Json) : Except CacheFault Project := do
  return { p with workspace := ← p.workspace.store p.currentHandle path value }

def cacheClear (p : Project) : Except CacheFault Project := do
  return p.withFiles (← p.files.setRows p.currentHandle [])

def cacheStatistics (p : Project) : Except CacheFault Statistics := do
  return (← p.files.rows p.currentHandle).statistics

/-- Changes the stored text of a path, if it has one. -/
def cacheReplace (p : Project) (path : Path) (text : String) : Except CacheFault Project := do
  let rows ← p.files.rows p.currentHandle
  match Ledger.get? path.toString rows with
  | none => return p
  | some _ =>
    return p.withFiles (← p.files.setRows p.currentHandle (rows.replaceText path.toString text))

/-! Settings -/

def setVariable (p : Project) (name value : String) : Option Settings.SettingsFault × Project :=
  let (fault, environment) := Settings.set p.environment name value
  (fault, { p with environment })

def unsetVariable (p : Project) (name : String) : Project :=
  { p with environment := Ledger.erase name p.environment }

/-- Forgets that the settings were loaded, but not what they added to the environment. -/
def resetSettings (p : Project) : Project :=
  { p with configured := false }

/-- Loads a settings file into the environment. -/
def loadFrom (p : Project) (path : Path) : Option Settings.SettingsFault × Project :=
  let (fault, environment) := Settings.load p.files p.workspace.cwd path p.environment
  (fault, { p with environment })

/-- Loads the settings once. Settings that were refused count as not loaded, but what they added
stays. -/
def configure (p : Project) : Option Settings.SettingsFault × Project :=
  if p.configured then (none, p)
  else
    match p.loadFrom ⟨"", [Settings.fileName]⟩ with
    | (none, q) => (none, { q with configured := true })
    | (some fault, q) => (some fault, q)

/-! The command line -/

/-- Runs the command line in the project as it is. -/
def run (p : Project) (session : Command.Session) (arguments : List String) :
    Except RunFault Transcript × Project :=
  let (result, workspace) :=
    Command.runArguments session p.workspace p.environment arguments
  (result, { p with workspace })

end Project
end StaleQuery
