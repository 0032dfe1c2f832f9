import StaleQuery.Cache.Archive
import StaleQuery.Command.Run

/-!
The program: it reads the files that a command may need, runs the command on them, prints what it
gives and keeps its cache.
-/

namespace StaleQuery.Main

def pathText (place : Location) : String :=
  place.path.toString

/-- The content of a file as far as a run looks at it: sources, settings and caches. -/
def readContent (name text : String) : IO Content := do
  if name == Cache.fileName then
    let data ← IO.FS.readBinFile text
    match (String.fromUTF8? data).bind Store.decode? with
    | some rows => return .store rows
    | none => return .bytes data
  else if Files.endsAsSource name || (Path.ofString name).dialect?.isSome || name == Settings.fileName
    then return .bytes (← IO.FS.readBinFile text)
  else return .bytes .empty

/-- What is on disk at a place, if anything. -/
def readEntry (place : Location) : IO (Option Entry) := do
  try
    let path ← IO.FS.realPath (pathText place)
    let found ← path.metadata
    let time := Time.ofSeconds found.modified.sec found.modified.nsec.toNat
    if ← path.isDir then return some (.directory time)
    else return some (.file (← readContent (place.getLast?.getD "") path.toString) time)
  catch _ => return none

/-- Adds what is at a place and, in a directory, everything below that may be looked into. -/
partial def loadTree (excluded : List String) (files : Files) (place : Location) : IO Files := do
  match ← readEntry place with
  | none => return files
  | some e =>
    let mut files := { files with entries := (place, e) :: files.entries }
    if e.isDirectory then
      for child in ← (← IO.FS.realPath (pathText place)).readDir do
        unless excluded.contains child.fileName do
          files ← loadTree excluded files (place ++ [child.fileName])
    return files

/-- Adds a single place. -/
def loadEntry (files : Files) (place : Location) : IO Files := do
  match ← readEntry place with
  | none => return files
  | some e => return { files with entries := (place, e) :: files.entries }

/-- Adds a place with every directory above it. -/
def loadPlace (files : Files) (place : Location) : IO Files :=
  (List.range (place.length + 1)).foldlM (fun files n => loadEntry files (place.take n)) files

/-- The paths that a command is about. -/
def targetsOf : Option Command → List String
  | some (.lint options) => if options.paths.isEmpty then ["."] else options.paths
  | some (.clearCache path) => [path]
  | some (.cacheStatistics path) => [path]
  | _ => []

/-- The variables that the settings of a run can depend on. -/
def readEnvironment (files : Files) (cwd : Location) : IO Environment := do
  let mentioned := match files.get? (cwd ++ [Settings.fileName]) with
    | some (.file (.bytes data) _) =>
      ((String.fromUTF8? data).map fun text => Settings.mentioned (Settings.parse text)).getD []
    | _ => []
  (Settings.names ++ mentioned).foldlM (fun environment name => do
    match ← IO.getEnv name with
    | some value => return Ledger.put name value environment
    | none => return environment) []

/-- Where the cache of a target may be. -/
def cachePlaces (directory : String) (target : Location) : List Location :=
  [target, target.dropLast].map fun root =>
    Files.resolve [] (root.path.join (Path.ofString directory)) ++ [Cache.fileName]

def loadFiles (cwd : Location) (targets : List Location) : IO (Files × Environment) := do
  let files ← loadPlace ⟨[], 0⟩ cwd
  let files ← loadEntry files (cwd ++ [Settings.fileName])
  let environment ← readEnvironment files cwd
  let (_, settled) := Settings.load files cwd ⟨"", [Settings.fileName]⟩ environment
  let files ← targets.foldlM loadPlace files
  let files ← targets.foldlM (loadTree (defaultExcluded ++ Settings.excluded settled)) files
  let places := (targets.take 1).flatMap (cachePlaces (Settings.cacheDirectory settled))
  return (← places.foldlM loadPlace files, environment)

/-- Writes the caches that a run leaves. -/
def keepCaches (files : Files) : IO Unit := do
  for (place, e) in files.entries do
    match e with
    | .file (.store rows) _ =>
      IO.FS.createDirAll (pathText place.dropLast)
      IO.FS.writeFile (pathText place) (Store.encode rows)
    | _ => pure ()

/-- Seconds with two places. -/
def secondsText (milliseconds : Nat) : String :=
  let hundredths := milliseconds / 10
  let places := Report.count (hundredths % 100)
  Report.count (hundredths / 100) ++ "." ++ (if places.length < 2 then "0" else "") ++ places

def columnsOf (text : Option String) : Nat :=
  match text.bind String.toNat? with
  | some n => if n = 0 then 80 else n
  | none => 80

def run (arguments : List String) : IO UInt32 := do
  let start ← IO.monoMsNow
  let cwd := (Path.ofString (← IO.currentDir).toString).parts
  let targets := (targetsOf (Command.parse? arguments)).map fun text =>
    Files.resolve cwd (Path.ofString text)
  let (files, environment) ← loadFiles cwd targets
  let terminal := Console.Terminal.attached "utf-8" (columnsOf (← IO.getEnv "COLUMNS"))
  let elapsed := secondsText ((← IO.monoMsNow) - start)
  let workspace : Workspace := { files, cwd, version := Report.version }
  let (result, after) :=
    Command.runArguments { terminal, elapsed } workspace environment arguments
  keepCaches after.files
  match result with
  | .ok transcript =>
    IO.print transcript.out
    IO.eprint transcript.err
    return transcript.exit.toUInt32
  | .error _ =>
    IO.eprintln "The cache, the settings or the terminal cannot be used."
    return 1

end StaleQuery.Main

def main (arguments : List String) : IO UInt32 :=
  StaleQuery.Main.run arguments
