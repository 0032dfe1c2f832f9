import StaleQuery.Cache.Lint
import StaleQuery.Command.Options
import StaleQuery.Command.Report

/-!
Running the command line: a command, the place it works in and its environment give what is printed,
the exit status and the files as they are afterwards. Settings are read anew in every run, and what
they add to the environment is forgotten after it.
-/

namespace StaleQuery

/-- What a run leaves behind on the terminal. -/
structure Transcript where
  exit : Nat
  out : String := ""
  err : String := ""
  deriving DecidableEq, Repr

/-- Why a run breaks off. -/
inductive RunFault where
  | settings (fault : Settings.SettingsFault)
  | lint (fault : LintFault)
  | report (fault : ReportFault)

namespace Command

open Console (Terminal)

/-- The terminal as a run sees it. `elapsed` is the time shown for a run, in seconds. -/
structure Session where
  terminal : Terminal
  elapsed : String := "0.00"

abbrev Result := Except RunFault Transcript × Workspace

/-- What is said when a command cannot be carried out: one line, however long. -/
def complaint (session : Session) (message : String) : Except Console.PrintFault String :=
  let text := "[bold red]Error:[/bold red] " ++ Markup.escape message
  let wide : Terminal := { session.terminal with width := text.length + 1 }
  wide.printError text

def refuse (session : Session) (message : String) : Except RunFault Transcript :=
  match complaint session message with
  | .ok err => .ok { exit := 2, err }
  | .error fault => .error (.report (.print fault))

def finish (exit : Nat) : Except ReportFault String → Except RunFault Transcript
  | .ok out => .ok { exit, out }
  | .error fault => .error (.report fault)

/-- The settings of a run. What a file that is refused has added by then is lost with the run. -/
def loadSettings (w : Workspace) (environment : Environment) :
    Except Settings.SettingsFault Environment :=
  match Settings.load w.files w.cwd ⟨"", [Settings.fileName]⟩ environment with
  | (none, settled) => .ok settled
  | (some fault, _) => .error fault

/-- The form of output that counts, or what is wrong with the one asked for. An empty word asks for
nothing. -/
def chooseFormat (environment : Environment) (wanted : Option String) : Except String Format :=
  match wanted with
  | none | some "" =>
    match Settings.format environment with
    | .ok format => .ok format
    | .error word => .error (Settings.formatMessage word)
  | some word =>
    let word := Text.lower word
    match Format.ofName? word with
    | some format => .ok format
    | none => .error ("Invalid format '" ++ word ++ "'. Use one of: " ++ Format.choices ++ ".")

def resolve (w : Workspace) (text : String) : Path :=
  (Files.resolve w.cwd (Path.ofString text)).path

/-- A cache belongs to the first target, or to the directory that holds it. -/
def cacheRoot (w : Workspace) (target : Path) : Path :=
  if w.files.isDirectory w.cwd target then target else target.parent

/-- Runs with a cache in a directory, unless it cannot be opened. -/
def withCache (w : Workspace) (root : Path) (directory : String)
    (run : Workspace → Handle → Result) : Result :=
  match w.files.openCache w.cwd (root.join (Path.ofString directory)) with
  | (.error fault, files) => (.error (.lint (.cache fault)), { w with files })
  | (.ok place, files) => run { w with files } (.live place)

/-- What a run prints once every file has been checked. -/
def reportLint (session : Session) (w : Workspace) (format : Format) (quiet : Bool)
    (checked : Nat) (records : List Record) : Except RunFault Transcript :=
  let exit := if records.isEmpty then 0 else 1
  match format with
  | .json =>
    let text := Console.sanitize session.terminal.encoding (Report.json records) ++ "\n"
    finish exit (Report.ofPrint (session.terminal.send text))
  | .table =>
    let lead := if quiet then "" else "\n"
    let body := Report.printTable session.terminal w.cwd quiet records checked session.elapsed
    finish exit (body.map (lead ++ ·))

/-- Checks the files and reports. -/
def lintFiles (session : Session) (format : Format) (quiet : Bool) (files : List Path)
    (w : Workspace) (handle : Option Handle) : Result :=
  match w.lintAll handle files with
  | (.error fault, w) => (.error (.lint fault), w)
  | (.ok records, w) => (reportLint session w format quiet files.length records, w)

def runLint (session : Session) (w : Workspace) (environment : Environment)
    (options : LintOptions) : Result :=
  match chooseFormat environment options.format with
  | .error message => (refuse session message, w)
  | .ok format =>
    let targets := (if options.paths.isEmpty then ["."] else options.paths).map (resolve w)
    match targets.find? fun target => !w.files.has w.cwd target with
    | some target => (refuse session ("Path does not exist: " ++ target.toString), w)
    | none =>
      let files := w.discover (Settings.excluded environment ++ options.exclude) targets
      let run := lintFiles session format options.quiet files
      if Settings.cacheEnabled environment && !options.noCache then
        withCache w (cacheRoot w (targets.headD default)) (Settings.cacheDirectory environment)
          fun w handle => run w (some handle)
      else run w none

/-- Runs on the cache of a project, which must be a directory. -/
def onProject (session : Session) (w : Workspace) (environment : Environment) (text : String)
    (run : Path → Workspace → Handle → Result) : Result :=
  let path := resolve w text
  if w.files.isDirectory w.cwd path then
    match loadSettings w environment with
    | .error fault => (.error (.settings fault), w)
    | .ok environment => withCache w path (Settings.cacheDirectory environment) (run path)
  else (refuse session ("Project path does not exist: " ++ path.toString), w)

def runClear (session : Session) (path : Path) (w : Workspace) (handle : Handle) : Result :=
  match w.files.setRows handle [] with
  | .error fault => (.error (.lint (.cache fault)), w)
  | .ok files =>
    let text := "[green]✓ Cache cleared for " ++ Markup.escape path.toString ++ "[/green]"
    (finish 0 (Report.ofPrint (session.terminal.printText text)), { w with files })

def runStatistics (session : Session) (path : Path) (w : Workspace) (handle : Handle) : Result :=
  match w.files.rows handle with
  | .error fault => (.error (.lint (.cache fault)), w)
  | .ok rows =>
    let table := Report.statisticsTable session.terminal path.toString rows.statistics
    (finish 0 (table.bind fun t => Report.ofPrint (session.terminal.printTable t)), w)

/-- Runs one command. -/
def run (session : Session) (w : Workspace) (environment : Environment) : Command → Result
  | .lint options =>
    match loadSettings w environment with
    | .error fault => (.error (.settings fault), w)
    | .ok environment => runLint session w environment options
  | .showRule =>
    let table := Report.ruleTable
    (finish 0 (table.bind fun t => Report.ofPrint (session.terminal.printTable t)), w)
  | .showVersion =>
    (finish 0 (Report.ofPrint
      (session.terminal.printText (Report.programName ++ " " ++ Report.version))), w)
  | .clearCache path => onProject session w environment path (runClear session)
  | .cacheStatistics path => onProject session w environment path (runStatistics session)
  | .help => (.ok { exit := 0 }, w)

/-- Runs what arguments ask for. Arguments that are used wrongly end with status 2. They are those of a
process, in which no argument has a NUL. -/
def runArguments (session : Session) (w : Workspace) (environment : Environment)
    (arguments : List String) : Result :=
  match parse? arguments with
  | some command => run session w environment command
  | none => (.ok { exit := 2 }, w)

end Command
end StaleQuery
