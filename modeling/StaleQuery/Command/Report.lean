import StaleQuery.Console.Terminal
import StaleQuery.Files.Basic
import StaleQuery.Rule.Record
import StaleQuery.Settings.Basic

/-!
What the command line prints: reports as a table or as JSON, the rule, the version and the state of
a cache.
-/

namespace StaleQuery

/-- Why a run ends without a result. -/
inductive ReportFault where
  | print (fault : Console.PrintFault)
  /-- The path of a report is not a text. -/
  | notPath (value : Json)
  /-- The reason of a report is not a text. -/
  | notCell (value : Json)

namespace Report

open Console (Terminal Table)

def programName : String := "mutation-guard"

def version : String := "1.0.0"

/-- A path as it is shown: from the working directory if it is below, else as it was given. -/
def displayPath (cwd : Location) (text : String) : String :=
  let place := Files.resolve cwd (Path.ofString text)
  if text.toList.contains (Char.ofNat 0) then text
  else if cwd.isPrefixOf place then Path.toString ⟨"", place.drop cwd.length⟩
  else text

def ofPrint {α : Type} : Except Console.PrintFault α → Except ReportFault α
  | .ok a => .ok a
  | .error fault => .error (.print fault)

/-- The cells of one report. -/
def row (cwd : Location) (r : Record) : Except ReportFault (List (List Char)) := do
  let path ← match r.filePath with
    | .str s => pure s
    | value => .error (.notPath value)
  let reason ← match r.reason with
    | .str s => pure s
    | .null => pure ""
    | value => .error (.notCell value)
  let cell (s : String) := ofPrint (Console.Terminal.cell s)
  return [← cell (Markup.escape (displayPath cwd path)), ← cell r.line.display,
    ← cell r.column.display, ← cell reason]

def table (terminal : Terminal) (cwd : Location) (records : List Record) :
    Except ReportFault Table := do
  return {
    title := "Missing Query Invalidation".toList
    columns := [{ header := "File" }, { header := "Line", justify := .right, wraps := false },
      { header := "Col", justify := .right, wraps := false }, { header := "Reason", wraps := false }]
    rows := ← records.mapM (row cwd)
    frame := some terminal.frame }

/-- Each value once. -/
def distinctPaths (records : List Record) : List String :=
  (records.map fun r => r.filePath.display).eraseDups

def count (n : Nat) : String :=
  String.ofList (Nat.toDigits 10 n)

/-- The last line of a run: how many problems in how many files, and how many were checked. -/
def summary (records : List Record) (checked : Nat) (elapsed : String) : String :=
  if records.isEmpty then
    "[bold green]✓ No problems found[/bold green] [dim](" ++ count checked ++
      " file(s) checked in " ++ elapsed ++ "s)[/dim]"
  else
    "\n[bold red]✗ " ++ count records.length ++ " problem(s)[/bold red] in " ++
      count (distinctPaths records).length ++ " file(s) [dim](" ++ count checked ++
      " checked in " ++ elapsed ++ "s)[/dim]"

/-- Reports as a table, with the message under it and a summary unless that is unwanted. -/
def printTable (terminal : Terminal) (cwd : Location) (quiet : Bool) (records : List Record)
    (checked : Nat) (elapsed : String) : Except ReportFault String := do
  let problems ←
    if records.isEmpty then pure ""
    else do
      let body ← ofPrint (terminal.printTable (← table terminal cwd records))
      let message ← ofPrint
        (terminal.printText ("\n[bold yellow]" ++ Markup.escape Rule.message ++ "[/bold yellow]"))
      pure (body ++ message)
  let last ← if quiet then pure "" else ofPrint (terminal.printText (summary records checked elapsed))
  return problems ++ last

def json (records : List Record) : String :=
  (Record.listToJson records).indented

/-- The name, kind, description, message and address of the rule. -/
def ruleTable : Except ReportFault Table := do
  let line (name value : String) : Except ReportFault (List (List Char)) := do
    return [← ofPrint (Terminal.cell name), ← ofPrint (Terminal.cell value)]
  return {
    title := Rule.name.toList
    columns := [{ header := "Field" }, { header := "Value" }]
    rows := [← line "Type" Rule.kind, ← line "Description" Rule.description,
      ← line ("Message (" ++ Rule.messageId ++ ")") (Markup.escape Rule.message),
      ← line "Docs" Rule.url]
    frame := none }

def statisticsTable (terminal : Terminal) (path : String) (s : Statistics) :
    Except ReportFault Table := do
  return {
    title := ← ofPrint (Terminal.cell ("Cache Statistics: " ++ Markup.escape path))
    columns := [{ header := "Metric" }, { header := "Count", justify := .right }]
    rows := [["Files Cached".toList, (count s.cachedFiles).toList],
      ["Files With Problems".toList, (count s.filesWithDiagnostics).toList]]
    frame := some terminal.frame }

end Report
end StaleQuery
