import StaleQuery.Json.Basic
import StaleQuery.Rule.Diagnostic

/-!
A report in the form in which it is stored and printed: nine values under their names. What is
read back from a cache may hold anything, so nothing is assumed of the values.
-/

namespace StaleQuery

structure Record where
  filePath : Json
  line : Json
  column : Json
  endLine : Json
  endColumn : Json
  rule : Json
  messageId : Json
  message : Json
  reason : Json
  deriving Inhabited

/-- Why a value is no report. -/
inductive RecordFault where
  /-- The reports are not in a list. -/
  | notList (value : Json)
  /-- A report is not made of members. -/
  | notMembers (value : Json)
  /-- The name that stands for the report itself is taken. -/
  | reserved
  | unknown (key : String)
  /-- The names of the members that are missing, in their order. -/
  | missing (keys : List String)

namespace Record

def requiredKeys : List String :=
  ["file_path", "line", "column", "end_line", "end_column"]

def optionalKeys : List String :=
  ["rule", "message_id", "message", "reason"]

def reservedKey : String := "self"

/-- The first key that cannot be a member of a report. -/
def badKey? : List (String × Json) → Option RecordFault
  | [] => none
  | (key, _) :: rest =>
    if key = reservedKey then some .reserved
    else if requiredKeys.contains key || optionalKeys.contains key then badKey? rest
    else some (.unknown key)

/-- A bad key is found before a missing one. -/
def ofMembers (members : List (String × Json)) : Except RecordFault Record :=
  match badKey? members with
  | some fault => .error fault
  | none =>
    match requiredKeys.filter fun key => (Json.get? key members).isNone with
    | [] =>
      let value (key : String) (default : Json) := (Json.get? key members).getD default
      .ok
        { filePath := value "file_path" .null
          line := value "line" .null
          column := value "column" .null
          endLine := value "end_line" .null
          endColumn := value "end_column" .null
          rule := value "rule" (.str Rule.name)
          messageId := value "message_id" (.str Rule.messageId)
          message := value "message" (.str Rule.message)
          reason := value "reason" (.str "") }
    | keys => .error (.missing keys)

def ofJson : Json → Except RecordFault Record
  | .obj members => ofMembers members
  | value => .error (.notMembers value)

/-- The things in a value one after the other: items, characters or keys. -/
def elements : Json → Except RecordFault (List Json)
  | .arr items => .ok items
  | .str s => .ok (s.toList.map fun c => .str (String.singleton c))
  | .obj members => .ok (members.map fun (key, _) => .str key)
  | value => .error (.notList value)

def listOfJson (value : Json) : Except RecordFault (List Record) := do
  (← elements value).mapM ofJson

def toJson (r : Record) : Json :=
  .obj [("file_path", r.filePath), ("line", r.line), ("column", r.column),
    ("end_line", r.endLine), ("end_column", r.endColumn), ("rule", r.rule),
    ("message_id", r.messageId), ("message", r.message), ("reason", r.reason)]

def listToJson (records : List Record) : Json :=
  .arr (records.map toJson)

end Record

def Diagnostic.record (d : Diagnostic) : Record :=
  { filePath := .str d.filePath
    line := .int d.span.startLine
    column := .int d.span.startColumn
    endLine := .int d.span.endLine
    endColumn := .int d.span.endColumn
    rule := .str Rule.name
    messageId := .str Rule.messageId
    message := .str Rule.message
    reason := .str d.reason.text }

end StaleQuery
