import StaleQuery.Files.Basic
import StaleQuery.Settings.Assignments

/-!
The environment and how a settings file adds to it. `${NAME}` in a value stands for the value of
NAME in the environment, or else in the statements before; `${NAME:-text}` names what stands there
if there is none. A variable that is set already is not changed. Not every name and value can be set,
and where one cannot the file is loaded no further.
-/

namespace StaleQuery

abbrev Environment := Ledger String String

namespace Settings

/-- The name, the text for want of it, and what follows a reference behind its `${`. -/
def readReference? (cs : List Char) : Option (String × Option String × List Char) :=
  let isName (c : Char) : Bool := c ≠ '}' && c ≠ ':'
  let name := String.ofList (cs.takeWhile isName)
  match cs.dropWhile isName with
  | '}' :: rest => some (name, none, rest)
  | ':' :: '-' :: rest =>
    let default := rest.takeWhile (· ≠ '}')
    match rest.drop default.length with
    | _ :: after => some (name, some (String.ofList default), after)
    | [] => none
  | _ => none

/-- The names that a text refers to. -/
def references : Nat → List Char → List String
  | 0, _ => []
  | fuel + 1, cs =>
    match cs with
    | [] => []
    | '$' :: '{' :: rest =>
      match readReference? rest with
      | some (name, _, after) => name :: references fuel after
      | none => references fuel ('{' :: rest)
    | _ :: rest => references fuel rest

/-- Every name that the statements give a value to or refer to. -/
def mentioned (assignments : List Assignment) : List String :=
  assignments.flatMap fun (name, value) =>
    let text := (value.getD "").toList
    name :: references (text.length + 1) text

/-- Puts values for the references in a text. -/
def expand (value? : String → Option String) : Nat → List Char → List Char
  | 0, cs => cs
  | fuel + 1, cs =>
    match cs with
    | [] => []
    | '$' :: '{' :: rest =>
      match readReference? rest with
      | some (name, default, after) =>
        ((value? name).getD (default.getD "")).toList ++ expand value? fuel after
      | none => '$' :: expand value? fuel ('{' :: rest)
    | c :: rest => c :: expand value? fuel rest

/-- What a name stands for: the environment counts first, then the statements so far. A name that
was only mentioned stands for nothing. -/
def reference (environment : Environment) (seen : Ledger String (Option String)) (name : String) :
    Option String :=
  match Ledger.get? name environment with
  | some value => some value
  | none => (Ledger.get? name seen).map (·.getD "")

/-- The values of the statements with their references replaced; the last statement on a name
counts. -/
def evaluate (environment : Environment) (assignments : List Assignment) :
    Ledger String (Option String) :=
  assignments.foldl (fun seen (name, value) =>
    let text := value.map fun v =>
      String.ofList (expand (reference environment seen) (v.length + 1) v.toList)
    Ledger.put name text seen) []

/-- Why a settings file is not loaded, or not all of it. -/
inductive SettingsFault where
  /-- It is not text. -/
  | notText
  /-- A name or a value has a NUL in it. -/
  | embeddedNul
  /-- A name has an equals sign in it. -/
  | illegalName
  /-- A name is empty. -/
  | noName
  deriving DecidableEq, Repr

/-- Why a variable of this name cannot be set to this value. -/
def setFault? (name value : String) : Option SettingsFault :=
  if name.toList.contains (Char.ofNat 0) || value.toList.contains (Char.ofNat 0) then
    some .embeddedNul
  else if name.toList.contains '=' then some .illegalName
  else if name.isEmpty then some .noName
  else none

/-- Sets a variable, unless it cannot be set to the value. -/
def set (environment : Environment) (name value : String) : Option SettingsFault × Environment :=
  match setFault? name value with
  | some fault => (some fault, environment)
  | none => (none, Ledger.put name value environment)

/-- Adds the values that are not set yet, one after the other, up to one that cannot be set. -/
def addAll (environment : Environment) :
    List (String × Option String) → Option SettingsFault × Environment
  | [] => (none, environment)
  | (_, none) :: rest => addAll environment rest
  | (name, some value) :: rest =>
    if (Ledger.get? name environment).isSome then addAll environment rest
    else
      match set environment name value with
      | (some fault, unchanged) => (some fault, unchanged)
      | (none, extended) => addAll extended rest

def extend (environment : Environment) (assignments : List Assignment) :
    Option SettingsFault × Environment :=
  addAll environment (evaluate environment assignments)

/-- Loads a settings file, and tells how far it came. One that is missing adds nothing. -/
def load (files : Files) (cwd : Location) (path : Path) (environment : Environment) :
    Option SettingsFault × Environment :=
  match files.entry cwd path with
  | .ok (.file (.bytes data) _) =>
    match String.fromUTF8? data with
    | some text => extend environment (parse text)
    | none => (some .notText, environment)
  | .ok (.file (.store _) _) => (some .notText, environment)
  | _ => (none, environment)

end Settings
end StaleQuery
