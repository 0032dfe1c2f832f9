import StaleQuery.Settings.Environment
import StaleQuery.Text.Lowercase

/-!
The settings that the environment gives: names to leave out, whether results are cached and
where, and the form of the output.
-/

namespace StaleQuery

inductive Format where
  | table
  | json
  deriving DecidableEq, Repr

namespace Format

def name : Format → String
  | table => "table"
  | json => "json"

def all : List Format := [table, json]

def ofName? (name : String) : Option Format :=
  all.find? (·.name == name)

/-- The names to choose from. -/
def choices : String :=
  ", ".intercalate (all.map name)

end Format

namespace Settings

def excludeVariable : String := "MUTATION_GUARD_EXCLUDE"
def cacheVariable : String := "MUTATION_GUARD_CACHE"
def cacheDirectoryVariable : String := "MUTATION_GUARD_CACHE_DIR"
def formatVariable : String := "MUTATION_GUARD_FORMAT"

/-- The variables that are read. -/
def names : List String :=
  [excludeVariable, cacheVariable, cacheDirectoryVariable, formatVariable]

def fileName : String := ".env"

/-- The value of a variable, or a default if it is not set. -/
def value (environment : Environment) (name default : String) : String :=
  (Ledger.get? name environment).getD default

/-- Names between commas, trimmed; empty ones do not count. -/
def excluded (environment : Environment) : List String :=
  ((Text.split ',' (value environment excludeVariable "")).map Text.trim).filter (· ≠ "")

/-- The words that switch the cache off. -/
def offWords : List String := ["0", "false", "no", "off"]

def cacheEnabled (environment : Environment) : Bool :=
  !offWords.contains (Text.lower (Text.trim (value environment cacheVariable "1")))

def cacheDirectory (environment : Environment) : String :=
  value environment cacheDirectoryVariable ".mutation_guard_cache"

/-- The form of the output; a word that is none is given back. -/
def format (environment : Environment) : Except String Format :=
  let word := Text.lower (Text.trim (value environment formatVariable "table"))
  match Format.ofName? word with
  | some f => .ok f
  | none => .error word

/-- What is said of a word that is no form of output. -/
def formatMessage (word : String) : String :=
  "Invalid " ++ formatVariable ++ " '" ++ word ++ "'. Use one of: " ++ Format.choices ++ "."

end Settings
end StaleQuery
