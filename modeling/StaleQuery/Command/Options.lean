/-!
Reading the arguments of the command line. Options and paths may be mixed, short flags may be run
together, a value may be joined to its option, and after `--` everything is a path.
-/

namespace StaleQuery

structure LintOptions where
  paths : List String := []
  format : Option String := none
  noCache : Bool := false
  exclude : List String := []
  quiet : Bool := false
  deriving DecidableEq, Repr

inductive Command where
  | lint (options : LintOptions)
  | showRule
  | showVersion
  | clearCache (path : String)
  | cacheStatistics (path : String)
  | help
  deriving DecidableEq, Repr

namespace Command

/-- An option by its spellings; one that takes a value uses the next argument. -/
structure Flag where
  short : Option Char
  long : String
  takesValue : Bool

/-- What arguments come to: options with their values in order, and the other arguments. -/
structure Parsed where
  options : List (String × String) := []
  arguments : List String := []

def helpFlag : Flag := ⟨none, "help", false⟩

def findLong (known : List Flag) (name : String) : Option Flag :=
  known.find? (·.long == name)

def findShort (known : List Flag) (c : Char) : Option Flag :=
  known.find? (·.short == some c)

/-- Flags that are run together. The first that takes a value takes the rest of the argument or else
the next one. Gives the options found and the arguments left. -/
def readShort (known : List Flag) :
    List Char → List String → Option (List (String × String) × List String)
  | [], rest => some ([], rest)
  | c :: cs, rest =>
    match findShort known c with
    | none => none
    | some o =>
      if o.takesValue then
        match cs, rest with
        | _ :: _, _ => some ([(o.long, String.ofList cs)], rest)
        | [], value :: rest => some ([(o.long, value)], rest)
        | [], [] => none
      else
        (readShort known cs rest).map fun (options, rest) => ((o.long, "") :: options, rest)

/-- A long option, with its value behind an equals sign or in the next argument. -/
def readLong (known : List Flag) (body : List Char) (rest : List String) :
    Option (List (String × String) × List String) :=
  let name := String.ofList (body.takeWhile (· ≠ '='))
  match findLong known name, body.dropWhile (· ≠ '=') with
  | none, _ => none
  | some o, _ :: value =>
    if o.takesValue then some ([(o.long, String.ofList value)], rest) else none
  | some o, [] =>
    if o.takesValue then
      match rest with
      | value :: rest => some ([(o.long, value)], rest)
      | [] => none
    else some ([(o.long, "")], rest)

/-- Reads the arguments from left to right. Where they may not be mixed, the first that is no option
ends the options. -/
def read (known : List Flag) (mixed : Bool) : Nat → List String → Option Parsed
  | 0, _ => none
  | _, [] => some {}
  | fuel + 1, argument :: rest =>
    let withOptions (found : Option (List (String × String) × List String)) : Option Parsed := do
      let (options, rest) ← found
      let parsed ← read known mixed fuel rest
      return { parsed with options := options ++ parsed.options }
    match argument.toList with
    | ['-', '-'] => some { arguments := rest }
    | '-' :: '-' :: body => withOptions (readLong known body rest)
    | '-' :: c :: cs => withOptions (readShort known (c :: cs) rest)
    | _ =>
      if mixed then do
        let parsed ← read known mixed fuel rest
        return { parsed with arguments := argument :: parsed.arguments }
      else some { arguments := argument :: rest }

def readAll (known : List Flag) (mixed : Bool) (arguments : List String) : Option Parsed :=
  read known mixed (arguments.length + 1) arguments

def Parsed.asksHelp (parsed : Parsed) : Bool :=
  parsed.options.any (·.1 == "help")

def lintKnown : List Flag :=
  [⟨some 'f', "format", true⟩, ⟨none, "no-cache", false⟩, ⟨some 'e', "exclude", true⟩,
    ⟨some 'q', "quiet", false⟩, helpFlag]

def lintOptions (parsed : Parsed) : LintOptions :=
  { paths := parsed.arguments
    format := ((parsed.options.filter (·.1 == "format")).getLast?).map (·.2)
    noCache := parsed.options.any (·.1 == "no-cache")
    exclude := (parsed.options.filter (·.1 == "exclude")).map (·.2)
    quiet := parsed.options.any (·.1 == "quiet") }

/-- A command that takes at most `most` arguments and no options. -/
def readSimple (most : Nat) (make : List String → Command) (arguments : List String) :
    Option Command := do
  let parsed ← readAll [helpFlag] true arguments
  if parsed.asksHelp then return .help
  else if parsed.arguments.length ≤ most then return make parsed.arguments
  else none

/-- The name of a command and what follows it, or a call for help. -/
def readName (arguments : List String) : Option (Option (String × List String)) := do
  let parsed ← readAll [helpFlag] false arguments
  if parsed.asksHelp then return none
  else
    match parsed.arguments with
    | name :: rest => return some (name, rest)
    | [] => none

def readCache (arguments : List String) : Option Command := do
  match ← readName arguments with
  | none => return .help
  | some ("clear", rest) => readSimple 1 (fun as => .clearCache (as.headD ".")) rest
  | some ("stats", rest) => readSimple 1 (fun as => .cacheStatistics (as.headD ".")) rest
  | some _ => none

/-- The command that arguments give, unless they are used wrongly. -/
def parse? (arguments : List String) : Option Command := do
  match ← readName arguments with
  | none => return .help
  | some ("lint", rest) =>
    let parsed ← readAll lintKnown true rest
    return if parsed.asksHelp then .help else .lint (lintOptions parsed)
  | some ("rule", rest) => readSimple 0 (fun _ => .showRule) rest
  | some ("version", rest) => readSimple 0 (fun _ => .showVersion) rest
  | some ("cache", rest) => readCache rest
  | some _ => none

end Command
end StaleQuery
