import StaleQuery.Text.Split
import StaleQuery.Text.Lowercase
import StaleQuery.Source.Token

/-!
Paths as they are written. Empty parts and single dots mean nothing and are dropped, double dots
are kept. Two slashes in front are a root of their own; more than two are one.
-/

namespace StaleQuery

structure Path where
  /-- Nothing for a relative path, else the slashes in front. -/
  anchor : String
  parts : List String
  deriving DecidableEq, Repr, Inhabited

namespace Path

def anchorOf (cs : List Char) : String :=
  match (cs.takeWhile (· == '/')).length with
  | 0 => ""
  | 2 => "//"
  | _ => "/"

def ofString (s : String) : Path :=
  ⟨anchorOf s.toList, (Text.split '/' s).filter fun part => part ≠ "" ∧ part ≠ "."⟩

def toString (p : Path) : String :=
  if p.anchor = "" ∧ p.parts = [] then "." else p.anchor ++ "/".intercalate p.parts

def isAbsolute (p : Path) : Bool :=
  p.anchor ≠ ""

/-- The second path as seen from the first; an absolute one stands for itself. -/
def join (p q : Path) : Path :=
  if q.isAbsolute then q else ⟨p.anchor, p.parts ++ q.parts⟩

def parent (p : Path) : Path :=
  ⟨p.anchor, p.parts.dropLast⟩

def name (p : Path) : String :=
  p.parts.getLast?.getD ""

/-- The end of a name from its last dot on, unless that dot is the first or the last character. -/
def suffixOf (name : List Char) : List Char :=
  let tail := name.reverse.takeWhile (· ≠ '.')
  if tail = [] ∨ name.length ≤ tail.length + 1 then [] else '.' :: tail.reverse

def suffix (p : Path) : String :=
  String.ofList (suffixOf p.name.toList)

/-- Component lists are compared part by part and each part by its code points. -/
def precedes : List String → List String → Bool
  | [], [] => false
  | [], _ :: _ => true
  | _ :: _, [] => false
  | a :: as, b :: bs => a < b || (a == b && precedes as bs)

def components (p : Path) : List String :=
  if p.isAbsolute then p.anchor :: p.parts else p.parts

/-- The order of reports: by components. -/
def before (p q : Path) : Bool :=
  precedes p.components q.components

end Path

/-- Which dialect the files with a suffix are written in. -/
def Source.dialects : List (String × Source.Dialect) :=
  [(".js", .javascript), (".jsx", .javascript), (".mjs", .javascript), (".cjs", .javascript),
    (".ts", .typescript), (".mts", .typescript), (".cts", .typescript), (".tsx", .tsx)]

/-- The dialect of a file by its suffix in any case. -/
def Path.dialect? (p : Path) : Option Source.Dialect :=
  let suffix := Text.lower p.suffix
  (Source.dialects.find? (·.1 == suffix)).map (·.2)

end StaleQuery
