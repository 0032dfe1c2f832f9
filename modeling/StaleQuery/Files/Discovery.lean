import StaleQuery.Files.Basic

/-!
Which files are checked. A file that is named is taken if its suffix, in any case, is of a dialect.
Below a directory every file is taken whose name ends as the files of a dialect do, unless a
directory on the way down to it has an excluded name.
-/

namespace StaleQuery

/-- Directories that are never looked into. -/
def defaultExcluded : List String :=
  ["node_modules", ".git", "dist", "build", "out", "coverage", ".next", ".nuxt", ".turbo", ".cache",
    "vendor", "third_party", "venv", ".venv", "__pycache__", ".mutation_guard_cache"]

namespace Files

/-- Whether a name ends as the files of some dialect do, letter for letter. -/
def endsAsSource (name : String) : Bool :=
  Source.dialects.any fun (suffix, _) => suffix.toList.isSuffixOf name.toList

/-- The names that lead from one place to another below it. -/
def below? (place other : Location) : Option (List String) :=
  if place.isPrefixOf other && place.length < other.length then some (other.drop place.length)
  else none

/-- Whether a file may be reached through the directories above it. -/
def admits (excluded : List String) (rest : List String) : Bool :=
  endsAsSource (rest.getLast?.getD "") && rest.dropLast.all fun part => !excluded.contains part

/-- Every source below a place, by the names that lead to it. -/
def sourcesBelow (files : Files) (excluded : List String) (place : Location) :
    List (List String) :=
  files.entries.filterMap fun (other, e) =>
    match below? place other with
    | some rest => if !e.isDirectory && admits excluded rest then some rest else none
    | none => none

/-- What one path stands for. -/
def sourcesAt (files : Files) (cwd : Location) (excluded : List String) (path : Path) : List Path :=
  if files.isFile cwd path then (if path.dialect?.isSome then [path] else [])
  else
    match files.locate cwd path with
    | .error _ => []
    | .ok place =>
      (files.sourcesBelow excluded place).map fun rest => ⟨path.anchor, path.parts ++ rest⟩

/-- Drops what repeats the one before it. -/
def dropRepeats : List Path → List Path
  | [] => []
  | [p] => [p]
  | p :: q :: rest => if p = q then dropRepeats (q :: rest) else p :: dropRepeats (q :: rest)

/-- All sources that the paths stand for, once each and in the order of their components. -/
def discover (files : Files) (cwd : Location) (excluded : List String) (paths : List Path) :
    List Path :=
  let found := paths.flatMap (files.sourcesAt cwd (defaultExcluded ++ excluded))
  dropRepeats (found.mergeSort fun p q => !q.before p)

end Files
end StaleQuery
