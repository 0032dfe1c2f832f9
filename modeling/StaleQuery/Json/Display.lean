import StaleQuery.Json.Writer
import StaleQuery.Text.Quoted

/-!
A value as a reader sees it in plain output: a text by itself, quoted only inside a list or a record,
and the words `None`, `True` and `False`.
-/

namespace StaleQuery.Json

/-- Numbers that have no digits are written in small letters. -/
def displayDecimal : String → String
  | "NaN" => "nan"
  | "Infinity" => "inf"
  | "-Infinity" => "-inf"
  | text => text

mutual
def inner : Json → String
  | null => "None"
  | bool true => "True"
  | bool false => "False"
  | int n => String.ofList (digits n)
  | decimal text => displayDecimal text
  | str s => Text.quoted s
  | arr items => "[" ++ ", ".intercalate (innerItems items) ++ "]"
  | obj members => "\x7b" ++ ", ".intercalate (innerMembers members) ++ "\x7d"

def innerItems : List Json → List String
  | [] => []
  | v :: rest => inner v :: innerItems rest

def innerMembers : List (String × Json) → List String
  | [] => []
  | (key, v) :: rest => (Text.quoted key ++ ": " ++ inner v) :: innerMembers rest
end

def display : Json → String
  | str s => s
  | v => inner v

end StaleQuery.Json
