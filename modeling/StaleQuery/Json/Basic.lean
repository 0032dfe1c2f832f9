/-!
JSON values. Objects keep the order of their members, and whole numbers are told apart from those
that were written with a fraction or an exponent.
-/

namespace StaleQuery

inductive Json where
  | null
  | bool (value : Bool)
  | int (value : Int)
  /-- A number with a fraction or an exponent, or one of the words for what is no number. -/
  | decimal (text : String)
  | str (value : String)
  | arr (items : List Json)
  | obj (members : List (String × Json))
  deriving Repr, Inhabited

namespace Json

/-- Gives a key a value: in place if the key is there, else at the end. -/
def insert (key : String) (value : Json) : List (String × Json) → List (String × Json)
  | [] => [(key, value)]
  | (k, v) :: rest => if k = key then (k, value) :: rest else (k, v) :: insert key value rest

def get? (key : String) : List (String × Json) → Option Json
  | [] => none
  | (k, v) :: rest => if k = key then some v else get? key rest

/-- A member of an object; `null` where there is none. -/
def member (json : Json) (key : String) : Json :=
  match json with
  | obj members => (get? key members).getD null
  | _ => null

end Json
end StaleQuery
