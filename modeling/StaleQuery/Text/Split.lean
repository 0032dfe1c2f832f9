/-!
Cutting a text at a mark.
-/

namespace StaleQuery.Text

/-- The pieces between the marks; there is one more of them than there are marks. -/
def splitAt (mark : Char) : List Char → List (List Char)
  | [] => [[]]
  | c :: rest =>
    if c = mark then [] :: splitAt mark rest
    else
      match splitAt mark rest with
      | [] => [[c]]
      | piece :: pieces => (c :: piece) :: pieces

def split (mark : Char) (s : String) : List String :=
  (splitAt mark s.toList).map String.ofList

end StaleQuery.Text
