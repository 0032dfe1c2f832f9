import StaleQuery.Console.Terminal

/-!
Printing values plainly, with a text between them and one at the end. Texts among the values have
their icons spelled out where need be; what is inside other values has not, nor have the separators.
-/

namespace StaleQuery.Console

/-- Why a plain print is refused. -/
inductive PlainFault where
  | unknownOption (name : String)
  /-- An option that should be a text is something else. -/
  | notText (option : String) (value : Json)
  /-- What should be printed to cannot be. -/
  | notStream (value : Json)
  | unwritable

def plainOptions : List String := ["sep", "end", "file", "flush"]

/-- A text option; where it is missing or null its default counts. -/
def textOption (options : List (String × Json)) (name default : String) :
    Except PlainFault String :=
  match Json.get? name options with
  | none | some .null => .ok default
  | some (.str s) => .ok s
  | some value => .error (.notText name value)

/-- Prints values to a stream of an encoding. Of several faults the first in this order counts: an
unknown option, the separator, the end, the stream, a character that cannot be written. -/
def plainPrint (encoding : String) (values : List Json) (options : List (String × Json)) :
    Except PlainFault String := do
  match options.find? fun (name, _) => !plainOptions.contains name with
  | some (name, _) => .error (.unknownOption name)
  | none =>
    let separator ← textOption options "sep" " "
    let ending ← textOption options "end" "\n"
    match Json.get? "file" options with
    | none | some .null =>
      let texts := values.map fun
        | .str s => sanitize encoding s
        | value => value.display
      let out := separator.intercalate texts ++ ending
      if (Charset.ofName encoding).canWriteAll out then return out else .error .unwritable
    | some value => .error (.notStream value)

end StaleQuery.Console
