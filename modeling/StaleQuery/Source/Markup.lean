import StaleQuery.Source.Expression

/-!
Elements in the style of markup. Between tags the text is taken as it stands; only braces, tags
and character references are structure there.
-/

namespace StaleQuery.Source

open Source.Parser

variable (self : Grammar)

def isTagByte (b : UInt8) : Bool :=
  isNameByte b || b == 45 || b ≥ 0x80

/-- A name of a tag or an attribute, which may hold hyphens. -/
def tagWord (kind : String) : Parser Tree := do
  let c ← cursor
  let input ← input
  if !startsName input.bytes c.next then failure
  let stop := skipWhile input.bytes isTagByte c.next
  advance stop
  return input.leaf kind c.next stop (Utf8.slice input.bytes c.next stop)

def namespacedName (s : Nat) (kind : String) (first : Tree) : Parser Tree := do
  if ← accept ":" then
    let second ← tagWord kind
    node "jsx_namespace_name" s [first, second]
  else return first

def tagMembers (s : Nat) : Nat → Tree → Parser Tree
  | 0, _ => failure
  | fuel + 1, object => do
    if ← accept "." then
      let property ← anyWord "property_identifier"
      tagMembers s fuel
        (← node "member_expression" s [object.under "object", property.under "property"])
    else return object

def tagName : Parser Tree := do
  let s ← start
  let first ← tagWord "identifier"
  if ← isSymbol "." then tagMembers s (← remaining) first
  else namespacedName s "identifier" first

/-- An expression in braces. It may be empty or hold comments only. -/
def embedded : Parser Tree := do
  let s ← start
  symbol "\x7b"
  let inner ← if ← isSymbol "\x7d" then pure []
    else if ← isSymbol "..." then pure [← spread self]
    else pure [← self (.sequence true)]
  symbol "\x7d"
  node "jsx_expression" s inner

/-- A quoted value; there are no escapes in it. -/
def attributeString : Parser Tree := do
  let c ← cursor
  if c.token != .string then failure
  let input ← input
  let quote := byteAt input.bytes c.next
  let stop := skipWhile input.bytes (· != quote) (c.next + 1)
  advance (stop + 1)
  let inner := if stop == c.next + 1 then []
    else [input.leaf "string_fragment" (c.next + 1) stop ""]
  node "string" c.next inner

def attributeValue : Parser Tree := do
  match ← token with
  | .string => attributeString
  | .symbol "\x7b" => embedded self
  | _ => self .element

def tagAttribute : Parser Tree := do
  if ← isSymbol "\x7b" then embedded self
  else
    let s ← start
    let first ← tagWord "property_identifier"
    let n ← namespacedName s "property_identifier" first
    if ← accept "=" then
      let value ← attributeValue self
      node "jsx_attribute" s [n, value]
    else node "jsx_attribute" s [n]

/-- Name, type arguments and attributes of a tag, up to `/` or `>`. -/
def tagHead : Parser (List Tree) := do
  if ← isByte 62 then return []
  let n ← tagName
  let types ← if (← typed) && (← isByte 60) then
      pure [(← typeArguments self).under "type_arguments"]
    else pure []
  let attributes ← whileM (return !(← isByte 62) && !(← isByte 47))
    (return [(← tagAttribute self).under "attribute"])
  return n.under "name" :: types ++ attributes

/-- Whether text between tags counts: blanks that hang on a line break do not. -/
def isTextual (bytes : ByteArray) (stop : Nat) : Nat → Nat → Bool → Bool
  | 0, _, _ => false
  | fuel + 1, i, broken =>
    if i ≥ stop then false
    else if byteAt bytes i == 10 then isTextual bytes stop fuel (i + 1) true
    else
      let width := blankWidth bytes i
      if broken && width > 0 then isTextual bytes stop fuel (i + width) true else true

def isReferenceByte (b : UInt8) : Bool :=
  isNameByte b || b == 35

/-- A named or numbered character reference at `i`, if one stands there. -/
def referenceEnd? (bytes : ByteArray) (i : Nat) : Option Nat :=
  let stop := skipWhile bytes isReferenceByte (i + 1)
  if byteAt bytes stop == 59 && stop > i + 1 then some (stop + 1) else none

/-- The nodes between two tags, up to the `<` of the closing one. -/
def elementChildren : Nat → List Tree → Parser (List Tree)
  | 0, _ => failure
  | fuel + 1, items => do
    let input ← input
    let bytes := input.bytes
    let here := (← cursor).last
    let b := byteAt bytes here
    if here ≥ bytes.size then failure
    else if b == 60 then
      if byteAt bytes (skipBlank bytes (bytes.size - here) (here + 1)) == 47 then
        return items.reverse
      let t ← self .element
      elementChildren fuel (t :: items)
    else if b == 123 then
      let t ← embedded self
      elementChildren fuel (t :: items)
    else
      match if b == 38 then referenceEnd? bytes here else none with
      | some stop =>
        jump stop
        elementChildren fuel (input.leaf "html_character_reference" here stop "" :: items)
      | none =>
        let stop := skipWhile bytes (fun c => c != 60 && c != 123 && c != 38)
          (if b == 38 then here + 1 else here)
        jump stop
        if isTextual bytes stop (stop - here + 1) here false then
          elementChildren fuel (input.leaf "jsx_text" here stop "" :: items)
        else elementChildren fuel items
where
  skipBlank (bytes : ByteArray) : Nat → Nat → Nat
    | 0, i => i
    | fuel + 1, i =>
      let width := blankWidth bytes i
      if width > 0 then skipBlank bytes fuel (i + width) else i

def closingTag : Parser Tree := do
  let s ← start
  byte 60
  byte 47
  let n ← if ← isByte 62 then pure [] else pure [(← tagName).under "name"]
  byte 62
  node "jsx_closing_element" s n

/-- An element with its children, or one that closes itself. -/
def element : Parser Tree := do
  let s ← start
  byte 60
  let head ← tagHead self
  if ← isByte 47 then
    byte 47
    byte 62
    node "jsx_self_closing_element" s head
  else
    byte 62
    let opening ← node "jsx_opening_element" s head
    -- what follows the tag is text, so nothing read ahead there counts
    jump (← cursor).last
    let children ← elementChildren self (← remaining) []
    let closing ← closingTag
    node "jsx_element" s (opening.under "open_tag" :: children ++ [closing.under "close_tag"])

end StaleQuery.Source
