/-!
Icons and their spelling in plain characters, for terminals that cannot show them.
-/

namespace StaleQuery.Icon

/-- Status marks, arrows, table lines and punctuation with what stands for them. -/
def spellings : List (Char × String) :=
  [('✓', "[OK]"), ('✔', "[OK]"), ('✗', "[FAIL]"), ('✘', "[FAIL]"), ('⚠', "[WARN]"), ('⚡', "[!]"),
    ('→', "->"), ('←', "<-"), ('⇒', "=>"),
    ('│', "|"), ('─', "-"), ('┌', "+"), ('┐', "+"), ('└', "+"), ('┘', "+"), ('├', "+"), ('┤', "+"),
    ('┬', "+"), ('┴', "+"), ('┼', "+"), ('━', "-"), ('┃', "|"),
    ('…', "..."), ('•', "*")]

/-- Puts a text in the place of each occurrence of one character. -/
def replace (icon : Char) (spelling : List Char) (cs : List Char) : List Char :=
  cs.flatMap fun c => if c = icon then spelling else [c]

/-- Spells out the icons of the table, one after the other, each in the whole text. -/
def spellOut (text : String) : String :=
  String.ofList
    (spellings.foldl (fun cs (icon, spelling) => replace icon spelling.toList cs) text.toList)

end StaleQuery.Icon
