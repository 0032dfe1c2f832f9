import Mathlib.Data.List.Nodup
import StaleQuery.Json.Reader
import StaleQuery.Json.Writer

/-!
# Reading back what was written

A value that is written on one line is read back as it was, whatever its texts hold: characters
beyond the sixteen bits of a unit go out as a pair of surrogates and come back as one.
Numbers with a fraction are kept as they were spelled, so their spelling has to be one that is read
back as it is. A reader needs room for the value and for nothing else.
-/
namespace StaleQuery.Json

/-- What may follow a value: the end of the text, or a mark that ends the value. -/
def Fence (k : List Char) : Prop :=
  ∀ c ∈ k.head?, c = ',' ∨ c = ']' ∨ c = '}'

/-- What ends a value: such a mark, or the end of its line. -/
def Ends (k : List Char) : Prop :=
  ∀ c ∈ k.head?, c = ',' ∨ c = ']' ∨ c = '}' ∨ c = '\n'

theorem Fence.ends {k : List Char} (h : Fence k) : Ends k := by
  intro c hc
  rcases h c hc with rfl | rfl | rfl <;> simp

/-- A spelling of a number that is read back as it is, and not taken for another kind of value. -/
structure Numeral (text : String) : Prop where
  head : ∃ c rest, text.toList = c :: rest ∧ isBlank c = false ∧ c ∉ ['"', '[', '{', ']', '}']
  reads : ∀ most k, Fence k → readAtom most (text.toList ++ k) = .ok (decimal text, k)

/-- A value that reads back: each member has a key of its own, and fractions are spelled as they are
read. -/
inductive Plain : Json → Prop where
  | null : Plain null
  | bool (b) : Plain (bool b)
  | int (n) : Plain (int n)
  | decimal {text} : Numeral text → Plain (decimal text)
  | str (s) : Plain (str s)
  | arr {items} : (∀ v ∈ items, Plain v) → Plain (arr items)
  | obj {members} : (∀ m ∈ members, Plain m.2) → (members.map Prod.fst).Nodup →
      Plain (obj members)

/-- A value that a reader has room for: at most `depth` brackets are open at a time, and no whole
number has more than `most` digits. -/
inductive Within (most : Nat) : Nat → Json → Prop where
  | null {depth} : Within most depth null
  | bool {depth} (b) : Within most depth (bool b)
  | int {depth n} : (Nat.toDigits 10 n.natAbs).length ≤ most → Within most depth (int n)
  | decimal {depth} (text) : Within most depth (decimal text)
  | str {depth} (s) : Within most depth (str s)
  | arr {depth items} : (∀ v ∈ items, Within most depth v) → Within most (depth + 1) (arr items)
  | obj {depth members} : (∀ m ∈ members, Within most depth m.2) →
      Within most (depth + 1) (obj members)

theorem Within.mono {few most shallow deep : Nat} {v : Json} (h : Within few shallow v)
    (hdigits : few ≤ most) (hdepth : shallow ≤ deep) : Within most deep v := by
  induction h generalizing deep with
  | null => exact .null
  | bool b => exact .bool b
  | int hn => exact .int (Nat.le_trans hn hdigits)
  | decimal text => exact .decimal text
  | str s => exact .str s
  | arr _ ih =>
    obtain ⟨deep, rfl⟩ := Nat.exists_eq_succ_of_ne_zero (Nat.ne_zero_of_lt hdepth)
    exact .arr fun v hv => ih v hv (Nat.le_of_succ_le_succ hdepth)
  | obj _ ih =>
    obtain ⟨deep, rfl⟩ := Nat.exists_eq_succ_of_ne_zero (Nat.ne_zero_of_lt hdepth)
    exact .obj fun m hm => ih m hm (Nat.le_of_succ_le_succ hdepth)

/-! Digits -/

theorem natOfDigits_toDigits (n : Nat) : natOfDigits (Nat.toDigits 10 n) = n := by
  have hfold : natOfDigits (Nat.toDigits 10 n) = Nat.ofDigitChars 10 (Nat.toDigits 10 n) 0 := by
    simp only [natOfDigits, Nat.ofDigitChars, Nat.mul_comm]
    rfl
  rw [hfold, Nat.ofDigitChars_ten_toDigits]

theorem isDigit_of_mem_toDigits {n : Nat} {c : Char} (h : c ∈ Nat.toDigits 10 n) :
    isDigit c = true := by
  have hc := Nat.isDigit_of_mem_toDigits (by decide) (by decide) h
  simpa [Char.isDigit, isDigit, Char.le_def, UInt32.le_iff_toNat_le] using hc

theorem toDigits_head {n : Nat} (h : n ≠ 0) : ∃ c rest, Nat.toDigits 10 n = c :: rest ∧ c ≠ '0' := by
  induction n using Nat.strongRecOn with
  | ind n ih =>
    by_cases hn : n < 10
    · have hsingle : ∀ n < 10, n ≠ 0 → n.digitChar ≠ '0' := by decide
      exact ⟨n.digitChar, [], Nat.toDigits_of_lt_base hn, hsingle n hn h⟩
    · obtain ⟨c, rest, hc, hne⟩ := ih (n / 10) (by omega) (by omega)
      exact ⟨c, rest ++ [(n % 10).digitChar],
        by rw [Nat.toDigits_of_base_le (by decide) (by omega), hc, List.cons_append], hne⟩

theorem ends_cases {k : List Char} (h : Ends k) :
    k = [] ∨ ∃ c rest, k = c :: rest ∧ (c = ',' ∨ c = ']' ∨ c = '}' ∨ c = '\n') := by
  cases k with
  | nil => exact Or.inl rfl
  | cons c rest => exact Or.inr ⟨c, rest, rfl, h c rfl⟩

/-- Digits are told from what follows them by the first character that is none. -/
def Stops (k : List Char) : Prop :=
  ∀ c ∈ k.head?, isDigit c = false

theorem Ends.stops {k : List Char} (h : Ends k) : Stops k := by
  intro c hc
  rcases h c hc with rfl | rfl | rfl | rfl <;> rfl

theorem takeWhile_digits {ds k : List Char} (hdigit : ∀ d ∈ ds, isDigit d = true) (hk : Stops k) :
    (ds ++ k).takeWhile isDigit = ds := by
  rw [List.takeWhile_append_of_pos hdigit]
  cases k with
  | nil => simp
  | cons d k => simp [List.takeWhile, hk d rfl]

theorem dropWhile_digits {ds k : List Char} (hdigit : ∀ d ∈ ds, isDigit d = true) (hk : Stops k) :
    (ds ++ k).dropWhile isDigit = k := by
  rw [List.dropWhile_append_of_pos hdigit]
  cases k with
  | nil => rfl
  | cons d k => simp [List.dropWhile, hk d rfl]

theorem readWhole?_append {c : Char} {rest k : List Char} (hne : c ≠ '0')
    (hdigit : ∀ d ∈ c :: rest, isDigit d = true) (hk : Stops k) :
    readWhole? (c :: rest ++ k) = some (c :: rest, k) := by
  have htake := takeWhile_digits hdigit hk
  have hdrop := dropWhile_digits hdigit hk
  rw [List.cons_append] at htake hdrop ⊢
  unfold readWhole?
  split
  · exact absurd (List.cons.inj ‹_›).1 hne
  · rename_i hcons
    obtain ⟨rfl, -⟩ := List.cons.inj hcons
    rw [if_pos (hdigit c List.mem_cons_self), htake, hdrop]
  · cases ‹c :: (rest ++ k) = []›

theorem readWhole?_toDigits (n : Nat) {k : List Char} (hk : Ends k) :
    readWhole? (Nat.toDigits 10 n ++ k) = some (Nat.toDigits 10 n, k) := by
  by_cases hn : n = 0
  · subst hn
    rfl
  · obtain ⟨c, rest, hc, hne⟩ := toDigits_head hn
    rw [hc]
    apply readWhole?_append hne _ hk.stops
    rw [← hc]
    exact fun d hd => isDigit_of_mem_toDigits hd

theorem readFraction_ends {k : List Char} (hk : Ends k) : readFraction k = ([], k) := by
  rcases ends_cases hk with rfl | ⟨c, rest, rfl, rfl | rfl | rfl | rfl⟩ <;> rfl

theorem readExponent_ends {k : List Char} (hk : Ends k) : readExponent k = ([], k) := by
  rcases ends_cases hk with rfl | ⟨c, _ | ⟨d, rest⟩, rfl, rfl | rfl | rfl | rfl⟩ <;> rfl

theorem readNumber_digits {most : Nat} {n : Int}
    (hn : (Nat.toDigits 10 n.natAbs).length ≤ most) {k : List Char} (hk : Ends k) :
    readNumber most (digits n ++ k) = .ok (int n, k) := by
  cases n with
  | ofNat n =>
    obtain ⟨c, rest, hc⟩ : ∃ c rest, Nat.toDigits 10 n = c :: rest :=
      List.exists_cons_of_ne_nil Nat.toDigits_ne_nil
    have hdigit : isDigit c = true := isDigit_of_mem_toDigits (hc ▸ List.mem_cons_self)
    have hshort : ¬ most < (Nat.toDigits 10 n).length := Nat.not_lt.mpr hn
    have hwhole := readWhole?_toDigits n hk
    have hvalue := natOfDigits_toDigits n
    simp only [digits]
    rw [hc] at hwhole hvalue hshort ⊢
    unfold readNumber
    split
    rename_i hsign
    split at hsign
    · rename_i hneg
      obtain ⟨rfl, -⟩ := List.cons.inj hneg
      cases hdigit
    · obtain ⟨rfl, rfl⟩ := Prod.mk.inj hsign
      rw [hwhole]
      simp only [expect, bind, Except.bind, readFraction_ends hk, readExponent_ends hk, hvalue,
        if_neg hshort]
      rfl
  | negSucc n =>
    have hwhole := readWhole?_toDigits (n + 1) hk
    have hshort : ¬ most < (Nat.toDigits 10 (n + 1)).length := Nat.not_lt.mpr hn
    have hsign : digits (Int.negSucc n) ++ k = '-' :: (Nat.toDigits 10 (n + 1) ++ k) := rfl
    rw [hsign]
    unfold readNumber
    split
    rename_i hneg
    obtain ⟨rfl, rfl⟩ : true = _ ∧ Nat.toDigits 10 (n + 1) ++ k = _ := Prod.mk.inj hneg
    rw [hwhole]
    simp only [expect, bind, Except.bind, readFraction_ends hk, readExponent_ends hk,
      natOfDigits_toDigits, if_neg hshort]
    rfl

theorem digits_head (n : Int) : (∃ c rest, digits n = c :: rest ∧ isDigit c = true) ∨
    ∃ c rest, digits n = '-' :: c :: rest ∧ isDigit c = true := by
  have hcons : ∀ m, ∃ c rest, Nat.toDigits 10 m = c :: rest ∧ isDigit c = true := by
    intro m
    obtain ⟨c, rest, hc⟩ := List.exists_cons_of_ne_nil (Nat.toDigits_ne_nil (b := 10) (n := m))
    exact ⟨c, rest, hc, isDigit_of_mem_toDigits (hc ▸ List.mem_cons_self)⟩
  cases n with
  | ofNat n => exact Or.inl (hcons n)
  | negSucc n =>
    obtain ⟨c, rest, hc, hdigit⟩ := hcons (n + 1)
    exact Or.inr ⟨c, rest, by rw [digits, hc], hdigit⟩

theorem ne_of_isDigit {c d : Char} (hc : isDigit c = true) (hd : isDigit d = false) : d ≠ c := by
  rintro rfl
  rw [hc] at hd
  cases hd

/-- No word starts with a digit, or with a digit behind a minus. -/
theorem readAtom_of_digit {most : Nat} {cs : List Char} (h : (∃ c rest, cs = c :: rest ∧ isDigit c = true) ∨
    ∃ c rest, cs = '-' :: c :: rest ∧ isDigit c = true) :
    readAtom most cs = readNumber most cs := by
  have hwords : (words.findSome? fun word => (readWord? word.1 cs).map (word.2, ·)) = none := by
    rcases h with ⟨c, rest, rfl, hdigit⟩ | ⟨c, rest, rfl, hdigit⟩
    · simp [words, readWord?, ne_of_isDigit hdigit (show isDigit 'n' = false from rfl),
        ne_of_isDigit hdigit (show isDigit 't' = false from rfl),
        ne_of_isDigit hdigit (show isDigit 'f' = false from rfl),
        ne_of_isDigit hdigit (show isDigit 'N' = false from rfl),
        ne_of_isDigit hdigit (show isDigit 'I' = false from rfl),
        ne_of_isDigit hdigit (show isDigit '-' = false from rfl)]
    · simp [words, readWord?, ne_of_isDigit hdigit (show isDigit 'I' = false from rfl)]
  simp only [readAtom, hwords]

theorem readAtom_digits {most : Nat} {n : Int} (hn : (Nat.toDigits 10 n.natAbs).length ≤ most)
    {k : List Char} (hk : Ends k) : readAtom most (digits n ++ k) = .ok (int n, k) := by
  rw [readAtom_of_digit, readNumber_digits hn hk]
  rcases digits_head n with ⟨c, rest, hc, hdigit⟩ | ⟨c, rest, hc, hdigit⟩
  · exact Or.inl ⟨c, rest ++ k, by rw [hc, List.cons_append], hdigit⟩
  · exact Or.inr ⟨c, rest ++ k, by rw [hc]; rfl, hdigit⟩

/-! Texts -/

theorem hexValue?_hexDigit {d : Nat} (h : d < 16) : hexValue? (hexDigit d) = some d := by
  have hall : ∀ d < 16, hexValue? (hexDigit d) = some d := by decide
  exact hall d h

theorem readUnit?_escapeUnit {n : Nat} (h : n < 0x10000) (k : List Char) :
    readUnit? ((escapeUnit n).drop 2 ++ k) = some (n, k) := by
  have hdigit : ∀ m, hexValue? (hexDigit (m % 16)) = some (m % 16) := fun m =>
    hexValue?_hexDigit (Nat.mod_lt m (by decide))
  simp only [escapeUnit, List.drop_succ_cons, List.drop_zero, List.cons_append, List.nil_append,
    readUnit?, hdigit, bind, Option.bind, pure, Option.some.injEq, Prod.mk.injEq, and_true]
  omega

theorem readChars?_escapeUnit {n fuel : Nat} {out k rest : List Char} {c : Char}
    (h : readEscapedUnit? ((escapeUnit n).drop 2 ++ k) = some (c, rest)) :
    readChars? (fuel + 1) out (escapeUnit n ++ k) = readChars? fuel (c :: out) rest := by
  have hescape : escapeUnit n ++ k = '\\' :: 'u' :: ((escapeUnit n).drop 2 ++ k) := rfl
  rw [hescape]
  simp only [readChars?, h]

/-- A character of sixteen bits is no half of a pair. -/
theorem readEscapedUnit?_short {c : Char} (h : c.toNat < 0x10000) (k : List Char) :
    readEscapedUnit? ((escapeUnit c.toNat).drop 2 ++ k) = some (c, k) := by
  have hvalid := c.valid
  simp only [UInt32.isValidChar, Nat.isValidChar] at hvalid
  have hfirst : ¬ (0xD800 ≤ c.toNat ∧ c.toNat < 0xDC00) := by
    unfold Char.toNat
    omega
  have hsecond : ¬ (0xDC00 ≤ c.toNat ∧ c.toNat < 0xE000) := by
    unfold Char.toNat
    omega
  simp only [readEscapedUnit?, readUnit?_escapeUnit h, bind, Option.bind, if_neg hfirst,
    if_neg hsecond, pure, Char.ofNat_toNat]

theorem readLow?_escapeUnit {low : Nat} (h : 0xDC00 ≤ low ∧ low < 0xE000) (k : List Char) :
    readLow? (escapeUnit low ++ k) = some (low, k) := by
  have hescape : escapeUnit low ++ k = '\\' :: 'u' :: ((escapeUnit low).drop 2 ++ k) := rfl
  rw [hescape]
  simp only [readLow?, readUnit?_escapeUnit (show low < 0x10000 by omega), bind, Option.bind,
    if_pos h, pure]

theorem readEscapedUnit?_pair {high low : Nat} (hhigh : 0xD800 ≤ high ∧ high < 0xDC00)
    (hlow : 0xDC00 ≤ low ∧ low < 0xE000) (k : List Char) :
    readEscapedUnit? ((escapeUnit high).drop 2 ++ (escapeUnit low ++ k)) =
      some (Char.ofNat (0x10000 + (high - 0xD800) * 1024 + (low - 0xDC00)), k) := by
  simp only [readEscapedUnit?, readUnit?_escapeUnit (show high < 0x10000 by omega), bind,
    Option.bind, if_pos hhigh, readLow?_escapeUnit hlow, pure]

/-- The two halves of a character beyond sixteen bits. -/
theorem surrogates {n : Nat} (h : 0x10000 ≤ n) (hmax : n < 0x110000) :
    (0xD800 ≤ 0xD800 + (n - 0x10000) / 1024 ∧ 0xD800 + (n - 0x10000) / 1024 < 0xDC00) ∧
    (0xDC00 ≤ 0xDC00 + (n - 0x10000) % 1024 ∧ 0xDC00 + (n - 0x10000) % 1024 < 0xE000) ∧
    0x10000 + (0xD800 + (n - 0x10000) / 1024 - 0xD800) * 1024 +
      (0xDC00 + (n - 0x10000) % 1024 - 0xDC00) = n := by
  omega

theorem toNat_lt (c : Char) : c.toNat < 0x110000 := by
  have hvalid := c.valid
  simp only [UInt32.isValidChar, Nat.isValidChar] at hvalid
  unfold Char.toNat
  omega

/-- The ways in which a character is written. -/
theorem escapeChar_cases (c : Char) :
    (∃ e, escapeChar c = ['\\', e] ∧ simpleEscape? e = some c ∧ e ≠ 'u') ∨
    (escapeChar c = [c] ∧ 32 ≤ c.toNat ∧ c ≠ '"' ∧ c ≠ '\\') ∨
    (c.toNat < 0x10000 ∧ escapeChar c = escapeUnit c.toNat) ∨
    (0x10000 ≤ c.toNat ∧ escapeChar c = escapeUnit (0xD800 + (c.toNat - 0x10000) / 1024) ++
      escapeUnit (0xDC00 + (c.toNat - 0x10000) % 1024)) := by
  unfold escapeChar
  by_cases hquote : c = '"'
  · exact Or.inl ⟨'"', if_pos hquote, by rw [hquote]; rfl, by decide⟩
  rw [if_neg hquote]
  by_cases hslash : c = '\\'
  · exact Or.inl ⟨'\\', if_pos hslash, by rw [hslash]; rfl, by decide⟩
  rw [if_neg hslash]
  by_cases hnewline : c = '\n'
  · exact Or.inl ⟨'n', if_pos hnewline, by rw [hnewline]; rfl, by decide⟩
  rw [if_neg hnewline]
  by_cases hreturn : c = '\r'
  · exact Or.inl ⟨'r', if_pos hreturn, by rw [hreturn]; rfl, by decide⟩
  rw [if_neg hreturn]
  by_cases htab : c = '\t'
  · exact Or.inl ⟨'t', if_pos htab, by rw [htab]; rfl, by decide⟩
  rw [if_neg htab]
  by_cases hback : c.toNat = 8
  · exact Or.inl ⟨'b', if_pos hback, by rw [← Char.ofNat_toNat c, hback]; rfl, by decide⟩
  rw [if_neg hback]
  by_cases hfeed : c.toNat = 12
  · exact Or.inl ⟨'f', if_pos hfeed, by rw [← Char.ofNat_toNat c, hfeed]; rfl, by decide⟩
  rw [if_neg hfeed]
  by_cases hplain : 32 ≤ c.toNat ∧ c.toNat < 127
  · exact Or.inr (Or.inl ⟨if_pos hplain, hplain.1, hquote, hslash⟩)
  rw [if_neg hplain]
  by_cases hshort : c.toNat < 0x10000
  · exact Or.inr (Or.inr (Or.inl ⟨hshort, if_pos hshort⟩))
  · exact Or.inr (Or.inr (Or.inr ⟨Nat.le_of_not_lt hshort, if_neg hshort⟩))

theorem readChars?_escapeChar (c : Char) (fuel : Nat) (out k : List Char) :
    readChars? (fuel + 1) out (escapeChar c ++ k) = readChars? fuel (c :: out) k := by
  rcases escapeChar_cases c with
    ⟨e, hc, he, hne⟩ | ⟨hc, hrange, hquote, hslash⟩ | ⟨hshort, hc⟩ | ⟨hlong, hc⟩
  · rw [hc, List.cons_append, List.singleton_append, readChars?]
    · rw [he]
    · exact fun he => hne he
  · rw [hc, List.singleton_append, readChars?]
    · exact if_neg (Nat.not_lt.mpr hrange)
    all_goals grind
  · rw [hc]
    exact readChars?_escapeUnit (readEscapedUnit?_short hshort k)
  · obtain ⟨hhigh, hlow, hvalue⟩ := surrogates hlong (toNat_lt c)
    have hpair := readEscapedUnit?_pair hhigh hlow k
    rw [hvalue, Char.ofNat_toNat] at hpair
    rw [hc, List.append_assoc]
    exact readChars?_escapeUnit hpair

theorem readChars?_flatMap (cs : List Char) {fuel : Nat} (hfuel : cs.length < fuel)
    (out k : List Char) :
    readChars? fuel out (cs.flatMap escapeChar ++ '"' :: k) =
      some (String.ofList (out.reverse ++ cs), k) := by
  induction cs generalizing fuel out with
  | nil =>
    obtain ⟨fuel, rfl⟩ := Nat.exists_eq_succ_of_ne_zero (Nat.ne_zero_of_lt hfuel)
    simp [readChars?]
  | cons c cs ih =>
    obtain ⟨fuel, rfl⟩ := Nat.exists_eq_succ_of_ne_zero (Nat.ne_zero_of_lt hfuel)
    rw [List.flatMap_cons, List.append_assoc, readChars?_escapeChar,
      ih (by simpa using hfuel)]
    simp

theorem length_le_flatMap_escapeChar (cs : List Char) :
    cs.length ≤ (cs.flatMap escapeChar).length := by
  induction cs with
  | nil => exact Nat.le_refl _
  | cons c cs ih =>
    have hone : 1 ≤ (escapeChar c).length := by
      rcases escapeChar_cases c with ⟨e, hc, -⟩ | ⟨hc, -⟩ | ⟨-, hc⟩ | ⟨-, hc⟩ <;>
        simp [hc, escapeUnit]
    rw [List.flatMap_cons, List.length_append, List.length_cons]
    omega

theorem readString?_quote (s : String) (k : List Char) :
    readString? (s.toList.flatMap escapeChar ++ '"' :: k) = some (s, k) := by
  have hlength := length_le_flatMap_escapeChar s.toList
  rw [readString?, readChars?_flatMap _ (by rw [List.length_append]; omega)]
  simp

theorem insert_of_notMem {key : String} {v : Json} {members : List (String × Json)}
    (h : key ∉ members.map Prod.fst) : insert key v members = members ++ [(key, v)] := by
  induction members with
  | nil => rfl
  | cons m rest ih =>
    obtain ⟨hne, hrest⟩ : key ≠ m.1 ∧ key ∉ rest.map Prod.fst := by simpa using h
    rw [insert, if_neg hne.symm, ih hrest, List.cons_append]

/-! Lists and members, however they are laid out -/

/-- A way of writing values: behind what stands in front of them, before what follows them. -/
abbrev Write := Json → List Char → List Char

def Blanks (cs : List Char) : Prop :=
  ∀ c ∈ cs, isBlank c = true

theorem skipBlanks_append {gap : List Char} (h : Blanks gap) (k : List Char) :
    skipBlanks (gap ++ k) = skipBlanks k :=
  List.dropWhile_append_of_pos h

/-- Further items, each with a comma and a gap in front. -/
def layItems (write : Write) (gap : List Char) : List Json → List Char → List Char
  | [], k => k
  | v :: rest, k => ',' :: (gap ++ write v (layItems write gap rest k))

def layMembers (write : Write) (gap : List Char) : List (String × Json) → List Char → List Char
  | [], k => k
  | (key, v) :: rest, k =>
    ',' :: (gap ++ quote key ++ ':' :: ' ' :: write v (layMembers write gap rest k))

/-- A value is written in front of what follows, and its first character is neither a blank nor the
end of something. -/
structure Lays (write : Write) (v : Json) : Prop where
  appends : ∀ k, write v k = write v [] ++ k
  starts : ∃ c rest, write v [] = c :: rest ∧ isBlank c = false ∧ c ≠ ']' ∧ c ≠ '}'

section

variable {read : Read} {write : Write} {gap lead close k : List Char} {E : List Char → Prop} {v : Json}

theorem Lays.head (h : Lays write v) (k : List Char) :
    ∃ c rest, write v k = c :: rest ∧ isBlank c = false ∧ c ≠ ']' ∧ c ≠ '}' := by
  obtain ⟨c, rest, hc, hother⟩ := h.starts
  exact ⟨c, rest ++ k, by rw [h.appends, hc, List.cons_append], hother⟩

theorem Lays.skipBlanks_eq (h : Lays write v) (k : List Char) :
    skipBlanks (write v k) = write v k := by
  obtain ⟨c, rest, hc, hblank, -⟩ := h.head k
  rw [hc, skipBlanks, List.dropWhile_cons_of_neg (by simp [hblank])]

theorem length_le_layItems {items : List Json} (h : ∀ u ∈ items, Lays write u)
    (gap k : List Char) :
    items.length ≤ (layItems write gap items k).length := by
  induction items with
  | nil => exact Nat.zero_le _
  | cons u rest ih =>
    have hrest := ih fun w hw => h w (List.mem_cons_of_mem _ hw)
    rw [layItems, (h u List.mem_cons_self).appends]
    simp only [List.length_append, List.length_cons]
    omega

theorem length_le_layMembers {members : List (String × Json)} (h : ∀ m ∈ members, Lays write m.2)
    (gap k : List Char) :
    members.length ≤ (layMembers write gap members k).length := by
  induction members with
  | nil => exact Nat.zero_le _
  | cons m rest ih =>
    have hrest := ih fun w hw => h w (List.mem_cons_of_mem _ hw)
    rw [layMembers, (h m List.mem_cons_self).appends]
    simp only [List.length_append, List.length_cons]
    omega

/-- An item is no longer than the list that it stands in. -/
theorem length_le_items {u : Json} {rest : List Json} (h : ∀ w ∈ v :: rest, Lays write w)
    (hu : u ∈ v :: rest) (gap k : List Char) :
    (write u []).length ≤ (write v (layItems write gap rest k)).length := by
  have hv := (h v List.mem_cons_self).appends (layItems write gap rest k)
  rw [hv, List.length_append]
  induction rest generalizing v with
  | nil =>
    obtain rfl := List.mem_singleton.mp hu
    exact Nat.le_add_right _ _
  | cons w rest ih =>
    rcases List.mem_cons.mp hu with rfl | hu
    · exact Nat.le_add_right _ _
    · have hw := (h w (by simp)).appends (layItems write gap rest k)
      have hle := ih (fun x hx => h x (List.mem_cons_of_mem _ hx)) hu hw
      rw [layItems, hw]
      simp only [List.length_append, List.length_cons]
      omega

theorem length_le_members {key : String} {m : String × Json} {rest : List (String × Json)}
    (h : ∀ w ∈ (key, v) :: rest, Lays write w.2) (hm : m ∈ (key, v) :: rest) (gap k : List Char) :
    (write m.2 []).length ≤ (write v (layMembers write gap rest k)).length := by
  have hv := (h (key, v) List.mem_cons_self).appends (layMembers write gap rest k)
  rw [hv, List.length_append]
  induction rest generalizing key v with
  | nil =>
    obtain rfl := List.mem_singleton.mp hm
    exact Nat.le_add_right _ _
  | cons w rest ih =>
    rcases List.mem_cons.mp hm with rfl | hm
    · exact Nat.le_add_right _ _
    · have hw := (h w (by simp)).appends (layMembers write gap rest k)
      have hle : (write m.2 []).length ≤
          (write w.2 []).length + (layMembers write gap rest k).length :=
        ih (fun x hx => h x (List.mem_cons_of_mem _ hx)) hm hw
      rw [layMembers, hw]
      simp only [List.length_append, List.length_cons]
      omega

variable (hgap : Blanks gap)
include hgap

theorem readItems_gap (fuel : Nat) (items : List Json) (cs : List Char) :
    readItems read fuel items (gap ++ cs) = readItems read fuel items cs := by
  cases fuel with
  | zero => rfl
  | succ fuel => simp only [readItems, skipBlanks_append hgap]

theorem readMembers_gap (fuel : Nat) (members : List (String × Json)) (cs : List Char) :
    readMembers read fuel members (gap ++ cs) = readMembers read fuel members cs := by
  cases fuel with
  | zero => rfl
  | succ fuel => simp only [readMembers, skipBlanks_append hgap]

theorem readItems_layItems {rest : List Json} (hlays : ∀ u ∈ v :: rest, Lays write u)
    (hreads : ∀ u ∈ v :: rest, ∀ k, E k → read (write u k) = .ok (u, k))
    (hclose : skipBlanks close = ']' :: k) (hends : ∀ items, E (layItems write gap items close))
    {fuel : Nat} (hfuel : rest.length < fuel) (items : List Json) :
    readItems read fuel items (write v (layItems write gap rest close)) =
      .ok (items.reverse ++ v :: rest, k) := by
  induction rest generalizing v fuel items with
  | nil =>
    obtain ⟨fuel, rfl⟩ := Nat.exists_eq_succ_of_ne_zero (Nat.ne_zero_of_lt hfuel)
    have hv := hreads v List.mem_cons_self _ (hends [])
    rw [readItems, (hlays v List.mem_cons_self).skipBlanks_eq, hv]
    simp [bind, Except.bind, layItems, hclose, pure, Except.pure]
  | cons u rest ih =>
    obtain ⟨fuel, rfl⟩ := Nat.exists_eq_succ_of_ne_zero (Nat.ne_zero_of_lt hfuel)
    have hv := hreads v List.mem_cons_self _ (hends (u :: rest))
    have hcomma : ∀ cs, skipBlanks (',' :: cs) = ',' :: cs := fun _ => rfl
    have hnext : readItems read fuel (v :: items) (write u (layItems write gap rest close)) =
        .ok ((v :: items).reverse ++ u :: rest, k) :=
      ih (fun w hw => hlays w (List.mem_cons_of_mem _ hw))
        (fun w hw => hreads w (List.mem_cons_of_mem _ hw)) (by simpa using hfuel) (v :: items)
    rw [readItems, (hlays v List.mem_cons_self).skipBlanks_eq, hv]
    simp [bind, Except.bind, layItems, hcomma, readItems_gap hgap, hnext]

omit hgap in
theorem readMembers_step (key : String) (hlays : Lays write v)
    (hread : read (write v k) = .ok (v, k)) (fuel : Nat) (members : List (String × Json)) :
    readMembers read (fuel + 1) members (quote key ++ ':' :: ' ' :: write v k) =
      match skipBlanks k with
      | ',' :: rest => readMembers read fuel (insert key v members) rest
      | '}' :: rest => .ok (insert key v members, rest)
      | _ => .error .malformed := by
  have hquote : quote key ++ ':' :: ' ' :: write v k =
      '"' :: (key.toList.flatMap escapeChar ++ '"' :: ':' :: ' ' :: write v k) := by
    simp [quote]
  have hstart : ∀ cs, skipBlanks ('"' :: cs) = '"' :: cs := fun _ => rfl
  have hcolon : ∀ cs, skipBlanks (':' :: cs) = ':' :: cs := fun _ => rfl
  have hvalue : skipBlanks (' ' :: write v k) = write v k := hlays.skipBlanks_eq k
  rw [hquote, readMembers]
  simp only [hstart, readString?_quote, expect, bind, Except.bind, hcolon, hvalue, hread]
  rfl

theorem readMembers_layMembers {key : String} {rest : List (String × Json)}
    (hlays : ∀ m ∈ (key, v) :: rest, Lays write m.2)
    (hreads : ∀ m ∈ (key, v) :: rest, ∀ k, E k → read (write m.2 k) = .ok (m.2, k))
    (hclose : skipBlanks close = '}' :: k)
    (hends : ∀ members, E (layMembers write gap members close)) {fuel : Nat}
    (hfuel : rest.length < fuel) (members : List (String × Json))
    (hkeys : ((members ++ (key, v) :: rest).map Prod.fst).Nodup) :
    readMembers read fuel members
        (quote key ++ ':' :: ' ' :: write v (layMembers write gap rest close)) =
      .ok (members ++ (key, v) :: rest, k) := by
  have hnew : key ∉ members.map Prod.fst := by
    rw [List.map_append, List.map_cons, List.nodup_middle] at hkeys
    exact fun hmem => (List.nodup_cons.mp hkeys).1 (List.mem_append_left _ hmem)
  induction rest generalizing key v fuel members with
  | nil =>
    obtain ⟨fuel, rfl⟩ := Nat.exists_eq_succ_of_ne_zero (Nat.ne_zero_of_lt hfuel)
    have hv := hreads _ List.mem_cons_self _ (hends [])
    rw [readMembers_step key (hlays _ List.mem_cons_self) hv, insert_of_notMem hnew]
    simp [layMembers, hclose]
  | cons m rest ih =>
    obtain ⟨fuel, rfl⟩ := Nat.exists_eq_succ_of_ne_zero (Nat.ne_zero_of_lt hfuel)
    have hv := hreads _ List.mem_cons_self _ (hends (m :: rest))
    have hcomma : ∀ cs, skipBlanks (',' :: cs) = ',' :: cs := fun _ => rfl
    have hkeys' : ((members ++ [(key, v)] ++ m :: rest).map Prod.fst).Nodup := by
      simpa using hkeys
    have hnew' : m.1 ∉ (members ++ [(key, v)]).map Prod.fst := by
      rw [List.map_append, List.map_cons, List.nodup_middle] at hkeys'
      exact fun hmem => (List.nodup_cons.mp hkeys').1 (List.mem_append_left _ hmem)
    have hnext : readMembers read fuel (members ++ [(key, v)])
        (quote m.1 ++ ':' :: ' ' :: write m.2 (layMembers write gap rest close)) =
        .ok (members ++ [(key, v)] ++ m :: rest, k) :=
      ih (fun w hw => hlays w (List.mem_cons_of_mem _ hw))
        (fun w hw => hreads w (List.mem_cons_of_mem _ hw)) (by simpa using hfuel)
        (members ++ [(key, v)]) hkeys' hnew'
    rw [readMembers_step key (hlays _ List.mem_cons_self) hv, insert_of_notMem hnew, layMembers,
      hcomma, List.append_assoc]
    simp only [readMembers_gap hgap, hnext, List.append_assoc, List.singleton_append]

theorem readLevel_items {most : Nat} {rest : List Json} (hlead : Blanks lead)
    (hlays : ∀ u ∈ v :: rest, Lays write u)
    (hreads : ∀ u ∈ v :: rest, ∀ k, E k → read (write u k) = .ok (u, k))
    (hclose : skipBlanks close = ']' :: k) (hends : ∀ items, E (layItems write gap items close)) :
    readLevel most (some read) ('[' :: (lead ++ write v (layItems write gap rest close))) =
      .ok (arr (v :: rest), k) := by
  have hv := hlays v List.mem_cons_self
  obtain ⟨c, text, hc, -, hbracket, -⟩ := hv.head (layItems write gap rest close)
  have hfuel : rest.length < (write v (layItems write gap rest close)).length + 1 := by
    have hrest := length_le_layItems (fun u hu => hlays u (List.mem_cons_of_mem _ hu)) gap close
    rw [hv.appends, List.length_append]
    omega
  have hread := readItems_layItems hgap hlays hreads hclose hends hfuel []
  rw [readLevel, skipBlanks_append hlead, hv.skipBlanks_eq]
  split
  · rename_i heq
    exact absurd (List.cons.inj (hc.symm.trans heq)).1 hbracket
  · simp [hread]

theorem readLevel_members {most : Nat} {key : String} {rest : List (String × Json)} (hlead : Blanks lead)
    (hlays : ∀ m ∈ (key, v) :: rest, Lays write m.2)
    (hreads : ∀ m ∈ (key, v) :: rest, ∀ k, E k → read (write m.2 k) = .ok (m.2, k))
    (hclose : skipBlanks close = '}' :: k)
    (hends : ∀ members, E (layMembers write gap members close))
    (hkeys : (((key, v) :: rest).map Prod.fst).Nodup) :
    readLevel most (some read)
        ('{' :: (lead ++ (quote key ++ ':' :: ' ' :: write v (layMembers write gap rest close)))) =
      .ok (obj ((key, v) :: rest), k) := by
  have hfuel : rest.length <
      (quote key ++ ':' :: ' ' :: write v (layMembers write gap rest close)).length + 1 := by
    have hrest := length_le_layMembers (fun m hm => hlays m (List.mem_cons_of_mem _ hm)) gap close
    rw [(hlays _ List.mem_cons_self).appends]
    simp only [List.length_append, List.length_cons]
    omega
  have hread := readMembers_layMembers hgap hlays hreads hclose hends hfuel [] hkeys
  obtain ⟨text, htext⟩ : ∃ text, quote key ++ ':' :: ' ' :: write v (layMembers write gap rest close) =
      '"' :: text := ⟨_, rfl⟩
  rw [htext] at hread ⊢
  have hlevel : readLevel most (some read) ('{' :: (lead ++ '"' :: text)) =
      (readMembers read (('"' :: text).length + 1) [] ('"' :: text)).bind
        fun found => .ok (obj found.1, found.2) := by
    rw [readLevel, skipBlanks_append hlead]
    rfl
  rw [hlevel, hread]
  rfl

end

/-! Values on a line -/

mutual
theorem writeLine_append : ∀ (v : Json) (k : List Char), writeLine v k = writeLine v [] ++ k
  | null, k | bool true, k | bool false, k | int _, k | decimal _, k | str _, k => by
    simp [writeLine]
  | arr items, k => by
    rw [writeLine, writeLine, writeItems_append true items (']' :: k),
      writeItems_append true items [']'], List.cons_append, List.append_assoc, List.singleton_append]
  | obj members, k => by
    rw [writeLine, writeLine, writeMembers_append true members ('}' :: k),
      writeMembers_append true members ['}'], List.cons_append, List.append_assoc,
      List.singleton_append]

theorem writeItems_append : ∀ (first : Bool) (items : List Json) (k : List Char),
    writeItems first items k = writeItems first items [] ++ k
  | _, [], _ => by simp [writeItems]
  | first, v :: rest, k => by
    rw [writeItems, writeItems, writeLine_append v (writeItems false rest k),
      writeLine_append v (writeItems false rest []), writeItems_append false rest k]
    simp only [List.append_assoc]

theorem writeMembers_append : ∀ (first : Bool) (members : List (String × Json)) (k : List Char),
    writeMembers first members k = writeMembers first members [] ++ k
  | _, [], _ => by simp [writeMembers]
  | first, (key, v) :: rest, k => by
    rw [writeMembers, writeMembers, writeLine_append v (writeMembers false rest k),
      writeLine_append v (writeMembers false rest []), writeMembers_append false rest k]
    simp only [List.append_assoc, List.cons_append]
end

/-- The first character of a value is neither a blank nor the end of something. -/
theorem writeLine_head {v : Json} (h : v.Plain) (k : List Char) :
    ∃ c rest, writeLine v k = c :: rest ∧ isBlank c = false ∧ c ≠ ']' ∧ c ≠ '}' := by
  cases h with
  | null | str | arr | obj => exact ⟨_, _, rfl, by decide⟩
  | bool b => cases b <;> exact ⟨_, _, rfl, by decide⟩
  | int n =>
    rcases digits_head n with ⟨c, rest, hc, hdigit⟩ | ⟨c, rest, hc, -⟩
    · refine ⟨c, rest ++ k, by rw [writeLine, hc, List.cons_append], ?_, ?_, ?_⟩
      · have hne : ∀ d, isDigit d = false → c ≠ d := fun d hd => (ne_of_isDigit hdigit hd).symm
        simp [isBlank, hne ' ' rfl, hne '\t' rfl, hne '\n' rfl, hne '\r' rfl]
      · exact (ne_of_isDigit hdigit rfl).symm
      · exact (ne_of_isDigit hdigit rfl).symm
    · exact ⟨'-', c :: rest ++ k, by rw [writeLine, hc]; rfl, by decide⟩
  | decimal hnumeral =>
    obtain ⟨c, rest, hc, hblank, hother⟩ := hnumeral.head
    refine ⟨c, rest ++ k, by rw [writeLine, hc, List.cons_append], hblank, ?_, ?_⟩
    · rintro rfl
      exact hother (by decide)
    · rintro rfl
      exact hother (by decide)

theorem Plain.lays {v : Json} (h : v.Plain) : Lays writeLine v where
  appends := writeLine_append v
  starts := writeLine_head h []

theorem writeItems_eq (items : List Json) (k : List Char) :
    writeItems false items k = layItems writeLine [' '] items k := by
  induction items with
  | nil => rfl
  | cons v rest ih =>
    rw [writeItems, ih]
    rfl

theorem writeMembers_eq (members : List (String × Json)) (k : List Char) :
    writeMembers false members k = layMembers writeLine [' '] members k := by
  induction members with
  | nil => rfl
  | cons m rest ih =>
    rw [writeMembers, ih]
    rfl

theorem writeLine_arr_cons (v : Json) (rest : List Json) (k : List Char) :
    writeLine (arr (v :: rest)) k =
      '[' :: ([] ++ writeLine v (layItems writeLine [' '] rest (']' :: k))) := by
  rw [← writeItems_eq]
  rfl

theorem writeLine_obj_cons (key : String) (v : Json) (rest : List (String × Json)) (k : List Char) :
    writeLine (obj ((key, v) :: rest)) k = '{' :: ([] ++ (quote key ++ ':' :: ' ' ::
      writeLine v (layMembers writeLine [' '] rest ('}' :: k)))) := by
  rw [← writeMembers_eq]
  rfl

theorem fence_layItems {write : Write} (gap : List Char) (items : List Json) (k : List Char) :
    Fence (layItems write gap items (']' :: k)) := by
  cases items <;> rintro c ⟨⟩ <;> simp

theorem fence_layMembers {write : Write} (gap : List Char) (members : List (String × Json))
    (k : List Char) : Fence (layMembers write gap members ('}' :: k)) := by
  cases members <;> rintro c ⟨⟩ <;> simp

/-- A reader takes a value off the front of a text. -/
def Reads (read : Read) (v : Json) : Prop :=
  ∀ k, Fence k → read (writeLine v k) = .ok (v, k)

section

variable {most : Nat} {read : Read}

theorem reads_arr {items : List Json} (hplain : ∀ v ∈ items, v.Plain)
    (hreads : ∀ v ∈ items, Reads read v) : Reads (readLevel most (some read)) (arr items) := by
  intro k _
  cases items with
  | nil => rfl
  | cons v rest =>
    rw [writeLine_arr_cons]
    exact readLevel_items (by simp [Blanks, isBlank]) (by simp [Blanks])
      (fun u hu => (hplain u hu).lays) hreads rfl fun items => fence_layItems [' '] items k

theorem reads_obj {members : List (String × Json)}
    (hplain : ∀ m ∈ members, m.2.Plain) (hkeys : (members.map Prod.fst).Nodup)
    (hreads : ∀ m ∈ members, Reads read m.2) : Reads (readLevel most (some read)) (obj members) := by
  intro k _
  cases members with
  | nil => rfl
  | cons m rest =>
    obtain ⟨key, v⟩ := m
    rw [writeLine_obj_cons]
    exact readLevel_members (by simp [Blanks, isBlank]) (by simp [Blanks])
      (fun m hm => (hplain m hm).lays) hreads rfl
      (fun members => fence_layMembers [' '] members k) hkeys

end

section

variable {most : Nat} {nested : Option Read}

theorem readLevel_digits {n : Int} (hn : (Nat.toDigits 10 n.natAbs).length ≤ most) {k : List Char}
    (hk : Ends k) : readLevel most nested (digits n ++ k) = .ok (int n, k) := by
  rw [← readAtom_digits hn hk]
  rcases digits_head n with ⟨c, rest, hc, hdigit⟩ | ⟨c, rest, hc, -⟩
  · rw [hc, List.cons_append, readLevel]
    all_goals
      rintro rest ⟨⟩
      cases hdigit
  · rw [hc]
    rfl

theorem readLevel_quote (s : String) (k : List Char) :
    readLevel most nested (quote s ++ k) = .ok (str s, k) := by
  have hquote : quote s ++ k = '"' :: (s.toList.flatMap escapeChar ++ '"' :: k) := by
    simp [quote]
  rw [hquote, readLevel, readString?_quote]
  rfl

theorem readLevel_numeral {text : String} (h : Numeral text) {k : List Char} (hk : Fence k) :
    readLevel most nested (text.toList ++ k) = .ok (decimal text, k) := by
  obtain ⟨c, rest, hc, -, hother⟩ := h.head
  have hatom := h.reads most k hk
  rw [hc, List.cons_append] at hatom ⊢
  rw [readLevel]
  · exact hatom
  all_goals
    rintro rest ⟨⟩
    exact hother (by decide)

end

theorem read_eq_readLevel (most depth : Nat) : ∃ nested, read most depth = readLevel most nested := by
  cases depth <;> exact ⟨_, rfl⟩

/-- A reader takes every value that it has room for. -/
theorem reads_read {most depth : Nat} {v : Json} (h : v.Plain) (hwithin : Within most depth v) :
    Reads (read most depth) v := by
  obtain ⟨nested, hlevel⟩ := read_eq_readLevel most depth
  induction hwithin generalizing nested with
  | null => exact fun k _ => hlevel ▸ rfl
  | bool b => cases b <;> exact fun k _ => hlevel ▸ rfl
  | int hn => exact fun k hk => hlevel ▸ readLevel_digits hn hk.ends
  | decimal text =>
    cases h with
    | decimal hnumeral => exact fun k hk => hlevel ▸ readLevel_numeral hnumeral hk
  | str s => exact fun k _ => hlevel ▸ readLevel_quote s k
  | @arr depth _ _ ih =>
    obtain ⟨inner, hinner⟩ := read_eq_readLevel most depth
    cases h with
    | arr hplain => exact reads_arr hplain fun v hv => ih v hv (hplain v hv) inner hinner
  | @obj depth _ _ ih =>
    obtain ⟨inner, hinner⟩ := read_eq_readLevel most depth
    cases h with
    | obj hplain hkeys =>
      exact reads_obj hplain hkeys fun m hm => ih m hm (hplain m hm) inner hinner

/-- A plain value that is written on a line is read back from it by a reader with room for it. -/
theorem parse_line {limits : Limits} {v : Json} (h : v.Plain)
    (hwithin : Within limits.digits limits.depth v) : parse limits v.line = .ok v := by
  have hread := reads_read h hwithin [] (by rintro c ⟨⟩)
  rw [parse, line, String.toList_ofList, parseChars, h.lays.skipBlanks_eq, hread]
  rfl

end StaleQuery.Json
