import StaleQuery.Proofs.Json.RoundTrip
import StaleQuery.Proofs.Number.Nearest

/-!
# Numbers read back

A number with a fraction or an exponent is kept as the shortest text for the nearest number of 53
bits. Reading that text gives a decimal of the same interval, hence the same number and the same
text. So whatever is read from a text is read again from the line it is written on.
-/
namespace StaleQuery.Json

open StaleQuery.Number StaleQuery.Binary64

/-! Digits -/

theorem natOfDigits_append (ds es : List Char) :
    natOfDigits (ds ++ es) = natOfDigits ds * 10 ^ es.length + natOfDigits es := by
  have hfold : ∀ (es : List Char) (n : ℕ), es.foldl (fun n d => n * 10 + (d.toNat - 48)) n =
      n * 10 ^ es.length + natOfDigits es := by
    intro es
    induction es with
    | nil => simp [natOfDigits]
    | cons e es ih =>
      intro n
      have hhead : natOfDigits (e :: es) = (e.toNat - 48) * 10 ^ es.length + natOfDigits es := by
        rw [← ih, natOfDigits, List.foldl_cons, Nat.zero_mul, Nat.zero_add]
      rw [List.foldl_cons, ih, hhead, List.length_cons]
      ring
  rw [natOfDigits, List.foldl_append, hfold]
  rfl

theorem natOfDigits_zeros (k : ℕ) : natOfDigits (List.replicate k '0') = 0 := by
  induction k with
  | zero => rfl
  | succ k ih =>
    rw [List.replicate_succ', natOfDigits_append, ih]
    rfl

theorem isDigit_of_mem_zeros {k : ℕ} {c : Char} (h : c ∈ List.replicate k '0') : isDigit c = true := by
  rw [List.eq_of_mem_replicate h]
  rfl

/-! Spellings -/

/-- The parts of a number as it is written: the digits before and behind the point and the mark of
the exponent. -/
structure Spelling where
  whole : List Char
  places : List Char
  mark : List Char

namespace Spelling

def fraction (s : Spelling) : List Char :=
  if s.places = [] then [] else '.' :: s.places

def text (s : Spelling) : List Char :=
  s.whole ++ (s.fraction ++ s.mark)

def exponent (s : Spelling) : ℤ :=
  exponentValue s.mark - s.places.length

def value (s : Spelling) : ℚ :=
  natOfDigits (s.whole ++ s.places) * 10 ^ s.exponent

/-- No needless zero in front, and a fraction or an exponent. -/
structure Sound (s : Spelling) : Prop where
  whole : s.whole = ['0'] ∨ ∃ c rest, s.whole = c :: rest ∧ c ≠ '0'
  digits : ∀ d ∈ s.whole ++ s.places, isDigit d = true
  mark : s.mark = [] ∨ ∃ sign ds, s.mark = 'e' :: sign :: ds ∧ (sign = '+' ∨ sign = '-') ∧ ds ≠ [] ∧
    ∀ d ∈ ds, isDigit d = true
  fractional : s.places ≠ [] ∨ s.mark ≠ []

variable {s : Spelling}

theorem Sound.head (h : s.Sound) (k : List Char) :
    ∃ c rest, s.text ++ k = c :: rest ∧ isDigit c = true := by
  obtain ⟨c, rest, hc⟩ : ∃ c rest, s.whole = c :: rest := by
    rcases h.whole with hzero | ⟨c, rest, hc, -⟩
    · exact ⟨'0', [], hzero⟩
    · exact ⟨c, rest, hc⟩
  have hdigit : isDigit c = true := h.digits c (by simp [hc])
  unfold text
  rw [hc]
  exact ⟨c, _, rfl, hdigit⟩

theorem Sound.readWhole? (h : s.Sound) {k : List Char} (hk : Stops k) :
    readWhole? (s.whole ++ k) = some (s.whole, k) := by
  rcases h.whole with hzero | ⟨c, rest, hc, hne⟩
  · rw [hzero]
    rfl
  · rw [hc]
    apply readWhole?_append hne _ hk
    intro d hd
    exact h.digits d (List.mem_append_left _ (hc ▸ hd))

theorem Sound.readFraction (h : s.Sound) {k : List Char} (hk : Stops k) (hdot : k.head? ≠ some '.') :
    readFraction (s.fraction ++ k) = (s.fraction, k) := by
  unfold fraction
  by_cases hempty : s.places = []
  · rw [if_pos hempty, List.nil_append, Json.readFraction]
    rintro rest rfl
    exact hdot rfl
  · have hdigit : ∀ d ∈ s.places, isDigit d = true := fun d hd =>
      h.digits d (List.mem_append_right _ hd)
    rw [if_neg hempty, List.cons_append, Json.readFraction, takeWhile_digits hdigit hk,
      dropWhile_digits hdigit hk]
    split
    · exact absurd ‹_› hempty
    · rfl

theorem Sound.readExponent (h : s.Sound) {k : List Char} (hk : Fence k) :
    readExponent (s.mark ++ k) = (s.mark, k) := by
  rcases h.mark with hnone | ⟨sign, ds, hmark, hsign, hne, hdigit⟩
  · rw [hnone]
    exact readExponent_ends hk.ends
  · have hread : ∀ mark cs, readExponentDigits mark cs (ds ++ k) = (mark ++ ds, k) := by
      intro mark cs
      rw [readExponentDigits, takeWhile_digits hdigit hk.ends.stops, dropWhile_digits hdigit hk.ends.stops]
      split
      · exact absurd rfl hne
      · rfl
    rw [hmark]
    rcases hsign with rfl | rfl
    · exact hread ['e', '+'] _
    · exact hread ['e', '-'] _

/-- What stands behind the digits of a number does not go on with one. -/
theorem Sound.stops_mark (h : s.Sound) {k : List Char} (hk : Fence k) :
    Stops (s.mark ++ k) ∧ (s.mark ++ k).head? ≠ some '.' := by
  rcases h.mark with hnone | ⟨sign, ds, hmark, -⟩
  · rw [hnone, List.nil_append]
    refine ⟨hk.ends.stops, fun hdot => ?_⟩
    rcases hk '.' hdot with hdot | hdot | hdot <;> cases hdot
  · rw [hmark]
    constructor
    · rintro c ⟨⟩
      rfl
    · rintro ⟨⟩

theorem Sound.readNumber (h : s.Sound) (most : ℕ) (negative : Bool) {k : List Char} (hk : Fence k) :
    readNumber most ((sign negative).toList ++ (s.text ++ k)) =
      .ok (ofDecimal negative (s.whole ++ s.places) s.exponent, k) := by
  obtain ⟨hstops, hdot⟩ := h.stops_mark hk
  have hbehind : Stops (s.fraction ++ (s.mark ++ k)) := by
    unfold fraction
    split
    · exact hstops
    · rintro c ⟨⟩
      rfl
  have hwhole : Json.readWhole? (s.text ++ k) = some (s.whole, s.fraction ++ (s.mark ++ k)) := by
    rw [text, List.append_assoc, List.append_assoc]
    exact h.readWhole? hbehind
  have hfractional : (s.fraction.isEmpty && s.mark.isEmpty) = false := by
    unfold fraction
    rcases h.fractional with hne | hne
    · rw [if_neg hne]
      rfl
    · rw [Bool.and_eq_false_iff, List.isEmpty_eq_false_iff, List.isEmpty_eq_false_iff]
      exact Or.inr hne
  have hplaces : s.fraction.drop 1 = s.places := by
    unfold fraction
    split
    · rename_i hempty
      rw [hempty]
      rfl
    · rfl
  unfold Json.readNumber
  split
  rename_i negative' body hsign
  obtain ⟨rfl, rfl⟩ : negative' = negative ∧ body = s.text ++ k := by
    cases negative with
    | true => exact (Prod.mk.inj hsign).imp Eq.symm Eq.symm
    | false =>
      obtain ⟨c, rest, hc, hdigit⟩ := h.head k
      have hempty : (sign false).toList = [] := rfl
      rw [hempty, List.nil_append] at hsign
      split at hsign
      · rename_i hminus
        obtain ⟨rfl, -⟩ := List.cons.inj (hc.symm.trans hminus)
        cases hdigit
      · exact (Prod.mk.inj hsign).imp Eq.symm Eq.symm
  simp only [hwhole, expect, bind, Except.bind, h.readFraction hstops hdot, h.readExponent hk,
    hfractional, hplaces]
  rfl

end Spelling

/-! The text of a decimal -/

section

variable {d : Decimal}

/-- Zeros may be moved from the exponent to the digits. -/
theorem Spelling.value_eq {s : Spelling} (shift : ℕ)
    (hdigits : natOfDigits (s.whole ++ s.places) = d.digits * 10 ^ shift)
    (hexponent : s.exponent + shift = d.exponent) : s.value = d.value := by
  rw [Spelling.value, Decimal.value, hdigits, ← hexponent, zpow_add₀ (by norm_num), zpow_natCast]
  push_cast
  ring

/-- A way to write a decimal with the given digits. -/
def Written (d : Decimal) (text : List Char) : Prop :=
  ∃ s : Spelling, s.Sound ∧ text = s.text ∧ s.value = d.value

theorem written_below_one (hd : d.digits ≠ 0) {zeros : ℕ}
    (hpoint : (Nat.toDigits 10 d.digits).length + d.exponent = -zeros) :
    Written d ('0' :: '.' :: (List.replicate zeros '0' ++ Nat.toDigits 10 d.digits)) := by
  obtain ⟨c, rest, hc, -⟩ := toDigits_head hd
  refine ⟨⟨['0'], List.replicate zeros '0' ++ Nat.toDigits 10 d.digits, []⟩,
    ⟨Or.inl rfl, ?_, Or.inl rfl, Or.inl (by simp [hc])⟩, ?_, ?_⟩
  · intro a ha
    rcases List.mem_append.mp ha with ha | ha
    · rw [List.mem_singleton.mp ha]
      rfl
    · rcases List.mem_append.mp ha with ha | ha
      · exact isDigit_of_mem_zeros ha
      · exact isDigit_of_mem_toDigits ha
  · simp [Spelling.text, Spelling.fraction, hc]
  · apply Spelling.value_eq 0
    · rw [natOfDigits_append, natOfDigits_append, natOfDigits_zeros, natOfDigits_toDigits]
      simp [natOfDigits]
    · simp only [Spelling.exponent, exponentValue, List.length_append, List.length_replicate]
      omega

theorem written_whole (hd : d.digits ≠ 0) {zeros : ℕ} (hexponent : d.exponent = zeros) :
    Written d (Nat.toDigits 10 d.digits ++ List.replicate zeros '0' ++ ['.', '0']) := by
  obtain ⟨c, rest, hc, hne⟩ := toDigits_head hd
  refine ⟨⟨Nat.toDigits 10 d.digits ++ List.replicate zeros '0', ['0'], []⟩,
    ⟨Or.inr ⟨c, rest ++ List.replicate zeros '0', by rw [hc, List.cons_append], hne⟩, ?_,
      Or.inl rfl, Or.inl (by simp)⟩, ?_, ?_⟩
  · intro a ha
    rcases List.mem_append.mp ha with ha | ha
    · rcases List.mem_append.mp ha with ha | ha
      · exact isDigit_of_mem_toDigits ha
      · exact isDigit_of_mem_zeros ha
    · rw [List.mem_singleton.mp ha]
      rfl
  · simp [Spelling.text, Spelling.fraction]
  · apply Spelling.value_eq (zeros + 1)
    · rw [natOfDigits_append, natOfDigits_append, natOfDigits_zeros, natOfDigits_toDigits,
        List.length_replicate]
      simp [natOfDigits]
      ring
    · simp only [Spelling.exponent, exponentValue, List.length_singleton]
      omega

/-- The digits are cut in two by the point; a mark for the exponent may follow. -/
theorem written_split (hd : d.digits ≠ 0) (front : ℕ) (mark : List Char) (hfront : 0 < front)
    (hmark : mark = [] ∨ ∃ sign ds, mark = 'e' :: sign :: ds ∧ (sign = '+' ∨ sign = '-') ∧ ds ≠ [] ∧
      ∀ a ∈ ds, isDigit a = true)
    (hfractional : front < (Nat.toDigits 10 d.digits).length ∨ mark ≠ [])
    (hexponent : exponentValue mark - ((Nat.toDigits 10 d.digits).length - front : ℕ) = d.exponent) :
    Written d ((Nat.toDigits 10 d.digits).take front ++
      ((if (Nat.toDigits 10 d.digits).length ≤ front then []
        else '.' :: (Nat.toDigits 10 d.digits).drop front) ++ mark)) := by
  obtain ⟨c, rest, hc, hne⟩ := toDigits_head hd
  obtain ⟨front, rfl⟩ : ∃ n, front = n + 1 := Nat.exists_eq_succ_of_ne_zero hfront.ne'
  have hlength : front + 1 < (Nat.toDigits 10 d.digits).length ↔
      (Nat.toDigits 10 d.digits).drop (front + 1) ≠ [] := by
    rw [Ne, List.drop_eq_nil_iff, not_le]
  refine ⟨⟨(Nat.toDigits 10 d.digits).take (front + 1), (Nat.toDigits 10 d.digits).drop (front + 1),
    mark⟩, ⟨Or.inr ⟨c, rest.take front, by rw [hc, List.take_succ_cons], hne⟩, ?_, hmark, ?_⟩, ?_, ?_⟩
  · intro a ha
    rw [List.take_append_drop] at ha
    exact isDigit_of_mem_toDigits ha
  · rwa [hlength] at hfractional
  · simp only [Spelling.text, Spelling.fraction, List.drop_eq_nil_iff]
  · apply Spelling.value_eq 0
    · rw [List.take_append_drop, natOfDigits_toDigits, pow_zero, mul_one]
    · rw [Spelling.exponent, List.length_drop]
      simpa using hexponent

end

theorem exponentValue_mark (e : ℤ) (zeros : ℕ) :
    exponentValue ('e' :: (if e < 0 then '-' else '+') ::
      (List.replicate zeros '0' ++ Nat.toDigits 10 e.natAbs)) = e := by
  have hdigits : natOfDigits (List.replicate zeros '0' ++ Nat.toDigits 10 e.natAbs) = e.natAbs := by
    rw [natOfDigits_append, natOfDigits_zeros, natOfDigits_toDigits]
    omega
  split
  · rw [exponentValue, hdigits]
    omega
  · rw [exponentValue, hdigits]
    omega

theorem written_text {d : Decimal} (hd : d.digits ≠ 0) : Written d d.text.toList := by
  have hpositive : 0 < (Nat.toDigits 10 d.digits).length :=
    List.length_pos_of_ne_nil Nat.toDigits_ne_nil
  unfold Decimal.text
  dsimp only
  generalize hpoint : ((Nat.toDigits 10 d.digits).length : ℤ) + d.exponent = point
  split
  · split
    · rw [String.toList_ofList]
      exact written_below_one hd (by omega)
    · rw [String.toList_ofList]
      by_cases hlong : (Nat.toDigits 10 d.digits).length ≤ point.toNat
      · rw [if_pos hlong, List.take_of_length_le hlong]
        exact written_whole hd (by omega)
      · have hsplit := written_split hd point.toNat [] (by omega) (Or.inl rfl) (Or.inl (by omega))
          (by rw [exponentValue]; omega)
        rw [if_neg hlong, List.append_nil] at hsplit
        rw [if_neg hlong, Nat.sub_eq_zero_of_le (by omega), List.replicate_zero, List.append_nil]
        exact hsplit
  · rw [String.toList_ofList, List.append_assoc]
    apply written_split hd 1 _ Nat.one_pos
    · refine Or.inr ⟨_, _, rfl, ?_, ?_, ?_⟩
      · split
        · exact Or.inr rfl
        · exact Or.inl rfl
      · simp
      · intro a ha
        rcases List.mem_append.mp ha with ha | ha
        · exact isDigit_of_mem_zeros ha
        · exact isDigit_of_mem_toDigits ha
    · exact Or.inr (List.cons_ne_nil _ _)
    · rw [exponentValue_mark]
      omega

/-! Numbers as they are kept -/

theorem magnitude_bounds {n : ℕ} (hn : n ≠ 0) (exponent : ℤ) {low high : ℤ}
    (hlow : (10 : ℚ) ^ low < n * 10 ^ exponent) (hhigh : (n : ℚ) * 10 ^ exponent < 10 ^ high) :
    low < (Nat.toDigits 10 n).length + exponent ∧ (Nat.toDigits 10 n).length + exponent ≤ high := by
  have hpositive : 0 < (Nat.toDigits 10 n).length := List.length_pos_of_ne_nil Nat.toDigits_ne_nil
  have hpow : (0 : ℚ) < 10 ^ exponent := zpow_pos (by norm_num) _
  have hless : (n : ℚ) < 10 ^ ((Nat.toDigits 10 n).length : ℤ) := by
    rw [zpow_natCast]
    exact_mod_cast (Nat.length_toDigits_le_iff (by decide) hpositive).mp le_rfl
  have hmore : (10 : ℚ) ^ ((Nat.toDigits 10 n).length - 1 : ℤ) ≤ n := by
    obtain ⟨k, hk⟩ : ∃ k, (Nat.toDigits 10 n).length = k + 1 :=
      Nat.exists_eq_succ_of_ne_zero hpositive.ne'
    have hle : 10 ^ k ≤ n := by
      by_cases hzero : k = 0
      · rw [hzero]
        omega
      · rw [← not_lt, ← Nat.length_toDigits_le_iff (by decide) (Nat.pos_of_ne_zero hzero)]
        omega
    rw [hk, Nat.cast_succ, add_sub_cancel_right, zpow_natCast]
    exact_mod_cast hle
  constructor
  · have hlt : (10 : ℚ) ^ low < 10 ^ ((Nat.toDigits 10 n).length + exponent) := by
      rw [zpow_add₀ (by norm_num)]
      exact hlow.trans (by gcongr)
    exact (zpow_lt_zpow_iff_right₀ (by norm_num)).mp hlt
  · have hlt : (10 : ℚ) ^ ((Nat.toDigits 10 n).length - 1 + exponent) < 10 ^ high := by
      rw [zpow_add₀ (by norm_num)]
      exact lt_of_le_of_lt (by gcongr) hhigh
    have := (zpow_lt_zpow_iff_right₀ (by norm_num)).mp hlt
    omega

/-- A decimal in the interval of a number is kept as that number. -/
theorem ofDecimal_of_rounds (negative : Bool) {ds : List Char} {exponent : ℤ} {m : ℕ} {e : ℤ}
    (h : Finite m e) (hv : Rounds m e (natOfDigits ds * 10 ^ exponent)) :
    ofDecimal negative ds exponent =
      decimal (sign negative ++ ((shortestPositive m e).trimmed 20).text) := by
  have hpos := hv.pos h.toCanonical
  obtain ⟨hlow, hhigh⟩ := hv.bounds h
  have hn : natOfDigits ds ≠ 0 := by
    intro hzero
    rw [hzero] at hpos
    simp at hpos
  obtain ⟨hsmall, hlarge⟩ := magnitude_bounds hn exponent hlow hhigh
  have hden := inUnits_pos (a := natOfDigits ds) (by norm_num : 0 < 10) Nat.one_pos (-exponent)
  have hvalue := decimal_value (natOfDigits ds) exponent
  have hnum := inUnits_num_pos (by norm_num : 0 < 10) (Nat.pos_of_ne_zero hn) 1 (-exponent)
  rw [← hvalue] at hv
  obtain ⟨hoverflow, htext⟩ := text_ofRatio_of_rounds negative hnum hden h hv
  have hzero : ¬ (decide (natOfDigits ds = 0) || decide (((Nat.toDigits 10 (natOfDigits ds)).length : ℤ)
      + exponent < -400)) = true := by
    rw [Bool.or_eq_true, decide_eq_true_eq, decide_eq_true_eq]
    omega
  rw [ofDecimal]
  simp only [if_neg hzero, if_neg (not_lt.mpr hlarge), hoverflow, htext]
  rfl

/-- A spelling is kept if it stands for the number that is written so. -/
theorem Spelling.Sound.numeral {s : Spelling} (h : s.Sound) (negative : Bool) {text : String}
    (htext : text.toList = (sign negative).toList ++ s.text)
    (hvalue : ofDecimal negative (s.whole ++ s.places) s.exponent = decimal text) : Numeral text := by
  obtain ⟨c, rest, hc, hdigit⟩ := h.head []
  rw [List.append_nil] at hc
  have hdigits : ∀ d, isDigit d = false → c ≠ d := fun d hd => (ne_of_isDigit hdigit hd).symm
  constructor
  · rw [htext, hc]
    cases negative with
    | true => exact ⟨'-', c :: rest, rfl, by decide⟩
    | false =>
      refine ⟨c, rest, rfl, ?_, ?_⟩
      · simp [isBlank, hdigits ' ' rfl, hdigits '\t' rfl, hdigits '\n' rfl, hdigits '\r' rfl]
      · simp [hdigits '"' rfl, hdigits '[' rfl, hdigits '{' rfl, hdigits ']' rfl, hdigits '}' rfl]
  · intro most k hk
    rw [htext, List.append_assoc, readAtom_of_digit, h.readNumber most negative hk, hvalue]
    rw [hc]
    cases negative with
    | true => exact Or.inr ⟨c, rest ++ k, rfl, hdigit⟩
    | false => exact Or.inl ⟨c, rest ++ k, rfl, hdigit⟩

theorem numeral_zero (negative : Bool) : Numeral (if negative then "-0.0" else "0.0") := by
  have hsound : (Spelling.mk ['0'] ['0'] []).Sound :=
    ⟨Or.inl rfl, fun _ hd => isDigit_of_mem_zeros (k := 2) hd, Or.inl rfl,
      Or.inl (List.cons_ne_nil _ _)⟩
  cases negative <;> exact hsound.numeral _ rfl rfl

theorem numeral_infinite (negative : Bool) : Numeral (if negative then "-Infinity" else "Infinity") := by
  cases negative
  · exact ⟨⟨_, _, rfl, by decide⟩, fun _ k _ => rfl⟩
  · exact ⟨⟨_, _, rfl, by decide⟩, fun _ k _ => rfl⟩

theorem numeral_nan : Numeral "NaN" :=
  ⟨⟨_, _, rfl, by decide⟩, fun _ k _ => rfl⟩

/-- The shortest text for a number is read back as it is. -/
theorem numeral_shortest (negative : Bool) {m : ℕ} {e : ℤ} (h : Finite m e) :
    Numeral (sign negative ++ ((shortestPositive m e).trimmed 20).text) := by
  have hv := rounds_shortestPositive h.pos e
  rw [← Decimal.value_trimmed 20] at hv
  have hdigits : ((shortestPositive m e).trimmed 20).digits ≠ 0 := by
    intro hzero
    have hpos := hv.pos h.toCanonical
    rw [Decimal.value, hzero] at hpos
    simp at hpos
  obtain ⟨s, hsound, htext, hvalue⟩ := written_text hdigits
  rw [← hvalue] at hv
  apply hsound.numeral negative
  · rw [String.toList_append, htext]
  · exact ofDecimal_of_rounds negative h hv

theorem exists_numeral_ofDecimal (negative : Bool) (ds : List Char) (exponent : ℤ) :
    ∃ text, ofDecimal negative ds exponent = decimal text ∧ Numeral text := by
  unfold ofDecimal
  dsimp only
  split
  · exact ⟨_, rfl, numeral_zero negative⟩
  · split
    · exact ⟨_, rfl, numeral_infinite negative⟩
    · split
      · exact ⟨_, rfl, numeral_infinite negative⟩
      · rename_i hnonzero _ hfinite
        have hn : 0 < natOfDigits ds := by
          rw [Bool.or_eq_true, decide_eq_true_eq, not_or] at hnonzero
          exact Nat.pos_of_ne_zero hnonzero.1
        have hnum := inUnits_num_pos (by norm_num : 0 < 10) hn 1 (-exponent)
        have hden := inUnits_pos (a := natOfDigits ds) (by norm_num : 0 < 10) Nat.one_pos (-exponent)
        refine ⟨_, rfl, ?_⟩
        rcases ofRatio_cases negative hnum hden with hzero | hlarge | ⟨m, e, h, htext⟩
        · rw [text, if_pos hzero]
          exact numeral_zero negative
        · exact absurd hlarge hfinite
        · rw [htext]
          exact numeral_shortest negative h

/-! Whatever is read -/

theorem bind_eq_ok_iff {α β ε : Type} {x : Except ε α} {f : α → Except ε β} {b : β} :
    x.bind f = .ok b ↔ ∃ a, x = .ok a ∧ f a = .ok b := by
  cases x <;> simp [Except.bind]

theorem expect_eq_ok_iff {α : Type} {found : Option α} {a : α} :
    expect found = .ok a ↔ found = some a := by
  cases found <;> simp [expect]

theorem natOfDigits_lt {ds : List Char} (hdigits : ∀ d ∈ ds, isDigit d = true) :
    natOfDigits ds < 10 ^ ds.length := by
  induction ds using List.reverseRecOn with
  | nil => exact Nat.one_pos
  | append_singleton ds d ih =>
    have hprefix := ih fun a ha => hdigits a (List.mem_append_left _ ha)
    have hlast : d.toNat - 48 < 10 := by
      have hd := hdigits d (by simp)
      simp only [isDigit, Bool.and_eq_true, decide_eq_true_eq, Char.le_def,
        UInt32.le_iff_toNat_le] at hd
      have hnine : d.toNat ≤ 57 := hd.2
      omega
    have hsingle : natOfDigits [d] = d.toNat - 48 := by simp [natOfDigits]
    rw [natOfDigits_append, hsingle, List.length_append, List.length_singleton,
      pow_one, pow_succ]
    omega

theorem readWhole?_digits {cs whole rest : List Char} (h : readWhole? cs = some (whole, rest)) :
    whole ≠ [] ∧ ∀ d ∈ whole, isDigit d = true := by
  unfold readWhole? at h
  split at h
  · obtain ⟨rfl, -⟩ := Prod.mk.inj (Option.some.inj h)
    exact ⟨by simp, by simp [isDigit]⟩
  · rename_i c cs _
    split at h
    · rename_i hc
      obtain ⟨rfl, -⟩ := Prod.mk.inj (Option.some.inj h)
      refine ⟨by simp [hc], fun d hd => ?_⟩
      exact List.all_eq_true.mp List.all_takeWhile d hd
    · cases h
  · cases h

/-- What a run of digits stands for has no more digits than were read. -/
theorem length_toDigits_natOfDigits {ds : List Char} (hne : ds ≠ [])
    (hdigits : ∀ d ∈ ds, isDigit d = true) : (Nat.toDigits 10 (natOfDigits ds)).length ≤ ds.length :=
  (Nat.length_toDigits_le_iff (by decide) (List.length_pos_of_ne_nil hne)).mpr
    (natOfDigits_lt hdigits)

/-- A reader that gives values that read back, and only such as it has room for. -/
def ReadsPlain (most depth : ℕ) (read : Read) : Prop :=
  ∀ cs v rest, read cs = .ok (v, rest) → v.Plain ∧ Within most depth v

section

variable {most depth : ℕ}

theorem readsPlain_readNumber : ReadsPlain most depth (readNumber most) := by
  intro cs v rest h
  unfold readNumber at h
  split at h
  simp only [bind, bind_eq_ok_iff] at h
  obtain ⟨⟨whole, behind⟩, hwhole, h⟩ := h
  dsimp only at h
  split at h
  · split at h
    · cases h
    · rename_i hshort
      obtain ⟨rfl, -⟩ := Prod.mk.inj (Except.ok.inj h)
      have hread : readWhole? _ = some (whole, behind) := expect_eq_ok_iff.mp hwhole
      obtain ⟨hne, hdigits⟩ := readWhole?_digits hread
      have hlength := length_toDigits_natOfDigits hne hdigits
      refine ⟨.int _, .int ?_⟩
      split
      · rw [Int.natAbs_neg, Int.natAbs_natCast]
        omega
      · rw [Int.natAbs_natCast]
        omega
  · obtain ⟨rfl, -⟩ := Prod.mk.inj (Except.ok.inj h)
    obtain ⟨text, htext, hnumeral⟩ := exists_numeral_ofDecimal _ _ _
    rw [htext]
    exact ⟨.decimal hnumeral, .decimal text⟩

theorem plain_of_mem_words : ∀ word ∈ words, word.2.Plain ∧ Within most depth word.2 := by
  intro word h
  simp only [words, List.mem_cons, List.not_mem_nil, or_false] at h
  rcases h with rfl | rfl | rfl | rfl | rfl | rfl
  · exact ⟨.null, .null⟩
  · exact ⟨.bool true, .bool true⟩
  · exact ⟨.bool false, .bool false⟩
  · exact ⟨.decimal numeral_nan, .decimal _⟩
  · exact ⟨.decimal (numeral_infinite false), .decimal _⟩
  · exact ⟨.decimal (numeral_infinite true), .decimal _⟩

theorem readsPlain_readAtom : ReadsPlain most depth (readAtom most) := by
  intro cs v rest h
  unfold readAtom at h
  split at h
  · rename_i found hfound
    obtain ⟨word, hmem, hword⟩ := List.exists_of_findSome?_eq_some hfound
    obtain ⟨after, -, hafter⟩ := Option.map_eq_some_iff.mp hword
    obtain ⟨rfl, -⟩ := Prod.mk.inj (hafter.trans (Except.ok.inj h))
    exact plain_of_mem_words word hmem
  · exact readsPlain_readNumber cs v rest h

end

theorem plain_insert (key : String) {v : Json} {members : List (String × Json)} (hv : v.Plain)
    (h : (obj members).Plain) : (obj (insert key v members)).Plain := by
  have hkeys : ∀ members : List (String × Json), ∀ other ∈ (insert key v members).map Prod.fst,
      other = key ∨ other ∈ members.map Prod.fst := by
    intro members
    induction members with
    | nil => simp [insert]
    | cons m rest ih =>
      intro other hother
      by_cases hk : m.1 = key
      · rw [insert, if_pos hk] at hother
        exact Or.inr hother
      · rw [insert, if_neg hk, List.map_cons, List.mem_cons] at hother
        rcases hother with rfl | hother
        · exact Or.inr List.mem_cons_self
        · exact (ih other hother).imp_right (List.mem_cons_of_mem _)
  induction members with
  | nil =>
    refine .obj (fun m hm => ?_) (by simp [insert])
    rw [List.mem_singleton.mp hm]
    exact hv
  | cons m rest ih =>
    cases h with
    | obj hplain hnodup =>
      obtain ⟨hnew, hrest⟩ := List.nodup_cons.mp hnodup
      by_cases hk : m.1 = key
      · rw [insert, if_pos hk]
        refine .obj (fun u hu => ?_) hnodup
        rcases List.mem_cons.mp hu with rfl | hu
        · exact hv
        · exact hplain u (List.mem_cons_of_mem _ hu)
      · rw [insert, if_neg hk]
        cases ih (.obj (fun u hu => hplain u (List.mem_cons_of_mem _ hu)) hrest) with
        | obj hplain' hnodup' =>
          refine .obj (fun u hu => ?_) (List.nodup_cons.mpr ⟨fun hmem => ?_, hnodup'⟩)
          · rcases List.mem_cons.mp hu with rfl | hu
            · exact hplain _ List.mem_cons_self
            · exact hplain' u hu
          · rcases hkeys rest m.1 hmem with heq | hmem
            · exact hk heq
            · exact hnew hmem

theorem within_insert {most depth : ℕ} (key : String) {v : Json} {members : List (String × Json)}
    (hv : Within most depth v) (h : ∀ m ∈ members, Within most depth m.2) :
    ∀ m ∈ insert key v members, Within most depth m.2 := by
  induction members with
  | nil => simpa [insert] using hv
  | cons m rest ih =>
    obtain ⟨hm, hrest⟩ := List.forall_mem_cons.mp h
    by_cases hk : m.1 = key
    · rw [insert, if_pos hk]
      exact List.forall_mem_cons.mpr ⟨hv, hrest⟩
    · rw [insert, if_neg hk]
      exact List.forall_mem_cons.mpr ⟨hm, ih hrest⟩

section

variable {most depth : ℕ} {read : Read} (hread : ReadsPlain most depth read)
include hread

theorem plain_of_readItems {fuel : ℕ} {items found : List Json} {cs rest : List Char}
    (hitems : ∀ v ∈ items, v.Plain ∧ Within most depth v)
    (h : readItems read fuel items cs = .ok (found, rest)) :
    ∀ v ∈ found, v.Plain ∧ Within most depth v := by
  induction fuel generalizing items cs with
  | zero => cases h
  | succ fuel ih =>
    simp only [readItems, bind, bind_eq_ok_iff] at h
    obtain ⟨⟨v, behind⟩, hv, h⟩ := h
    have hcons : ∀ u ∈ v :: items, u.Plain ∧ Within most depth u :=
      List.forall_mem_cons.mpr ⟨hread _ _ _ hv, hitems⟩
    dsimp only at h
    split at h
    · exact ih hcons h
    · obtain ⟨rfl, -⟩ := Prod.mk.inj (Except.ok.inj h)
      intro u hu
      exact hcons u (List.mem_reverse.mp hu)
    · cases h

theorem plain_of_readMembers {fuel : ℕ} {members found : List (String × Json)} {cs rest : List Char}
    (hplain : (obj members).Plain) (hwithin : ∀ m ∈ members, Within most depth m.2)
    (h : readMembers read fuel members cs = .ok (found, rest)) :
    (obj found).Plain ∧ ∀ m ∈ found, Within most depth m.2 := by
  induction fuel generalizing members cs with
  | zero => cases h
  | succ fuel ih =>
    unfold readMembers at h
    split at h
    · simp only [bind, bind_eq_ok_iff] at h
      obtain ⟨⟨key, behind⟩, -, h⟩ := h
      dsimp only at h
      split at h
      · simp only [bind_eq_ok_iff] at h
        obtain ⟨⟨v, behind⟩, hv, h⟩ := h
        obtain ⟨hv, hroom⟩ := hread _ _ _ hv
        have hinsert := plain_insert key hv hplain
        have hfits := within_insert key hroom hwithin
        dsimp only at h
        split at h
        · exact ih hinsert hfits h
        · obtain ⟨rfl, -⟩ := Prod.mk.inj (Except.ok.inj h)
          exact ⟨hinsert, hfits⟩
        · cases h
      · cases h
    · cases h

end

/-- Where brackets may be nested, one more may be open around them. -/
theorem readsPlain_readLevel {most depth : ℕ} {nested : Option Read}
    (hnested : ∀ read ∈ nested, ∃ inner, depth = inner + 1 ∧ ReadsPlain most inner read) :
    ReadsPlain most depth (readLevel most nested) := by
  intro cs v rest h
  unfold readLevel at h
  split at h
  · simp only [bind, bind_eq_ok_iff] at h
    obtain ⟨⟨s, behind⟩, -, h⟩ := h
    obtain ⟨rfl, -⟩ := Prod.mk.inj (Except.ok.inj h)
    exact ⟨.str s, .str s⟩
  · split at h
    · cases h
    · rename_i read
      obtain ⟨inner, rfl, hread⟩ := hnested read rfl
      split at h
      · obtain ⟨rfl, -⟩ := Prod.mk.inj (Except.ok.inj h)
        exact ⟨.arr (by simp), .arr (by simp)⟩
      · simp only [bind, bind_eq_ok_iff] at h
        obtain ⟨⟨items, behind⟩, hitems, h⟩ := h
        obtain ⟨rfl, -⟩ := Prod.mk.inj (Except.ok.inj h)
        have hall := plain_of_readItems hread (by simp) hitems
        exact ⟨.arr fun u hu => (hall u hu).1, .arr fun u hu => (hall u hu).2⟩
  · split at h
    · cases h
    · rename_i read
      obtain ⟨inner, rfl, hread⟩ := hnested read rfl
      split at h
      · obtain ⟨rfl, -⟩ := Prod.mk.inj (Except.ok.inj h)
        exact ⟨.obj (by simp) (by simp), .obj (by simp)⟩
      · simp only [bind, bind_eq_ok_iff] at h
        obtain ⟨⟨members, behind⟩, hmembers, h⟩ := h
        obtain ⟨rfl, -⟩ := Prod.mk.inj (Except.ok.inj h)
        obtain ⟨hplain, hwithin⟩ :=
          plain_of_readMembers hread (.obj (by simp) (by simp)) (by simp) hmembers
        exact ⟨hplain, .obj hwithin⟩
  · exact readsPlain_readAtom cs v rest h

theorem readsPlain_read (most depth : ℕ) : ReadsPlain most depth (read most depth) := by
  induction depth with
  | zero => exact readsPlain_readLevel nofun
  | succ depth ih =>
    apply readsPlain_readLevel
    rintro read ⟨⟩
    exact ⟨depth, rfl, ih⟩

/-- Whatever is read from a text reads back, and there is room for it. -/
theorem plain_of_parse {limits : Limits} {text : String} {v : Json} (h : parse limits text = .ok v) :
    v.Plain ∧ Within limits.digits limits.depth v := by
  simp only [parse, parseChars, bind, bind_eq_ok_iff] at h
  obtain ⟨⟨u, rest⟩, hread, h⟩ := h
  dsimp only at h
  split at h
  · obtain rfl := Except.ok.inj h
    exact readsPlain_read _ _ _ _ _ hread
  · cases h

/-- Data: what some text spells to a reader with room for it. -/
def Readable (limits : Limits) (v : Json) : Prop :=
  ∃ text, parse limits text = .ok v

/-- Whatever is read from a text is read again from the line it is written on. -/
theorem Readable.parse_line {limits : Limits} {v : Json} (h : v.Readable limits) :
    parse limits v.line = .ok v := by
  obtain ⟨text, htext⟩ := h
  obtain ⟨hplain, hwithin⟩ := plain_of_parse htext
  exact Json.parse_line hplain hwithin

end StaleQuery.Json
