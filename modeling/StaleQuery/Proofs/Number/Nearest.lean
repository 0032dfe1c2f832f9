import Mathlib.Algebra.Order.Field.Rat
import Mathlib.Tactic.FieldSimp
import Mathlib.Tactic.Linarith
import Mathlib.Tactic.NormNum
import Mathlib.Tactic.Positivity
import Mathlib.Tactic.Ring
import StaleQuery.Number.Shortest

/-!
# The shortest decimal reads back

A number of 53 bits is the nearest one to every real of an interval around it. Whatever decimal is
chosen to write it lies in that interval, so the nearest number to the decimal is the number itself.
-/
namespace StaleQuery

namespace Number

theorem zpow_of_neg {base : ℚ} {unit : ℤ} (h : unit < 0) :
    base ^ unit = (base ^ (-unit).toNat)⁻¹ := by
  rw [← zpow_natCast, Int.toNat_of_nonneg (by omega), zpow_neg, inv_inv]

theorem zpow_of_nonneg {base : ℚ} {unit : ℤ} (h : 0 ≤ unit) : base ^ unit = base ^ unit.toNat := by
  rw [← zpow_natCast, Int.toNat_of_nonneg h]

theorem inUnits_pos {base a b : ℕ} (hbase : 0 < base) (hb : 0 < b) (unit : ℤ) :
    0 < (inUnits base a b unit).2 := by
  unfold inUnits
  split
  · exact hb
  · exact Nat.mul_pos hb (Nat.pow_pos hbase)

theorem inUnits_num_pos {base a : ℕ} (hbase : 0 < base) (ha : 0 < a) (b : ℕ) (unit : ℤ) :
    0 < (inUnits base a b unit).1 := by
  unfold inUnits
  split
  · exact Nat.mul_pos ha (Nat.pow_pos hbase)
  · exact ha

theorem inUnits_value {base : ℕ} (hbase : 0 < base) (a b : ℕ) (unit : ℤ) :
    ((inUnits base a b unit).1 : ℚ) / (inUnits base a b unit).2 = a / b / base ^ unit := by
  have hne : (base : ℚ) ≠ 0 := by exact_mod_cast hbase.ne'
  unfold inUnits
  split
  · rename_i hneg
    rw [zpow_of_neg hneg]
    push_cast [Nat.pow_eq]
    field_simp
  · rename_i hneg
    rw [zpow_of_nonneg (by omega)]
    push_cast [Nat.pow_eq]
    field_simp

theorem roundDiv_eq {n d m : ℕ} (hd : 0 < d) (hlow : 2 * m * d ≤ 2 * n + d)
    (hhigh : 2 * n ≤ 2 * m * d + d)
    (htie : m % 2 = 1 → 2 * m * d < 2 * n + d ∧ 2 * n < 2 * m * d + d) : roundDiv n d = m := by
  have hdiv := Nat.div_add_mod n d
  have hmod := Nat.mod_lt n hd
  unfold roundDiv
  dsimp only
  generalize n / d = q at *
  generalize n % d = r at *
  have hle : m ≤ q + 1 := by
    by_contra h
    have : (q + 2) * d ≤ m * d := Nat.mul_le_mul_right d (by omega)
    nlinarith
  have hge : q ≤ m := by
    by_contra h
    have : (m + 1) * d ≤ q * d := Nat.mul_le_mul_right d (by omega)
    nlinarith
  rcases Nat.lt_or_ge q m with hlt | hge'
  · obtain rfl : m = q + 1 := by omega
    have hhalf : d ≤ 2 * r := by nlinarith
    have hstrict : (q + 1) % 2 = 1 → d < 2 * r := fun h => by nlinarith [(htie h).1]
    rw [if_pos]
    simp only [Bool.or_eq_true, Bool.and_eq_true, decide_eq_true_eq, beq_iff_eq]
    omega
  · obtain rfl : m = q := by omega
    have hhalf : 2 * r ≤ d := by nlinarith
    have hstrict : m % 2 = 1 → 2 * r < d := fun h => by nlinarith [(htie h).2]
    rw [if_neg]
    simp only [Bool.or_eq_true, Bool.and_eq_true, decide_eq_true_eq, beq_iff_eq]
    omega

/-- What lies within half a unit of a whole number rounds to it, at the ends if it is even. -/
theorem roundDiv_of_near {n d m : ℕ} (hd : 0 < d) {v : ℚ} (hv : (n : ℚ) / d = v)
    (hlow : m - 1 / 2 ≤ v) (hhigh : v ≤ m + 1 / 2)
    (htie : m % 2 = 1 → m - 1 / 2 < v ∧ v < m + 1 / 2) : roundDiv n d = m := by
  have hpos : (0 : ℚ) < d := by exact_mod_cast hd
  have hn : (n : ℚ) = v * d := by rw [← hv]; field_simp
  have hscale : ∀ a b : ℚ, a ≤ b → a * d ≤ b * d := fun a b h => by gcongr
  have hscale' : ∀ a b : ℚ, a < b → a * d < b * d := fun a b h => by gcongr
  apply roundDiv_eq hd
  · have := hscale _ _ hlow
    have : (2 * m * d : ℚ) ≤ 2 * n + d := by linarith
    exact_mod_cast this
  · have := hscale _ _ hhigh
    have : (2 * n : ℚ) ≤ 2 * m * d + d := by linarith
    exact_mod_cast this
  · intro hodd
    obtain ⟨hlow, hhigh⟩ := htie hodd
    constructor
    · have := hscale' _ _ hlow
      have : (2 * m * d : ℚ) < 2 * n + d := by linarith
      exact_mod_cast this
    · have := hscale' _ _ hhigh
      have : (2 * n : ℚ) < 2 * m * d + d := by linarith
      exact_mod_cast this

theorem roundDiv_le {n d bound : ℕ} (hd : 0 < d) (h : (n : ℚ) / d < bound) :
    roundDiv n d ≤ bound := by
  have hpos : (0 : ℚ) < d := by exact_mod_cast hd
  have hlt : n / d < bound := by
    rw [Nat.div_lt_iff_lt_mul hd]
    rw [div_lt_iff₀ hpos] at h
    exact_mod_cast h
  unfold roundDiv
  dsimp only
  split <;> omega

end Number

namespace Binary64

open StaleQuery.Number

theorem two_zpow_pos (e : ℤ) : (0 : ℚ) < 2 ^ e :=
  zpow_pos (by norm_num) e

theorem two_zpow_succ (e : ℤ) : (2 : ℚ) ^ (e + 1) = 2 * 2 ^ e := by
  rw [zpow_add_one₀ (by norm_num), mul_comm]

/-! The exponent of a number -/

/-- The exponent that a positive real gets: 53 bits are in front of it, unless it is the least. -/
structure Fits (v : ℚ) (e : ℤ) : Prop where
  least : leastExponent ≤ e
  high : v < 2 ^ 53 * 2 ^ e
  full : 2 ^ 52 * 2 ^ e ≤ v ∨ e = leastExponent

theorem Fits.unique {v : ℚ} {e e' : ℤ} (h : Fits v e) (h' : Fits v e') : e = e' := by
  have not_lt : ∀ {a b}, Fits v a → Fits v b → ¬ a < b := by
    intro a b ha hb hlt
    rcases hb.full with hfull | hleast
    · have hpow : (2 : ℚ) ^ (a + 1) ≤ 2 ^ b := zpow_le_zpow_right₀ (by norm_num) (by omega)
      have hhigh := ha.high
      rw [two_zpow_succ] at hpow
      linarith
    · have := ha.least
      omega
  have := not_lt h h'
  have := not_lt h' h
  omega

/-- The exponent that dividing gives. -/
def exponentOf (num den : ℕ) : ℤ :=
  let guess : ℤ := (num.log2 : ℤ) - den.log2 - precision
  max (if (inUnits 2 num den guess).1 / (inUnits 2 num den guess).2 ≥ Nat.pow 2 precision then
    guess + 1 else guess) leastExponent

theorem quotient_bounds {num den : ℕ} (hnum : 0 < num) (hden : 0 < den) :
    (2 : ℚ) ^ 52 * 2 ^ ((num.log2 : ℤ) - den.log2 - precision) ≤ num / den ∧
      (num : ℚ) / den < 2 ^ 54 * 2 ^ ((num.log2 : ℤ) - den.log2 - precision) := by
  have hpos : (0 : ℚ) < den := by exact_mod_cast hden
  have hnumLow : (2 : ℚ) ^ num.log2 ≤ num := by exact_mod_cast Nat.log2_self_le hnum.ne'
  have hnumHigh : (num : ℚ) < 2 * 2 ^ num.log2 := by
    have := @Nat.lt_log2_self num
    rw [pow_succ'] at this
    exact_mod_cast this
  have hdenLow : (2 : ℚ) ^ den.log2 ≤ den := by exact_mod_cast Nat.log2_self_le hden.ne'
  have hdenHigh : (den : ℚ) < 2 * 2 ^ den.log2 := by
    have := @Nat.lt_log2_self den
    rw [pow_succ'] at this
    exact_mod_cast this
  have hguess : (2 : ℚ) ^ ((num.log2 : ℤ) - den.log2 - precision) =
      2 ^ num.log2 / 2 ^ den.log2 / 2 ^ 53 := by
    rw [zpow_sub₀ (by norm_num), zpow_sub₀ (by norm_num), zpow_natCast, zpow_natCast, zpow_natCast]
    rfl
  have hbase : (0 : ℚ) < 2 ^ den.log2 := by positivity
  rw [hguess, le_div_iff₀ hpos, div_lt_iff₀ hpos]
  constructor
  · calc (2 : ℚ) ^ 52 * (2 ^ num.log2 / 2 ^ den.log2 / 2 ^ 53) * den
        ≤ 2 ^ 52 * (2 ^ num.log2 / 2 ^ den.log2 / 2 ^ 53) * (2 * 2 ^ den.log2) := by gcongr
      _ = 2 ^ num.log2 := by field_simp
      _ ≤ num := hnumLow
  · calc (num : ℚ) < 2 * 2 ^ num.log2 := hnumHigh
      _ = 2 ^ 54 * (2 ^ num.log2 / 2 ^ den.log2 / 2 ^ 53) * 2 ^ den.log2 := by field_simp
      _ ≤ 2 ^ 54 * (2 ^ num.log2 / 2 ^ den.log2 / 2 ^ 53) * den := by gcongr

/-- The test on the whole quotient is one on the real number. -/
theorem quotient_ge_iff (num : ℕ) {den : ℕ} (hden : 0 < den) (guess : ℤ) :
    (inUnits 2 num den guess).1 / (inUnits 2 num den guess).2 ≥ Nat.pow 2 precision ↔
      (2 : ℚ) ^ 53 * 2 ^ guess ≤ num / den := by
  have hpos := inUnits_pos (a := num) (by norm_num : 0 < 2) hden guess
  have hunits := inUnits_value (by norm_num : 0 < 2) num den guess
  have hquotient : (2 : ℚ) ^ 53 ≤ (inUnits 2 num den guess).1 / (inUnits 2 num den guess).2 ↔
      2 ^ 53 * (inUnits 2 num den guess).2 ≤ (inUnits 2 num den guess).1 := by
    rw [le_div_iff₀ (by exact_mod_cast hpos)]
    exact_mod_cast Iff.rfl
  push_cast at hunits
  rw [ge_iff_le, Nat.le_div_iff_mul_le hpos, ← le_div_iff₀ (two_zpow_pos guess), ← hunits, hquotient]
  rfl

theorem fits_exponentOf {num den : ℕ} (hnum : 0 < num) (hden : 0 < den) :
    Fits ((num : ℚ) / den) (exponentOf num den) := by
  obtain ⟨hlow, hhigh⟩ := quotient_bounds hnum hden
  have htest := quotient_ge_iff num hden
  unfold exponentOf
  dsimp only
  generalize (num.log2 : ℤ) - den.log2 - precision = guess at *
  -- the guess is right or one too small
  obtain ⟨e, he, helow, hehigh⟩ : ∃ e, (if (inUnits 2 num den guess).1 /
      (inUnits 2 num den guess).2 ≥ Nat.pow 2 precision then guess + 1 else guess) = e ∧
      (2 : ℚ) ^ 52 * 2 ^ e ≤ num / den ∧ (num : ℚ) / den < 2 ^ 53 * 2 ^ e := by
    by_cases hlarge : (2 : ℚ) ^ 53 * 2 ^ guess ≤ num / den
    · refine ⟨guess + 1, if_pos ((htest guess).mpr hlarge), ?_, ?_⟩
      · rw [two_zpow_succ]
        linarith
      · rw [two_zpow_succ]
        linarith
    · exact ⟨guess, if_neg (mt (htest guess).mp hlarge), hlow, lt_of_not_ge hlarge⟩
  rw [he]
  rcases le_total leastExponent e with hle | hle
  · rw [max_eq_left hle]
    exact ⟨hle, hehigh, Or.inl helow⟩
  · rw [max_eq_right hle]
    refine ⟨le_refl _, hehigh.trans_le ?_, Or.inr rfl⟩
    have : (2 : ℚ) ^ e ≤ 2 ^ leastExponent := zpow_le_zpow_right₀ (by norm_num) hle
    linarith

def signed (negative : Bool) (magnitude : ℕ) : ℤ :=
  if negative then -(magnitude : ℤ) else magnitude

@[simp] theorem natAbs_signed (negative : Bool) (magnitude : ℕ) :
    (signed negative magnitude).natAbs = magnitude := by
  cases negative <;> simp [signed]

theorem ofRatio_eq {num den : ℕ} (hnum : 0 < num) (hden : 0 < den) (negative : Bool) {e : ℤ}
    (h : Fits ((num : ℚ) / den) e) : ofRatio negative num den =
      ⟨signed negative (roundDiv (inUnits 2 num den e).1 (inUnits 2 num den e).2), e⟩ := by
  obtain rfl := (fits_exponentOf hnum hden).unique h
  have hzero : ¬ (decide (num = 0) || decide (den = 0)) = true := by
    simp [hnum.ne', hden.ne']
  unfold ofRatio
  rw [if_neg hzero]
  rfl

/-! The interval of a number -/

/-- The form of a positive number with as many bits as there is room for. -/
structure Canonical (m : ℕ) (e : ℤ) : Prop where
  pos : 0 < m
  lt : m < 2 ^ 53
  least : leastExponent ≤ e
  full : 2 ^ 52 ≤ m ∨ e = leastExponent

/-- How far the interval of a number reaches down, in units of its last place. Below a power of two
the numbers are twice as dense. -/
def reach (m : ℕ) (e : ℤ) : ℚ :=
  if m = 2 ^ 52 ∧ leastExponent < e then 1 / 4 else 1 / 2

/-- The reals whose nearest number is `m · 2 ^ e`. The ends belong to the even numbers. -/
structure Rounds (m : ℕ) (e : ℤ) (v : ℚ) : Prop where
  low : (m - reach m e) * 2 ^ e ≤ v
  high : v ≤ (m + 1 / 2) * 2 ^ e
  inside : m % 2 = 1 → (m - reach m e) * 2 ^ e < v ∧ v < (m + 1 / 2) * 2 ^ e

variable {m num den : ℕ} {e : ℤ}

theorem reach_le (m : ℕ) (e : ℤ) : reach m e ≤ 1 / 2 := by
  unfold reach
  split <;> norm_num

theorem reach_pos (m : ℕ) (e : ℤ) : 0 < reach m e := by
  unfold reach
  split <;> norm_num

theorem Rounds.pos (h : Canonical m e) {v : ℚ} (hv : Rounds m e v) : 0 < v := by
  have hm : (1 : ℚ) ≤ m := by exact_mod_cast h.pos
  have hreach := reach_le m e
  have hlow : 0 < ((m : ℚ) - reach m e) * 2 ^ e := mul_pos (by linarith) (two_zpow_pos e)
  exact hlow.trans_le hv.low

/-- The real in units of the last place. -/
theorem Rounds.scaled {v : ℚ} (h : Rounds m e v) : m - reach m e ≤ v / 2 ^ e ∧ v / 2 ^ e ≤ m + 1 / 2 ∧
    (m % 2 = 1 → m - reach m e < v / 2 ^ e ∧ v / 2 ^ e < m + 1 / 2) := by
  have hpos := two_zpow_pos e
  rw [le_div_iff₀ hpos, div_le_iff₀ hpos, lt_div_iff₀ hpos, div_lt_iff₀ hpos]
  exact ⟨h.low, h.high, h.inside⟩

theorem ofRatio_mantissa (hnum : 0 < num) (hden : 0 < den) (negative : Bool)
    (hfits : Fits ((num : ℚ) / den) e) (hlow : (m : ℚ) - 1 / 2 ≤ num / den / 2 ^ e)
    (hhigh : (num : ℚ) / den / 2 ^ e ≤ m + 1 / 2)
    (htie : m % 2 = 1 → (m : ℚ) - 1 / 2 < num / den / 2 ^ e ∧ (num : ℚ) / den / 2 ^ e < m + 1 / 2) :
    ofRatio negative num den = ⟨signed negative m, e⟩ := by
  have hround : roundDiv (inUnits 2 num den e).1 (inUnits 2 num den e).2 = m :=
    roundDiv_of_near (inUnits_pos (by norm_num) hden e) (inUnits_value (by norm_num) num den e)
      hlow hhigh htie
  rw [ofRatio_eq hnum hden negative hfits, hround]

/-- Just below a power of two a number is rounded up to it with one bit too many. -/
theorem ofRatio_below_power (hnum : 0 < num) (hden : 0 < den) (negative : Bool)
    (hleast : leastExponent < e) (hlow : (2 : ℚ) ^ 52 - 1 / 4 ≤ num / den / 2 ^ e)
    (hhigh : (num : ℚ) / den / 2 ^ e < 2 ^ 52) :
    ofRatio negative num den = ⟨signed negative (2 ^ 53), e - 1⟩ := by
  have hpow := two_zpow_pos (e - 1)
  have hunit : (2 : ℚ) ^ e = 2 * 2 ^ (e - 1) := by rw [← two_zpow_succ, sub_add_cancel]
  have hdouble : (num : ℚ) / den / 2 ^ (e - 1) = 2 * (num / den / 2 ^ e) := by
    rw [hunit]
    field_simp
  apply ofRatio_mantissa hnum hden negative
  · constructor
    · omega
    · rw [← div_lt_iff₀ hpow, hdouble]
      linarith
    · left
      rw [← le_div_iff₀ hpow, hdouble]
      linarith
  · rw [hdouble]
    push_cast
    linarith
  · rw [hdouble]
    push_cast
    linarith
  · intro hodd
    norm_num at hodd

/-- The nearest number to a real of the interval is the one that the interval belongs to. -/
theorem ofRatio_of_rounds (hnum : 0 < num) (hden : 0 < den) (negative : Bool) (hc : Canonical m e)
    (h : Rounds m e ((num : ℚ) / den)) :
    ofRatio negative num den = ⟨signed negative m, e⟩ ∨
      (m = 2 ^ 52 ∧ leastExponent < e ∧
        ofRatio negative num den = ⟨signed negative (2 ^ 53), e - 1⟩) := by
  obtain ⟨hlow, hhigh, hinside⟩ := h.scaled
  have hpow := two_zpow_pos e
  have hreach := reach_le m e
  by_cases hfull : 2 ^ 52 * 2 ^ e ≤ (num : ℚ) / den ∨ e = leastExponent
  · left
    have hm : (m : ℚ) + 1 ≤ 2 ^ 53 := by exact_mod_cast hc.lt
    refine ofRatio_mantissa hnum hden negative ⟨hc.least, ?_, hfull⟩ (by linarith) hhigh ?_
    · rw [← div_lt_iff₀ hpow]
      linarith
    · intro hodd
      obtain ⟨hlow, hhigh⟩ := hinside hodd
      exact ⟨by linarith, hhigh⟩
  · right
    obtain ⟨hbelow, hne⟩ := not_or.mp hfull
    have hleast : leastExponent < e := lt_of_le_of_ne hc.least (Ne.symm hne)
    have hbelow : (num : ℚ) / den / 2 ^ e < 2 ^ 52 := by
      rw [div_lt_iff₀ hpow]
      exact lt_of_not_ge hbelow
    -- only the least mantissa of 53 bits reaches below its power of two
    have hpower : m = 2 ^ 52 := by
      have hfloor : 2 ^ 52 ≤ m := hc.full.resolve_right hne
      have hceiling : (m : ℚ) < 2 ^ 52 + 1 := by linarith
      have : m < 2 ^ 52 + 1 := by exact_mod_cast hceiling
      omega
    have hquarter : reach m e = 1 / 4 := if_pos ⟨hpower, hleast⟩
    rw [hquarter, hpower] at hlow
    push_cast at hlow
    exact ⟨hpower, hleast, ofRatio_below_power hnum hden negative hleast hlow hbelow⟩

/-! The decimal that is written -/

def Decimal.value (d : Decimal) : ℚ :=
  d.digits * 10 ^ d.exponent

theorem ratio_pos (m : ℕ) (e : ℤ) : 0 < (ratio m e).2 :=
  inUnits_pos (by norm_num) (by norm_num) _

theorem ratio_value (m : ℕ) (e : ℤ) : ((ratio m e).1 : ℚ) / (ratio m e).2 = m * 2 ^ e := by
  have h := inUnits_value (by norm_num : 0 < 2) m 1 (-e)
  rw [ratio, h, zpow_neg]
  push_cast
  field_simp

theorem decimal_value (digits : ℕ) (unit : ℤ) :
    ((inUnits 10 digits 1 (-unit)).1 : ℚ) / (inUnits 10 digits 1 (-unit)).2 = digits * 10 ^ unit := by
  rw [inUnits_value (by norm_num), zpow_neg]
  push_cast
  field_simp

theorem mul_le_mul_iff_div_le_div {a b c d : ℕ} (hb : 0 < b) (hd : 0 < d) :
    a * d ≤ c * b ↔ (a : ℚ) / b ≤ c / d := by
  rw [div_le_div_iff₀ (by exact_mod_cast hb) (by exact_mod_cast hd)]
  exact_mod_cast Iff.rfl

theorem mul_lt_mul_iff_div_lt_div {a b c d : ℕ} (hb : 0 < b) (hd : 0 < d) :
    a * d < c * b ↔ (a : ℚ) / b < c / d := by
  rw [div_lt_div_iff₀ (by exact_mod_cast hb) (by exact_mod_cast hd)]
  exact_mod_cast Iff.rfl

/-- The test that a decimal passes before it is written is one on the interval. -/
theorem rounds_of_readsBack (hm : 0 < m) {digits : ℕ} {unit : ℤ}
    (h : readsBack m e digits unit = true) : Rounds m e (digits * 10 ^ unit) := by
  have hpos : 0 < (inUnits 10 digits 1 (-unit)).2 := inUnits_pos (by norm_num) (by norm_num) _
  have hquarter : (2 : ℚ) ^ e = 4 * 2 ^ (e - 2) := by
    rw [zpow_sub₀ (by norm_num)]
    norm_num
    ring
  -- the ends in quarters of the last place
  obtain ⟨lower, hlower, hle, hreach⟩ : ∃ lower : ℕ, (if (decide (m = Nat.pow 2 (precision - 1)) &&
      decide (e > leastExponent)) = true then 1 else 2) = lower ∧ lower ≤ 2 ∧
      reach m e = lower / 4 := by
    by_cases hpower : m = 2 ^ 52 ∧ leastExponent < e
    · refine ⟨1, if_pos ?_, by norm_num, ?_⟩
      · rw [Bool.and_eq_true, decide_eq_true_eq, decide_eq_true_eq]
        exact hpower
      · rw [reach, if_pos hpower]
        norm_num
    · refine ⟨2, if_neg ?_, by norm_num, ?_⟩
      · rw [Bool.and_eq_true, decide_eq_true_eq, decide_eq_true_eq]
        exact hpower
      · rw [reach, if_neg hpower]
        norm_num
  have hlow : ((4 * m - lower : ℕ) : ℚ) * 2 ^ (e - 2) = (m - reach m e) * 2 ^ e := by
    rw [Nat.cast_sub (by omega), hquarter, hreach]
    push_cast
    ring
  have hhigh : ((4 * m + 2 : ℕ) : ℚ) * 2 ^ (e - 2) = (m + 1 / 2) * 2 ^ e := by
    rw [hquarter]
    push_cast
    ring
  simp only [readsBack, hlower] at h
  split at h
  · rename_i heven
    rw [beq_iff_eq] at heven
    rw [Bool.and_eq_true, decide_eq_true_eq, decide_eq_true_eq,
      mul_le_mul_iff_div_le_div (ratio_pos _ _) hpos, mul_le_mul_iff_div_le_div hpos (ratio_pos _ _),
      decimal_value, ratio_value, ratio_value, hlow, hhigh] at h
    exact ⟨h.1, h.2, fun hodd => by omega⟩
  · rw [Bool.and_eq_true, decide_eq_true_eq, decide_eq_true_eq,
      mul_lt_mul_iff_div_lt_div (ratio_pos _ _) hpos, mul_lt_mul_iff_div_lt_div hpos (ratio_pos _ _),
      decimal_value, ratio_value, ratio_value, hlow, hhigh] at h
    exact ⟨h.1.le, h.2.le, fun _ => h⟩

theorem rounds_of_onGrid? (hm : 0 < m) {unit : ℤ} {d : Decimal} (h : onGrid? m e unit = some d) :
    Rounds m e d.value := by
  unfold onGrid? at h
  dsimp only at h
  generalize (inUnits 10 (ratio m e).1 (ratio m e).2 unit).1 = n at h
  generalize (inUnits 10 (ratio m e).1 (ratio m e).2 unit).2 = k at h
  generalize (if roundDiv n k = n / k then n / k + 1 else n / k) = other at h
  split at h
  · obtain rfl := Option.some.inj h
    exact rounds_of_readsBack hm ‹_›
  · split at h
    · obtain rfl := Option.some.inj h
      exact rounds_of_readsBack hm ‹_›
    · cases h

theorem exactDecimal_value (m : ℕ) (e : ℤ) : (exactDecimal m e).value = m * 2 ^ e := by
  unfold exactDecimal Decimal.value
  split
  · rename_i hneg
    have hten : ((10 : ℚ) ^ (-e).toNat) = 5 ^ (-e).toNat * 2 ^ (-e).toNat := by
      rw [← mul_pow]
      norm_num
    rw [zpow_of_neg hneg, zpow_of_neg hneg, hten]
    push_cast [Nat.pow_eq]
    field_simp
  · rename_i hneg
    have hpow : (2 : ℚ) ^ e = 2 ^ e.toNat := zpow_of_nonneg (by omega)
    rw [hpow]
    push_cast [Nat.pow_eq]
    norm_num

theorem rounds_self (m : ℕ) (e : ℤ) : Rounds m e (m * 2 ^ e) := by
  have hpow := two_zpow_pos e
  have hlow : ((m : ℚ) - reach m e) * 2 ^ e < m * 2 ^ e := by
    have := reach_pos m e
    gcongr
    linarith
  have hhigh : (m : ℚ) * 2 ^ e < (m + 1 / 2) * 2 ^ e := by
    gcongr
    linarith
  exact ⟨hlow.le, hhigh.le, fun _ => ⟨hlow, hhigh⟩⟩

theorem rounds_shortestPositive (hm : 0 < m) (e : ℤ) : Rounds m e (shortestPositive m e).value := by
  unfold shortestPositive
  dsimp only
  generalize List.map _ (List.range 17) = grids
  cases hfind : grids.findSome? (onGrid? m e) with
  | none =>
    rw [Option.getD_none, exactDecimal_value]
    exact rounds_self m e
  | some d =>
    obtain ⟨unit, -, hunit⟩ := List.exists_of_findSome?_eq_some hfind
    exact rounds_of_onGrid? hm hunit

theorem Decimal.value_trimmed (fuel : ℕ) (d : Decimal) : (d.trimmed fuel).value = d.value := by
  induction fuel generalizing d with
  | zero => rfl
  | succ fuel ih =>
    rw [trimmed]
    split
    · rename_i h
      rw [ih, value, value]
      have hdigits : (d.digits : ℚ) = (d.digits / 10 : ℕ) * 10 := by
        have : d.digits = d.digits / 10 * 10 := by omega
        exact_mod_cast this
      rw [hdigits, zpow_add_one₀ (by norm_num)]
      ring
    · rfl

/-! One form for a number -/

theorem bitLength_le_iff {n bits : ℕ} : bitLength n ≤ bits ↔ n < 2 ^ bits := by
  unfold bitLength
  split
  · rename_i hzero
    simp [hzero]
  · rename_i hne
    rw [Nat.succ_le_iff, Nat.log2_lt hne]

theorem bitLength_mul_two_pow {n : ℕ} (h : n ≠ 0) (k : ℕ) :
    bitLength (n * 2 ^ k) = bitLength n + k := by
  induction k with
  | zero => simp
  | succ k ih =>
    have hne : n * 2 ^ k ≠ 0 := mul_ne_zero h (by positivity)
    have hdouble : n * 2 ^ (k + 1) = 2 * (n * 2 ^ k) := by ring
    rw [hdouble, bitLength, if_neg (mul_ne_zero (by norm_num) hne), Nat.log2_two_mul hne,
      ← Nat.add_assoc, ← ih, bitLength, if_neg hne]

theorem signed_mul (negative : Bool) (magnitude factor : ℕ) :
    signed negative magnitude * factor = signed negative (magnitude * factor) := by
  cases negative <;> simp [signed]

theorem normalize_carry (negative : Bool) (e : ℤ) :
    normalize ⟨signed negative (2 ^ 53), e - 1⟩ = ⟨signed negative (2 ^ 52), e⟩ := by
  have hbits : precision < bitLength (2 ^ 53) := by decide
  simp only [normalize, natAbs_signed, if_pos hbits, sub_add_cancel]
  cases negative <;> rfl

theorem normalize_signed (negative : Bool) (hm : 0 < m) (hle : m ≤ 2 ^ 53)
    (he : leastExponent ≤ e) : ∃ m' e', Canonical m' e' ∧
      normalize ⟨signed negative m, e⟩ = ⟨signed negative m', e'⟩ ∧
      (bitLength m' : ℤ) + e' = bitLength m + e := by
  rcases Nat.lt_or_eq_of_le hle with hlt | rfl
  · have hbits : bitLength m ≤ 53 := bitLength_le_iff.mpr hlt
    obtain ⟨room, hroom⟩ : ∃ room, min (precision - bitLength m) (e - leastExponent).toNat = room :=
      ⟨_, rfl⟩
    have hlength := bitLength_mul_two_pow hm.ne' room
    have hprecision : precision = 53 := rfl
    refine ⟨m * 2 ^ room, e - room, ⟨by positivity, ?_, by omega, ?_⟩, ?_, by omega⟩
    · rw [← bitLength_le_iff, hlength]
      omega
    · rcases min_choice (precision - bitLength m) (e - leastExponent).toNat with hmin | hmin
      · left
        by_contra hsmall
        have := bitLength_le_iff.mpr (lt_of_not_ge hsmall)
        omega
      · right
        omega
    · simp only [normalize, natAbs_signed, hroom]
      rw [if_neg (by omega), Nat.pow_eq, signed_mul]
  · refine ⟨2 ^ 52, e + 1, ⟨by norm_num, by norm_num, by omega, Or.inl le_rfl⟩, ?_, ?_⟩
    · have hcarry := normalize_carry negative (e + 1)
      rwa [add_sub_cancel_right] at hcarry
    · have hlow : bitLength (2 ^ 52) = 53 := by decide
      have hhigh : bitLength (2 ^ 53) = 54 := by decide
      omega

theorem normalize_canonical (negative : Bool) (h : Canonical m e) :
    normalize ⟨signed negative m, e⟩ = ⟨signed negative m, e⟩ := by
  have hbits : bitLength m ≤ 53 := bitLength_le_iff.mpr h.lt
  have hprecision : precision = 53 := rfl
  have hroom : min (precision - bitLength m) (e - leastExponent).toNat = 0 := by
    rcases h.full with hfull | hleast
    · have : ¬ bitLength m ≤ 52 := fun hle => absurd (bitLength_le_iff.mp hle) (not_lt.mpr hfull)
      omega
    · omega
  simp only [normalize, natAbs_signed, hroom]
  rw [if_neg (by omega)]
  simp

def sign (negative : Bool) : String :=
  if negative then "-" else ""

theorem text_signed (negative : Bool) {m' : ℕ} {e' : ℤ} (hm : 0 < m)
    (hnormal : normalize ⟨signed negative m, e⟩ = ⟨signed negative m', e'⟩)
    (hfits : overflows ⟨signed negative m, e⟩ = false) :
    text negative ⟨signed negative m, e⟩ =
      sign negative ++ ((shortestPositive m' e').trimmed 20).text := by
  have hne : signed negative m ≠ 0 := by
    rw [← Int.natAbs_ne_zero, natAbs_signed]
    exact hm.ne'
  have hsign : (if signed negative m < 0 then "-" else "") = sign negative := by
    cases negative
    · exact if_neg (by simp [signed])
    · exact if_pos (by simpa [signed] using hm)
  simp only [text, if_neg hne, hsign, hfits, hnormal, natAbs_signed]
  simp

/-- A form that is not out of range. -/
structure Finite (m : ℕ) (e : ℤ) : Prop extends Canonical m e where
  bounded : (bitLength m : ℤ) + e ≤ 1024

theorem overflows_signed (negative : Bool) :
    overflows ⟨signed negative m, e⟩ = false ↔ (bitLength m : ℤ) + e ≤ 1024 := by
  rw [overflows, natAbs_signed, decide_eq_false_iff_not, not_lt]

/-- Whatever is not too small and not too large is written in its one form. -/
theorem ofRatio_cases (negative : Bool) (hnum : 0 < num) (hden : 0 < den) :
    (ofRatio negative num den).mantissa = 0 ∨ (ofRatio negative num den).overflows = true ∨
      ∃ m e, Finite m e ∧ (ofRatio negative num den).text negative =
        sign negative ++ ((shortestPositive m e).trimmed 20).text := by
  obtain ⟨e, hfits⟩ : ∃ e, Fits ((num : ℚ) / den) e := ⟨_, fits_exponentOf hnum hden⟩
  rw [ofRatio_eq hnum hden negative hfits]
  have hle : roundDiv (inUnits 2 num den e).1 (inUnits 2 num den e).2 ≤ 2 ^ 53 := by
    apply roundDiv_le (inUnits_pos (by norm_num) hden e)
    rw [inUnits_value (by norm_num), div_lt_iff₀ (by exact_mod_cast two_zpow_pos e)]
    exact_mod_cast hfits.high
  generalize roundDiv (inUnits 2 num den e).1 (inUnits 2 num den e).2 = m at *
  rcases Nat.eq_zero_or_pos m with rfl | hm
  · left
    cases negative <;> rfl
  · right
    cases hoverflow : overflows ⟨signed negative m, e⟩ with
    | true => exact Or.inl rfl
    | false =>
      obtain ⟨m', e', hcanonical, hnormal, hbits⟩ := normalize_signed negative hm hle hfits.least
      have hbounded := (overflows_signed negative).mp hoverflow
      exact Or.inr ⟨m', e', ⟨hcanonical, hbits ▸ hbounded⟩,
        text_signed negative hm hnormal hoverflow⟩

/-- A real of its interval is written as the number is. -/
theorem text_ofRatio_of_rounds (negative : Bool) (hnum : 0 < num) (hden : 0 < den) (h : Finite m e)
    (hv : Rounds m e ((num : ℚ) / den)) : (ofRatio negative num den).overflows = false ∧
      (ofRatio negative num den).text negative =
        sign negative ++ ((shortestPositive m e).trimmed 20).text := by
  rcases ofRatio_of_rounds hnum hden negative h.toCanonical hv with heq | ⟨rfl, -, heq⟩
  · have hoverflow := (overflows_signed negative).mpr h.bounded
    rw [heq]
    exact ⟨hoverflow, text_signed negative h.pos (normalize_canonical negative h.toCanonical) hoverflow⟩
  · have hoverflow : overflows ⟨signed negative (2 ^ 53), e - 1⟩ = false := by
      have hbounded := h.bounded
      have hlow : bitLength (2 ^ 52) = 53 := by decide
      have hhigh : bitLength (2 ^ 53) = 54 := by decide
      rw [overflows_signed]
      omega
    rw [heq]
    exact ⟨hoverflow, text_signed negative (by norm_num) (normalize_carry negative e) hoverflow⟩

theorem Rounds.bounds (h : Finite m e) {v : ℚ} (hv : Rounds m e v) :
    (10 : ℚ) ^ (-400 : ℤ) < v ∧ v < 10 ^ (400 : ℤ) := by
  have hpow := two_zpow_pos e
  have hm : (1 : ℚ) ≤ m := by exact_mod_cast h.pos
  have hrange : (2 : ℚ) ^ 1075 < 10 ^ 400 := by
    calc (2 : ℚ) ^ 1075 = (2 ^ 43) ^ 25 := by rw [← pow_mul]
      _ < (10 ^ 16) ^ 25 := by gcongr; norm_num
      _ = 10 ^ 400 := by rw [← pow_mul]
  constructor
  · have hleast : (2 : ℚ) ^ leastExponent ≤ 2 ^ e := zpow_le_zpow_right₀ (by norm_num) h.least
    have htiny : (10 : ℚ) ^ (-400 : ℤ) < 1 / 2 * 2 ^ leastExponent := by
      calc (10 : ℚ) ^ (-400 : ℤ) = (10 ^ 400)⁻¹ := by rw [zpow_neg]; rfl
        _ < (2 ^ 1075)⁻¹ := by gcongr
        _ = 1 / 2 * (2 ^ 1074)⁻¹ := by rw [pow_succ]; field_simp
        _ = 1 / 2 * 2 ^ leastExponent := by rw [leastExponent, zpow_neg]; rfl
    have hreach := reach_le m e
    calc (10 : ℚ) ^ (-400 : ℤ) < 1 / 2 * 2 ^ leastExponent := htiny
      _ ≤ 1 / 2 * 2 ^ e := by gcongr
      _ ≤ (m - reach m e) * 2 ^ e := by gcongr; linarith
      _ ≤ v := hv.low
  · have hlength : (m : ℚ) ≤ 2 ^ (bitLength m : ℤ) := by
      rw [zpow_natCast]
      exact_mod_cast (bitLength_le_iff.mp le_rfl).le
    have hlarge : (2 : ℚ) ^ (bitLength m + e) ≤ 2 ^ (1024 : ℤ) :=
      zpow_le_zpow_right₀ (by norm_num) h.bounded
    have hhuge : 2 * (2 : ℚ) ^ (1024 : ℤ) < 10 ^ (400 : ℤ) := by
      calc 2 * (2 : ℚ) ^ (1024 : ℤ) = 2 ^ 1025 := by rw [pow_succ']; rfl
        _ ≤ 2 ^ 1075 := pow_le_pow_right₀ (by norm_num) (by norm_num)
        _ < 10 ^ 400 := hrange
    calc v ≤ (m + 1 / 2) * 2 ^ e := hv.high
      _ ≤ 2 * m * 2 ^ e := by gcongr; linarith
      _ ≤ 2 * 2 ^ (bitLength m : ℤ) * 2 ^ e := by gcongr
      _ = 2 * 2 ^ (bitLength m + e) := by rw [zpow_add₀ (by norm_num)]; ring
      _ ≤ 2 * 2 ^ (1024 : ℤ) := by gcongr
      _ < 10 ^ (400 : ℤ) := hhuge

end Binary64
end StaleQuery
