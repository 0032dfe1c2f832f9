import StaleQuery.Cache.Key
import StaleQuery.Proofs.Json.RoundTrip

/-!
# What a key tells

A key puts a version, a time and a size together with colons between them. The version may hold
colons of its own, but the numbers do not, so each of the three can be told from the key.
-/
namespace StaleQuery

theorem append_cons_inj_of_notMem {α : Type} {a a' b b' : List α} {c : α} (hb : c ∉ b) (hb' : c ∉ b')
    (h : a ++ c :: b = a' ++ c :: b') : a = a' ∧ b = b' := by
  -- a longer first part would reach over the mark into the second
  have short : ∀ {m b b' : List α}, c ∉ b → c :: b = m ++ c :: b' → m = [] ∧ b = b' := by
    intro m b b' hb h
    cases m with
    | nil => exact ⟨rfl, (List.cons.inj h).2⟩
    | cons d m =>
      refine absurd ?_ hb
      rw [(List.cons.inj h).2]
      simp
  rcases List.append_eq_append_iff.mp h with ⟨m, rfl, hm⟩ | ⟨m, rfl, hm⟩
  · obtain ⟨rfl, rfl⟩ := short hb hm
    simp
  · obtain ⟨rfl, rfl⟩ := short hb' hm
    simp

theorem colon_notMem_toDigits (n : Nat) : ':' ∉ Nat.toDigits 10 n := fun h => by
  have hdigit := Json.isDigit_of_mem_toDigits h
  cases hdigit

theorem toDigits_injective {m n : Nat} (h : Nat.toDigits 10 m = Nat.toDigits 10 n) : m = n := by
  rw [← Json.natOfDigits_toDigits m, h, Json.natOfDigits_toDigits]

namespace Binary64

theorem colon_notMem_decimal (d : Decimal) : ':' ∉ d.text.toList := by
  have hdigits := colon_notMem_toDigits d.digits
  have htake : ∀ k, ':' ∉ (Nat.toDigits 10 d.digits).take k := fun k h =>
    hdigits (List.mem_of_mem_take h)
  have hdrop : ∀ k, ':' ∉ (Nat.toDigits 10 d.digits).drop k := fun k h =>
    hdigits (List.mem_of_mem_drop h)
  unfold Decimal.text
  dsimp only
  split
  · split
    · simp [hdigits]
    · rw [String.toList_ofList]
      split <;> simp [htake, hdrop]
  · rw [String.toList_ofList]
    have hexponent := colon_notMem_toDigits
      ((Nat.toDigits 10 d.digits).length + d.exponent - 1).natAbs
    have hmark : ∀ (c : Prop) [Decidable c], ':' ≠ if c then '-' else '+' := fun c _ => by
      split <;> decide
    have htail := hdrop 1
    rw [List.drop_one] at htail
    split <;> simp [htake, htail, hexponent, hmark]

theorem colon_notMem_text (x : Binary64) : ':' ∉ (x.text false).toList := by
  have hsign : ':' ∉ (if x.mantissa < 0 then "-" else "").toList := by split <;> decide
  unfold text
  dsimp only
  split
  · decide
  · split
    · rw [String.toList_append, List.mem_append, not_or]
      exact ⟨hsign, by decide⟩
    · rw [String.toList_append, List.mem_append, not_or]
      exact ⟨hsign, colon_notMem_decimal _⟩

end Binary64

/-- Equal keys stand for equal versions, printed times and sizes. -/
theorem Entry.cacheKey_inj {e f : Entry} {v w : String} (h : e.cacheKey v = f.cacheKey w) :
    v = w ∧ e.modified.text = f.modified.text ∧ e.size = f.size := by
  have hkey : ∀ (e : Entry) (v : String), (e.cacheKey v).toList =
      (v.toList ++ ':' :: e.modified.text.toList) ++ ':' :: Nat.toDigits 10 e.size := by
    intro e v
    simp [Entry.cacheKey]
  have hlists := congrArg String.toList h
  rw [hkey, hkey] at hlists
  obtain ⟨hfirst, hsize⟩ := append_cons_inj_of_notMem (colon_notMem_toDigits _)
    (colon_notMem_toDigits _) hlists
  obtain ⟨hversion, htime⟩ := append_cons_inj_of_notMem (Binary64.colon_notMem_text _)
    (Binary64.colon_notMem_text _) hfirst
  exact ⟨String.toList_inj.mp hversion, String.toList_inj.mp htime, toDigits_injective hsize⟩

end StaleQuery
