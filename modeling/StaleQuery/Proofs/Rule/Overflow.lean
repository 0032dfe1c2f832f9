import StaleQuery.Proofs.Model.Depth
import StaleQuery.Proofs.Rule.SilentPass

/-!
# Registrations that are too deep

A limit on depth makes a check fail closed: what it cuts short is reported, so a lower limit reports
every call site that a higher one does. A call site that fits its limit is answered as if there were
no limit, however deep the tree around it.
-/
namespace StaleQuery

namespace Rule

variable (rule : Rule)

/-- The value that a check of the call searches, where the call has a callback. -/
def searchedValue? (n : Node) : Option Node :=
  match n.options? with
  | .ok (some properties) =>
    match rule.callback? properties with
    | .ok (some (_, value)) => some value
    | _ => none
  | _ => none

/-- The limit cuts short neither lowering the call nor searching its callback. -/
def Fits (limit : Nat) (s : Tree) : Prop :=
  ∃ n, s.lowerCallSite limit = some n ∧ ∀ value, rule.searchedValue? n = some value →
    search rule.operation limit value [] ≠ .tooDeep

/-- The answer for a call with no limit at all, which is the answer under any limit that it fits. -/
def Unlimited (s : Tree) (answer : Option (Span × Reason)) : Prop :=
  ∃ limit, rule.Fits limit s ∧ rule.checkCallSite limit s = .ok answer

variable {rule} {limit limit' : Nat} {filePath : String} {s : Tree} {n : Node}

/-- A check depends on its limit through the search of one value alone. -/
theorem check_congr (h : ∀ value, rule.searchedValue? n = some value →
    isReachable limit' rule.operation value = isReachable limit rule.operation value) :
    rule.check limit' n = rule.check limit n := by
  simp only [check, bind, Except.bind]
  cases rule.isRegistration n with
  | error => rfl
  | ok registration =>
    cases hoptions : n.options? with
    | error => rfl
    | ok options =>
      cases options with
      | none => rfl
      | some properties =>
        cases hfound : rule.callback? properties with
        | error => simp only [hfound]
        | ok found =>
          cases found with
          | none => simp only [hfound]
          | some entry =>
            have hvalue := h entry.2 (by simp [searchedValue?, hoptions, hfound])
            simp only [hfound, hvalue]

theorem check_eq_none_iff : rule.check limit n = .ok none ↔
    rule.isRegistration n = .ok false ∨ rule.isRegistration n = .ok true ∧
      ∃ value, rule.searchedValue? n = some value ∧
        isReachable limit rule.operation value = .ok true := by
  simp only [check, searchedValue?, bind, Except.bind, pure, Except.pure]
  cases rule.isRegistration n with
  | error => simp
  | ok registration =>
    cases registration with
    | false => simp
    | true =>
      cases n.options? with
      | error => simp
      | ok options =>
        cases options with
        | none => simp
        | some properties =>
          cases hfound : rule.callback? properties with
          | error => simp [hfound]
          | ok found =>
            cases found with
            | none => simp [hfound]
            | some entry =>
              cases hreach : isReachable limit rule.operation entry.2 with
              | error => simp [hfound, hreach]
              | ok answer => cases answer <;> simp [hfound, hreach]

theorem checkCallSite_eq_none_iff : rule.checkCallSite limit s = .ok none ↔
    ∃ n, s.lowerCallSite limit = some n ∧
      ((∀ callee arguments span, n ≠ .call callee arguments span) ∨
        rule.check limit n = .ok none) := by
  simp only [checkCallSite, bind, Except.bind, pure, Except.pure]
  cases s.lowerCallSite limit with
  | none => simp
  | some n =>
    cases n with
    | call callee arguments span =>
      cases hcheck : rule.check limit (.call callee arguments span) with
      | error => simp [hcheck]
      | ok finding =>
        cases finding with
        | none => simp [hcheck]
        | some finding => cases hspan : finding.anchor.span? <;> simp [hcheck, hspan]
    | _ => simp

/-- What stays unreported under a limit stays so under every higher one. -/
theorem checkCallSite_quiet_mono (h : limit ≤ limit') (hq : rule.checkCallSite limit s = .ok none) :
    rule.checkCallSite limit' s = .ok none := by
  obtain ⟨n, hn, hquiet⟩ := checkCallSite_eq_none_iff.mp hq
  refine checkCallSite_eq_none_iff.mpr ⟨n, Tree.lowerCallSite_mono h hn, ?_⟩
  rcases hquiet with hno | hcheck
  · exact Or.inl hno
  refine Or.inr (check_eq_none_iff.mpr ?_)
  rcases check_eq_none_iff.mp hcheck with hother | ⟨hhook, value, hvalue, hreach⟩
  · exact Or.inl hother
  · have hfound := isReachable_eq_true_iff.mp hreach
    have hsame := search_mono h (by simp [hfound] : search rule.operation limit value [] ≠ .tooDeep)
    exact Or.inr ⟨hhook, value, hvalue, isReachable_eq_true_iff.mpr (hsame.trans hfound)⟩

theorem Fits.checkCallSite_eq (hs : rule.Fits limit s) (h : limit ≤ limit') :
    rule.checkCallSite limit' s = rule.checkCallSite limit s := by
  obtain ⟨n, hn, hsearch⟩ := hs
  have hcheck : rule.check limit' n = rule.check limit n := by
    apply check_congr
    intro value hvalue
    simp only [isReachable, search_mono h (hsearch value hvalue)]
  simp only [checkCallSite, hn, Tree.lowerCallSite_mono h hn]
  cases n with
  | call callee arguments span => simp only [hcheck]
  | _ => rfl

/-- Every call fits all limits from some limit on. -/
theorem exists_fits (rule : Rule) (s : Tree) : ∃ bound, ∀ limit, bound ≤ limit → rule.Fits limit s := by
  obtain ⟨n, hn⟩ := Tree.lowerCallSite_of_size_le (Nat.le_refl s.size)
  cases hvalue : rule.searchedValue? n with
  | none =>
    refine ⟨s.size, fun limit hlimit => ⟨n, Tree.lowerCallSite_mono hlimit hn, ?_⟩⟩
    simp [hvalue]
  | some value =>
    refine ⟨max s.size (sizeOf value), fun limit hlimit => ⟨n, ?_, fun v hv => ?_⟩⟩
    · exact Tree.lowerCallSite_mono (by omega) hn
    · obtain rfl : value = v := Option.some.inj (hvalue.symm.trans hv)
      exact search_ne_tooDeep (Node.within_of_sizeOf_le (by omega)) []

theorem own_eq_nil_iff (hk : s.kind = "call_expression") (hh : rule.namesHook s = true) :
    rule.own limit filePath s = [] ↔ rule.checkCallSite limit s = .ok none := by
  obtain ⟨answer, ha⟩ := rule.checkCallSite_ok limit s
  rw [own_of_site hk hh ha, ha]
  cases answer <;> simp

end Rule

open Rule in
/-- Checking a tree never stops short, whatever the limit. A call of the hook that is too deep to
lower gives one report, which points at the call; whoever is reported under a limit, or with none at
all, is reported under every lower limit; and a call that fits its limit gets the answer that it gets
with no limit. -/
theorem overflow_fails_closed (rule : Rule) (filePath : String) (t : Tree) :
    (∀ limit, rule.checkTree limit filePath t =
      .ok (t.occurrences.flatMap fun o => rule.own limit filePath o.2)) ∧
    ∀ p s, t.at? p = some s → s.kind = "call_expression" → rule.namesHook s = true →
      (∀ limit, s.lowerCallSite limit = none →
        rule.own limit filePath s = [⟨filePath, s.span, .notInvalidated⟩]) ∧
      (∀ limit limit', limit ≤ limit' → rule.own limit' filePath s ≠ [] →
        rule.own limit filePath s ≠ []) ∧
      ∃ answer, rule.Unlimited s answer ∧ (∀ other, rule.Unlimited s other → other = answer) ∧
        (answer ≠ none → ∀ limit, rule.own limit filePath s ≠ []) ∧
        ∀ limit, rule.Fits limit s → rule.own limit filePath s =
          answer.toList.map fun found => ⟨filePath, found.1, found.2⟩ := by
  refine ⟨fun limit => ?_, fun p s _ hk hh => ⟨fun limit hdeep => ?_, fun limit limit' h hr => ?_, ?_⟩⟩
  · rw [checkTree_eq_ok, listing, Tree.gather_eq_occurrences]
  · have hanswer : rule.checkCallSite limit s = .ok (some (s.span, .notInvalidated)) := by
      simp [checkCallSite, hdeep]
    rw [own_of_site hk hh hanswer]
    rfl
  · rw [ne_eq, own_eq_nil_iff hk hh] at hr ⊢
    exact fun hq => hr (checkCallSite_quiet_mono h hq)
  · obtain ⟨bound, hbound⟩ := rule.exists_fits s
    have hfits := hbound bound (Nat.le_refl bound)
    obtain ⟨answer, hanswer⟩ := rule.checkCallSite_ok bound s
    -- two limits that the call fits are compared at the higher one
    have same : ∀ limit, rule.Fits limit s → rule.checkCallSite limit s = .ok answer := by
      intro limit hlimit
      rw [← hlimit.checkCallSite_eq (Nat.le_max_left limit bound), ← hanswer]
      exact hfits.checkCallSite_eq (Nat.le_max_right limit bound)
    refine ⟨answer, ⟨bound, hfits, hanswer⟩, ?_, fun hne limit => ?_, fun limit hlimit => ?_⟩
    · rintro other ⟨limit, hlimit, hother⟩
      exact Except.ok.inj (hother.symm.trans (same limit hlimit))
    · rw [ne_eq, own_eq_nil_iff hk hh]
      intro hq
      have hquiet := checkCallSite_quiet_mono (Nat.le_max_left limit bound) hq
      rw [hfits.checkCallSite_eq (Nat.le_max_right limit bound), hanswer] at hquiet
      exact hne (Except.ok.inj hquiet)
    · exact own_of_site hk hh (same limit hlimit)

/-- The first call of two is fine without a limit and needs five levels. With four it is reported as
a whole, and the second stays reported. -/
theorem four_levels_report_the_call :
    twoSites.at? [0] = some (registering invalidation) ∧
    (registering invalidation).lowerCallSite 4 = none ∧
    ({} : Rule).own 4 "a.js" (registering invalidation) =
      [⟨"a.js", (registering invalidation).span, .notInvalidated⟩] ∧
    ({} : Rule).Unlimited (registering invalidation) none ∧
    ∃ report, ({} : Rule).checkTree 4 "a.js" twoSites =
      .ok [⟨"a.js", (registering invalidation).span, .notInvalidated⟩, report] := by
  obtain ⟨hall, hsite⟩ := overflow_fails_closed {} "a.js" twoSites
  obtain ⟨hdeep, -, answer, hanswer, -, -, hfits⟩ := hsite [0] (registering invalidation) rfl rfl rfl
  have hfive : ({} : Rule).Fits 5 (registering invalidation) := by
    refine ⟨_, rfl, fun value hvalue => ?_⟩
    obtain rfl := Option.some.inj hvalue
    intro h
    cases h
  have hquiet : [] = answer.toList.map _ := hfits 5 hfive
  obtain rfl : answer = none := by
    cases answer with
    | none => rfl
    | some found => cases hquiet
  exact ⟨rfl, rfl, hdeep 4 rfl, hanswer, _, hall 4⟩

end StaleQuery
