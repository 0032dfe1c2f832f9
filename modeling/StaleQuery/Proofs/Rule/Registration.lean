import StaleQuery.Proofs.Model.Lowering
import StaleQuery.Proofs.Model.Search
import StaleQuery.Rule.Lint

/-!
# Checking one call

On a call that was lowered from a tree every look-up of the check succeeds, so that a call site
always gets an answer.
-/
namespace StaleQuery

namespace Node

theorem findSome?_properties?_mem {arguments properties : List Node}
    (h : arguments.findSome? properties? = some properties) : .object properties ∈ arguments := by
  obtain ⟨a, ha, hp⟩ := List.exists_of_findSome?_eq_some h
  cases a <;> simp only [properties?, reduceCtorEq, Option.some.injEq] at hp
  subst hp
  exact ha

end Node

namespace Rule

theorem callback?_spec (rule : Rule) {list : List Node} (h : ∀ p ∈ list, ∃ key value span,
    p = .property key value span ∧ key.IsKey) :
    (rule.callback? list = .ok none ∧
      ∀ key value span, .property key value span ∈ list → key ≠ .identifier rule.callback) ∨
    ∃ before value span after,
      list = before ++ .property (.identifier rule.callback) value span :: after ∧
      (∀ key value span, .property key value span ∈ before → key ≠ .identifier rule.callback) ∧
      rule.callback? list =
        .ok (some (.property (.identifier rule.callback) value span, value)) := by
  induction list with
  | nil => exact Or.inl ⟨rfl, by simp⟩
  | cons p rest ih =>
    obtain ⟨key, value, span, rfl, -⟩ := h p List.mem_cons_self
    simp only [callback?, Node.entry?]
    split
    · rename_i hkey
      obtain rfl := Node.isIdentifier_iff.mp hkey
      exact Or.inr ⟨[], value, span, rest, rfl, by simp, rfl⟩
    · rename_i hkey
      have hne : ∀ k v s, Node.property k v s = .property key value span →
          k ≠ .identifier rule.callback := by
        rintro k v s ⟨rfl, rfl, rfl⟩ hk
        exact hkey (Node.isIdentifier_iff.mpr hk)
      rcases ih fun q hq => h q (List.mem_cons_of_mem _ hq) with
        ⟨hc, hno⟩ | ⟨before, v, s, after, rfl, hno, hc⟩
      · refine Or.inl ⟨hc, fun k v s hm => ?_⟩
        exact (List.mem_cons.mp hm).elim (hne k v s) (hno k v s)
      · refine Or.inr ⟨.property key value span :: before, v, s, after, rfl, fun k v s hm => ?_, hc⟩
        exact (List.mem_cons.mp hm).elim (hne k v s) (hno k v s)

/-- Everything that a check of a well-formed call can come to. -/
inductive Checks (rule : Rule) (limit : Nat) (callee : Node) (arguments : List Node) (span : Span) :
    Option (Span × Reason) → Prop where
  | stranger : callee ≠ .identifier rule.hook → Checks rule limit callee arguments span none
  | missingOptions : callee = .identifier rule.hook →
      arguments.findSome? Node.properties? = none →
      Checks rule limit callee arguments span (some (span, .missingOptions))
  | missingCallback {properties} : callee = .identifier rule.hook →
      arguments.findSome? Node.properties? = some properties →
      (∀ key value span, .property key value span ∈ properties → key ≠ .identifier rule.callback) →
      Checks rule limit callee arguments span (some (span, .missingCallback))
  | callback {before value place after answer} : callee = .identifier rule.hook →
      arguments.findSome? Node.properties? =
        some (before ++ .property (.identifier rule.callback) value place :: after) →
      (∀ key value span, .property key value span ∈ before → key ≠ .identifier rule.callback) →
      isReachable limit rule.operation value = .ok answer →
      Checks rule limit callee arguments span
        (if answer then none else some (place, .notInvalidated))

/-- What a finding says once its node is gone. -/
inductive Says : Option Finding → Option (Span × Reason) → Prop where
  | nothing : Says none none
  | place {finding span} : finding.anchor.span? = .ok span →
      Says (some finding) (some (span, finding.reason))

theorem checks_of_wellFormed (rule : Rule) (limit : Nat) {callee : Node} {arguments : List Node}
    {span : Span}
    (hw : (Node.call callee arguments span).WellFormed) :
    ∃ finding result, rule.check limit (.call callee arguments span) = .ok finding ∧
      Says finding result ∧ Checks rule limit callee arguments span result := by
  simp only [check, isRegistration, Node.callee?, Node.options?, Node.arguments?, bind, Except.bind,
    pure, Except.pure]
  by_cases hhook : callee = .identifier rule.hook
  case neg =>
    have hno : callee.isIdentifier rule.hook = false := by
      simpa [← Node.isIdentifier_iff] using hhook
    exact ⟨none, none, by simp [hno], .nothing, .stranger hhook⟩
  simp only [Node.isIdentifier_iff.mpr hhook, Bool.not_true, Bool.false_eq_true, if_false]
  cases hoptions : arguments.findSome? Node.properties? with
  | none => exact ⟨_, _, rfl, .place rfl, .missingOptions hhook hoptions⟩
  | some properties =>
    have hobject : (Node.object properties).WellFormed := by
      cases hw with
      | call _ ha => exact ha _ (Node.findSome?_properties?_mem hoptions)
    cases hobject with
    | object hentries hvalues =>
      rcases callback?_spec rule hentries with
        ⟨hc, hno⟩ | ⟨before, value, place, after, rfl, hno, hc⟩
      · simp only [hc]
        exact ⟨_, _, rfl, .place rfl, .missingCallback hhook hoptions hno⟩
      · have hvalue := hvalues (.identifier rule.callback) value place (by simp)
        obtain ⟨answer, ha⟩ := isReachable_ok rule.operation limit hvalue
        have hchecks : Checks rule limit callee arguments span
            (if answer then none else some (place, .notInvalidated)) :=
          .callback hhook hoptions hno ha
        simp only [hc, ha]
        cases answer with
        | true => exact ⟨none, none, rfl, .nothing, hchecks⟩
        | false => exact ⟨_, _, rfl, .place rfl, hchecks⟩

/-- A call site always gets an answer. It is too deep to lower, or no call in the model, or it is
checked. -/
theorem checkCallSite_cases (rule : Rule) (limit : Nat) (t : Tree) :
    (t.lowerCallSite limit = none ∧
      rule.checkCallSite limit t = .ok (some (t.span, .notInvalidated))) ∨
    (∃ kind, t.lowerCallSite limit = some (.sealed kind) ∧ rule.checkCallSite limit t = .ok none) ∨
    ∃ callee arguments result, t.lowerCallSite limit = some (.call callee arguments t.span) ∧
      Checks rule limit callee arguments t.span result ∧
      rule.checkCallSite limit t = .ok result := by
  cases hl : t.lowerCallSite limit with
  | none => exact Or.inl ⟨rfl, by simp [checkCallSite, hl]⟩
  | some n =>
    have hw := Tree.lowerCallSite_wellFormed hl
    cases Lowering.calls_of_call hl with
    | «sealed» kind => exact Or.inr (Or.inl ⟨kind, rfl, by simp [checkCallSite, hl]⟩)
    | call _ _ _ =>
      obtain ⟨finding, result, hf, hs, hc⟩ := checks_of_wellFormed rule limit hw
      refine Or.inr (Or.inr ⟨_, _, result, rfl, hc, ?_⟩)
      simp only [checkCallSite, hl, hf, bind, Except.bind]
      cases hs with
      | nothing => rfl
      | place hspan => simp [hspan, pure, Except.pure]

theorem checkCallSite_ok (rule : Rule) (limit : Nat) (t : Tree) :
    ∃ answer, rule.checkCallSite limit t = .ok answer := by
  rcases checkCallSite_cases rule limit t with ⟨-, h⟩ | ⟨kind, -, h⟩ | ⟨_, _, answer, -, -, h⟩
  · exact ⟨_, h⟩
  · exact ⟨_, h⟩
  · exact ⟨_, h⟩

end Rule
end StaleQuery
