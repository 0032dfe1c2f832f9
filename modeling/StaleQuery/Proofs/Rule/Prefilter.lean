import Mathlib.Data.List.Flatten
import StaleQuery.Proofs.Rule.SilentPass
import StaleQuery.Source.Program

/-!
# The look at the spelling before a check

A call is lowered only if it is spelled with the plain name of the hook. Checking every call instead
gives the same reports, but for calls in which the name of the hook is not plain: a callee in
parentheses is lowered to the same name and yet passed over.
-/
namespace StaleQuery

namespace Tree

variable {t inner : Tree}

theorem bare_of_operand? (h : t.kind = "parenthesized_expression") (hinner : t.operand? = some inner) :
    t.bare = inner.bare := by
  rw [bare, if_pos h]
  split
  · rename_i found hfound
    obtain rfl := Option.some.inj (hfound.symm.trans hinner)
    rfl
  · rename_i hnone
    simp [hinner] at hnone

theorem bare_of_form_ne (h : t.form ≠ .parenthesized) : t.bare = t := by
  apply bare_of_kind_ne
  intro hkind
  exact h (form_eq_parenthesized_iff.mpr hkind)

theorem bare_of_form_identifier (h : t.form = .identifier) : t.bare = t :=
  bare_of_form_ne (by simp [h])

end Tree

theorem Lowering.Lowers.identifier_cases {lower : Lower} {t : Tree} {name : String}
    (h : Lowers lower t (.identifier name)) : (t.form = .identifier ∧ t.text = name) ∨
      ∃ inner, t.form = .parenthesized ∧ t.operand? = some inner ∧
        lower inner = some (.identifier name) := by
  generalize hn : Node.identifier name = n at h
  cases h with
  | identifier hform => exact Or.inl ⟨hform, (Node.identifier.inj hn).symm⟩
  | parenthesized hform hinner hm => exact Or.inr ⟨_, hform, hinner, hn ▸ hm⟩
  | call _ hc => cases hc <;> cases hn
  | function hf => cases hf <;> cases hn
  | declarator hd =>
    rcases declarator_eq_some hd with ⟨-, rfl⟩ | ⟨_, _, _, _, _, _, rfl⟩ <;> cases hn
  | _ => cases hn

/-- What is lowered to a name is an identifier, parentheses apart. -/
theorem Tree.bare_of_lower_identifier {limit : Nat} {t : Tree} {name : String}
    (h : t.lower limit = some (.identifier name)) :
    t.bare.kind ∈ identifierKinds ∧ t.bare.text = name := by
  induction limit generalizing t with
  | zero => cases h
  | succ limit ih =>
    rcases (Lowering.lowers_of_level h).identifier_cases with
      ⟨hform, htext⟩ | ⟨inner, hform, hinner, hlower⟩
    · rw [bare_of_form_identifier hform]
      exact ⟨mem_identifierKinds hform, htext⟩
    · rw [bare_of_operand? (form_eq_parenthesized_iff.mp hform) hinner]
      exact ih hlower

namespace Rule

variable (rule : Rule) (limit : Nat) (filePath : String)

/-- Every call of the tree is lowered and checked, however it is spelled. -/
def checkEveryCall (t : Tree) : Except Fault (List Diagnostic) := do
  let reports ← t.calls.mapM (rule.checkCallSite limit)
  return (reports.filterMap id).map fun (span, reason) => ⟨filePath, span, reason⟩

/-- What the check of one call reports. -/
def verdict (s : Tree) : List Diagnostic :=
  match rule.checkCallSite limit s with
  | .ok (some (span, reason)) => [⟨filePath, span, reason⟩]
  | _ => []

/-- The callee is the name of the hook, parentheses apart, but no plain identifier. -/
def Disguised (s : Tree) : Prop :=
  ∃ callee, s.child? "function" = some callee ∧ callee.kind ≠ "identifier" ∧
    callee.bare.kind ∈ Tree.identifierKinds ∧ callee.bare.text = rule.hook

variable {rule limit filePath}

theorem reports_eq_flatMap_verdict (sites : List Tree) :
    (do
      let reports ← sites.mapM (rule.checkCallSite limit)
      return (reports.filterMap id).map fun (span, reason) => (⟨filePath, span, reason⟩ : Diagnostic)) =
      (.ok (sites.flatMap (rule.verdict limit filePath)) : Except Fault (List Diagnostic)) := by
  choose answer hanswer using rule.checkCallSite_ok limit
  simp only [mapM_ok fun s _ => hanswer s, bind, Except.bind, pure, Except.pure, Except.ok.injEq]
  induction sites with
  | nil => rfl
  | cons s rest ih =>
    rw [List.flatMap_cons, ← ih]
    cases hs : answer s <;> simp [verdict, hanswer, hs]

/-- A call that is reported, though not for its depth, calls the hook by its name. -/
theorem named_of_verdict_ne_nil {s : Tree} {n : Node} (hn : s.lowerCallSite limit = some n)
    (h : rule.verdict limit filePath s ≠ []) : rule.namesHook s = true ∨ rule.Disguised s := by
  rcases checkCallSite_cases rule limit s with
    ⟨hnone, -⟩ | ⟨kind, -, hc⟩ | ⟨callee, arguments, result, hcall, hchecks, hc⟩
  · simp [hn] at hnone
  · simp [verdict, hc] at h
  · have hhook : callee = .identifier rule.hook := by
      cases hchecks with
      | stranger => simp [verdict, hc] at h
      | missingOptions hhook | missingCallback hhook | callback hhook => exact hhook
    subst hhook
    cases Lowering.calls_of_call hcall with
    | @call raw _ _ hraw hlower _ =>
      obtain ⟨hkind, htext⟩ := Tree.bare_of_lower_identifier hlower
      by_cases hplain : raw.kind = "identifier"
      · have hform : raw.form = .identifier := Lowering.form_of_kind hplain rfl
        rw [Tree.bare_of_form_identifier hform] at htext
        exact Or.inl (namesHook_iff.mpr ⟨raw, hraw, hplain, htext⟩)
      · exact Or.inr ⟨raw, hraw, hplain, hkind, htext⟩

theorem Disguised.not_namesHook {s : Tree} (h : rule.Disguised s) : rule.namesHook s = false := by
  obtain ⟨callee, hcallee, hkind, -⟩ := h
  rw [Bool.eq_false_iff]
  intro hnames
  obtain ⟨other, hother, hplain, -⟩ := namesHook_iff.mp hnames
  obtain rfl := Option.some.inj (hcallee.symm.trans hother)
  exact hkind hplain

end Rule

/-- A filter loses nothing exactly if what it drops has nothing to give. -/
theorem flatMap_filter_eq_iff {α β : Type} {p : α → Bool} {f : α → List β} {list : List α} :
    (list.filter p).flatMap f = list.flatMap f ↔ ∀ a ∈ list, p a = false → f a = [] := by
  induction list with
  | nil => simp
  | cons a rest ih =>
    cases ha : p a with
    | true => simp [ha, ih]
    | false =>
      rw [List.filter_cons_of_neg (by simp [ha]), List.flatMap_cons, List.forall_mem_cons, ← ih]
      have hle := (List.Sublist.flatMap (List.filter_sublist (p := p) (l := rest)) f).length_le
      constructor
      · intro heq
        have hlength := congrArg List.length heq
        rw [List.length_append] at hlength
        have hnil : f a = [] := List.eq_nil_of_length_eq_zero (by omega)
        exact ⟨fun _ => hnil, by rw [heq, hnil, List.nil_append]⟩
      · rintro ⟨hnil, heq⟩
        rw [hnil ha, heq, List.nil_append]

/-- Where every call can be lowered, the reports on a tree are those of the calls spelled with the
hook, out of what checking every call gives. A call that is passed over would be reported only if the
name of the hook is its callee in disguise, and the two ways of checking agree exactly if no such call
would be. -/
theorem prefilter_passes_over_disguised (rule : Rule) (limit : Nat) (filePath : String) (t : Tree)
    (h : ∀ s ∈ t.calls, ∃ n, s.lowerCallSite limit = some n) :
    rule.checkEveryCall limit filePath t = .ok (t.calls.flatMap (rule.verdict limit filePath)) ∧
    rule.checkTree limit filePath t =
      .ok ((t.calls.filter rule.namesHook).flatMap (rule.verdict limit filePath)) ∧
    (∀ s ∈ t.calls, rule.namesHook s = false → rule.verdict limit filePath s ≠ [] →
      rule.Disguised s) ∧
    (rule.checkTree limit filePath t = rule.checkEveryCall limit filePath t ↔
      ∀ s ∈ t.calls, rule.Disguised s → rule.verdict limit filePath s = []) := by
  have hevery : rule.checkEveryCall limit filePath t =
      .ok (t.calls.flatMap (rule.verdict limit filePath)) := Rule.reports_eq_flatMap_verdict t.calls
  have hspelled : rule.checkTree limit filePath t =
      .ok ((t.calls.filter rule.namesHook).flatMap (rule.verdict limit filePath)) :=
    Rule.reports_eq_flatMap_verdict (t.calls.filter rule.namesHook)
  have hdisguised : ∀ s ∈ t.calls, rule.namesHook s = false →
      rule.verdict limit filePath s ≠ [] → rule.Disguised s := by
    intro s hs hno hreported
    obtain ⟨n, hn⟩ := h s hs
    have hnamed := Rule.named_of_verdict_ne_nil hn hreported
    simpa [hno] using hnamed
  refine ⟨hevery, hspelled, hdisguised, ?_⟩
  rw [hevery, hspelled, Except.ok.injEq, flatMap_filter_eq_iff]
  constructor
  · intro hnil s hs hd
    exact hnil s hs hd.not_namesHook
  · intro hnil s hs hno
    by_contra hreported
    exact hreported (hnil s hs (hdisguised s hs hno hreported))

/-- A call through another name in parentheses, with a registration among its arguments. -/
def wrappedStranger : Tree :=
  Source.parse .javascript "(save)(useMutation())".toUTF8

theorem wrapped_stranger_checked_alike :
    (∀ s ∈ wrappedStranger.calls, ∃ n, s.lowerCallSite depthLimit = some n) ∧
    ({} : Rule).checkTree depthLimit "a.js" wrappedStranger =
      ({} : Rule).checkEveryCall depthLimit "a.js" wrappedStranger := by
  have hcalls : wrappedStranger.calls.map (fun s => (({} : Rule).namesHook s,
      ({} : Rule).verdict depthLimit "a.js" s, (s.lowerCallSite depthLimit).isSome)) =
      [(false, [], true), (true, [⟨"a.js", ⟨1, 8, 1, 21⟩, .missingOptions⟩], true)] := by
    rw [Tree.calls, Tree.ofKind_eq]
    decide +kernel
  obtain ⟨outer, rest, hlist, houter, hrest⟩ := List.map_eq_cons_iff.mp hcalls
  obtain ⟨inner, rfl, hinner⟩ := List.map_eq_singleton_iff.mp hrest
  simp only [Prod.mk.injEq] at houter hinner
  have hlower : ∀ s ∈ wrappedStranger.calls, ∃ n, s.lowerCallSite depthLimit = some n := by
    simp [hlist, ← Option.isSome_iff_exists, houter, hinner]
  refine ⟨hlower, (prefilter_passes_over_disguised {} depthLimit "a.js" _ hlower).2.2.2.mpr ?_⟩
  intro s hs hd
  obtain rfl | rfl : s = outer ∨ s = inner := by simpa [hlist] using hs
  · exact houter.2.1
  · have hno := hd.not_namesHook
    simp [hinner] at hno

/-- The hook in parentheses. -/
def wrappedHook : Tree :=
  Source.parse .javascript "(useMutation)()".toUTF8

/-- The call is lowered to a registration without options, and no report is made of it. -/
theorem wrapped_hook_passed_over :
    (∀ s ∈ wrappedHook.calls, ∃ n, s.lowerCallSite depthLimit = some n) ∧
    ({} : Rule).checkTree depthLimit "a.js" wrappedHook = .ok [] ∧
    ({} : Rule).checkEveryCall depthLimit "a.js" wrappedHook =
      .ok [⟨"a.js", ⟨1, 1, 1, 16⟩, .missingOptions⟩] := by
  have hcalls : wrappedHook.calls.map (fun s => (({} : Rule).namesHook s,
      ({} : Rule).verdict depthLimit "a.js" s, (s.lowerCallSite depthLimit).isSome)) =
      [(false, [⟨"a.js", ⟨1, 1, 1, 16⟩, .missingOptions⟩], true)] := by
    rw [Tree.calls, Tree.ofKind_eq]
    decide +kernel
  obtain ⟨site, hlist, hsite⟩ := List.map_eq_singleton_iff.mp hcalls
  simp only [Prod.mk.injEq] at hsite
  refine ⟨?_, ?_, ?_⟩
  · simp [hlist, ← Option.isSome_iff_exists, hsite]
  · rw [Rule.checkTree, Rule.reports_eq_flatMap_verdict]
    simp [hlist, hsite]
  · rw [Rule.checkEveryCall, Rule.reports_eq_flatMap_verdict]
    simp [hlist, hsite]

end StaleQuery
