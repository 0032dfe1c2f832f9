import StaleQuery.Proofs.Model.Brackets
import StaleQuery.Proofs.Rule.SilentPass
import StaleQuery.Proofs.Tree.Addresses

/-!
# Where a report points

A report points at the call that it is about or at one property of the options of that call, the first
one under the name of the callback. The way from the call to the property goes through the arguments,
through parentheses and through the object literal, and meets no other call. So the property lies in
the range of its call, and no two calls, one inside the options of the other or not, share it.
-/
namespace StaleQuery

/-- Whether a reported place lies in another one. -/
def Span.Within (inner outer : Span) : Prop :=
  Point.NotAfter ⟨outer.startLine, outer.startColumn⟩ ⟨inner.startLine, inner.startColumn⟩ ∧
    Point.NotAfter ⟨inner.endLine, inner.endColumn⟩ ⟨outer.endLine, outer.endColumn⟩

namespace Tree

variable {s t c : Tree}

theorem span_within (h : s.range.Within t.range) : s.span.Within t.span := by
  unfold Range.Within Point.NotAfter at h
  unfold Span.Within Point.NotAfter span
  simp only
  omega

/-- The key of the property that an entry of an object literal stands for, if it stands for one. -/
def entryKey? (t : Tree) : Option Node :=
  match t.kind with
  | "pair" => some (Lowering.key (t.child? "key"))
  | "shorthand_property_identifier" => some (.identifier t.text)
  | "method_definition" => some (Lowering.key (t.child? "name"))
  | _ => none

def entryKinds : List String :=
  ["pair", "shorthand_property_identifier", "method_definition"]

theorem keyedBy_iff {name : String} :
    c.keyedBy name = true ↔ c.entryKey? = some (.identifier name) := by
  simp only [entryKey?]
  split
  · rename_i hkind
    simp [keyedBy, hkind, ← Lowering.key_eq_identifier_iff]
  · rename_i hkind
    simp [keyedBy, hkind]
  · rename_i hkind
    simp [keyedBy, hkind, ← Lowering.key_eq_identifier_iff]
  · simp_all [keyedBy]

theorem kind_of_entryKey? {key : Node} (h : c.entryKey? = some key) : c.kind ∈ entryKinds := by
  simp only [entryKey?] at h
  split at h <;> simp_all [entryKinds]

theorem operand?_eq (t : Tree) : t.operand? = t.children.find? isOperand := by
  rw [operand?, operands_eq, List.head?_filter]

theorem find?_operands (test : Tree → Bool) (t : Tree) :
    t.operands.find? test = t.children.find? fun c => c.isOperand && test c := by
  simp [operands_eq, List.find?_filter, Bool.decide_and]

/-- The address of what stands inside any number of parentheses. -/
def bareAt (t : Tree) : List Nat :=
  if t.kind = "parenthesized_expression" then
    match _h : t.seek? isOperand with
    | some (inner, i) => i :: inner.bareAt
    | none => []
  else []
termination_by t.size
decreasing_by
  apply size_lt_of_operand?
  rw [operand?_eq]
  exact find?_of_seek? _h

theorem bareAt_of_seek? {inner : Tree} {i : Nat} (h : t.kind = "parenthesized_expression")
    (hseek : t.seek? isOperand = some (inner, i)) :
    t.bareAt = i :: inner.bareAt ∧ t.bare = inner.bare := by
  have hinner : t.operand? = some inner := (operand?_eq t).trans (find?_of_seek? hseek)
  rw [bareAt, bare, if_pos h, if_pos h]
  constructor
  · split <;> simp_all
  · split <;> simp_all

theorem bareAt_of_seek?_eq_none (h : t.kind = "parenthesized_expression")
    (hseek : t.seek? isOperand = none) : t.bareAt = [] ∧ t.bare = t := by
  have hinner : t.operand? = none := by
    rw [operand?_eq, ← map_fst_seek?, hseek]
    rfl
  rw [bareAt, bare, if_pos h, if_pos h]
  constructor
  · split <;> simp_all
  · split <;> simp_all

theorem kind_ne_of_bare {kind : String} (hparens : kind ≠ "parenthesized_expression")
    (h : t.bare.kind ≠ kind) : t.kind ≠ kind := by
  intro hkind
  apply h
  rw [bare_of_kind_ne (by rwa [hkind]), hkind]

/-- Parentheses lead to what stands in them, and nothing but parentheses is on the way. -/
theorem bareAt_spec (t : Tree) : t.reach? t.bareAt = some t.bare ∧
    ∀ kind, kind ≠ "parenthesized_expression" → t.bare.kind ≠ kind → t.Avoids kind t.bareAt := by
  induction t using bareAt.induct with
  | case1 t hkind inner i hseek ih =>
    obtain ⟨hat, hbare⟩ := bareAt_of_seek? hkind hseek
    have hchild := getElem?_of_seek? hseek
    rw [hat, hbare]
    refine ⟨reach?_cons_eq_some_iff.mpr ⟨inner, hchild, ih.1⟩, fun kind hparens h => ?_⟩
    exact avoids_cons hchild (kind_ne_of_bare hparens h) (ih.2 kind hparens h)
  | case2 t hkind hseek =>
    obtain ⟨hat, hbare⟩ := bareAt_of_seek?_eq_none hkind hseek
    rw [hat, hbare]
    exact ⟨rfl, fun _ _ _ => trivial⟩
  | case3 t hkind =>
    rw [bareAt, if_neg hkind, bare_of_kind_ne hkind]
    exact ⟨rfl, fun _ _ _ => trivial⟩

/-- The address, in a call, of the first property under the name in its options. -/
def registeredAt? (name : String) (s : Tree) : Option (List Nat) := do
  let (list, i) ← s.seek? (·.field == some "arguments")
  if list.kind = "arguments" then
    let (argument, j) ← list.seek? fun c => c.isOperand && c.bare.kind == "object"
    let (_, k) ← argument.bare.seek? fun c => c.isOperand && c.keyedBy name
    return i :: j :: (argument.bareAt ++ [k])
  else none

theorem options?_eq_some {options : Tree} (h : s.options? = some options) :
    ∃ list i argument j, s.seek? (·.field == some "arguments") = some (list, i) ∧
      list.kind = "arguments" ∧
      list.seek? (fun c => c.isOperand && c.bare.kind == "object") = some (argument, j) ∧
      argument.bare = options := by
  simp only [options?] at h
  split at h
  · rename_i list hlist
    split at h
    · rename_i hkind
      rw [List.find?_map, find?_operands] at h
      obtain ⟨argument, hargument, hbare⟩ := Option.map_eq_some_iff.mp h
      obtain ⟨i, hi⟩ := exists_seek? hlist
      obtain ⟨j, hj⟩ := exists_seek? hargument
      exact ⟨list, i, argument, j, hi, hkind, hj, hbare⟩
    · cases h
  · cases h

theorem exists_registeredAt {name : String} {property : Tree}
    (h : s.registered? name = some property) : ∃ r, s.registeredAt? name = some r := by
  obtain ⟨options, hoptions, hproperty⟩ := Option.bind_eq_some_iff.mp h
  obtain ⟨list, i, argument, j, hi, hlist, hj, rfl⟩ := options?_eq_some hoptions
  rw [find?_operands] at hproperty
  obtain ⟨k, hk⟩ := exists_seek? hproperty
  exact ⟨i :: j :: (argument.bareAt ++ [k]), by simp [registeredAt?, hi, hlist, hj, hk]⟩

theorem registeredAt?_eq_some {name : String} {r : List Nat} (h : s.registeredAt? name = some r) :
    ∃ list i argument j property k, s.seek? (·.field == some "arguments") = some (list, i) ∧
      list.kind = "arguments" ∧
      list.seek? (fun c => c.isOperand && c.bare.kind == "object") = some (argument, j) ∧
      argument.bare.seek? (fun c => c.isOperand && c.keyedBy name) = some (property, k) ∧
      r = i :: j :: (argument.bareAt ++ [k]) := by
  obtain ⟨⟨list, i⟩, hi, h⟩ := Option.bind_eq_some_iff.mp h
  by_cases hlist : list.kind = "arguments"
  · simp only [hlist, if_true] at h
    obtain ⟨⟨argument, j⟩, hj, h⟩ := Option.bind_eq_some_iff.mp h
    obtain ⟨⟨property, k⟩, hk, h⟩ := Option.bind_eq_some_iff.mp h
    exact ⟨list, i, argument, j, property, k, hi, hlist, hj, hk, (Option.some.inj h).symm⟩
  · simp [hlist] at h

/-- The address leads to the property, and no call is met on the way to it. -/
theorem registeredAt?_spec {name : String} {r : List Nat} (h : s.registeredAt? name = some r) :
    ∃ property, s.registered? name = some property ∧ s.reach? r = some property ∧
      s.Avoids "call_expression" r := by
  obtain ⟨list, i, argument, j, property, k, hi, hlist, hj, hk, rfl⟩ := registeredAt?_eq_some h
  have hlistAt := getElem?_of_seek? hi
  have hargumentAt := getElem?_of_seek? hj
  have hpropertyAt := getElem?_of_seek? hk
  obtain ⟨hbare, havoids⟩ := argument.bareAt_spec
  have hobject : argument.bare.kind = "object" := by
    have := List.find?_some (find?_of_seek? hj)
    simp_all
  have hentry : property.kind ≠ "call_expression" := by
    have hkeyed : property.keyedBy name = true := by
      have := List.find?_some (find?_of_seek? hk)
      simp_all
    intro hcall
    have := kind_of_entryKey? (keyedBy_iff.mp hkeyed)
    simp [hcall, entryKinds] at this
  refine ⟨property, ?_, ?_, ?_⟩
  · have hchild : s.child? "arguments" = some list := find?_of_seek? hi
    have hoptions : s.options? = some argument.bare := by
      simp only [options?, hchild, hlist, if_true]
      rw [List.find?_map, Option.map_eq_some_iff]
      exact ⟨argument, (find?_operands _ _).trans (find?_of_seek? hj), rfl⟩
    rw [registered?, hoptions, Option.bind_some, find?_operands]
    exact find?_of_seek? hk
  · refine reach?_cons_eq_some_iff.mpr ⟨list, hlistAt, ?_⟩
    refine reach?_cons_eq_some_iff.mpr ⟨argument, hargumentAt, ?_⟩
    rw [reach?_append hbare]
    exact reach?_cons_eq_some_iff.mpr ⟨property, hpropertyAt, rfl⟩
  · refine avoids_cons hlistAt (by simp [hlist]) ?_
    refine avoids_cons hargumentAt (kind_ne_of_bare (by decide) (by simp [hobject])) ?_
    refine (havoids _ (by decide) (by simp [hobject])).append hbare ?_
    exact avoids_cons hpropertyAt hentry trivial

/-- The address, in the whole tree, of the property that a report on the call at a place can point
at. -/
def anchor? (name : String) (p : List Nat) (t : Tree) : Option (List Nat) := do
  let site ← t.address? p
  let s ← t.at? p
  let way ← s.registeredAt? name
  return site ++ way

theorem anchor?_eq_some {name : String} {p a : List Nat} (hs : t.at? p = some s)
    (h : t.anchor? name p = some a) : ∃ site way, a = site ++ way ∧ t.address? p = some site ∧
      t.reach? site = some s ∧ s.registeredAt? name = some way := by
  obtain ⟨site, hsite, hreach⟩ := exists_address hs
  simp only [anchor?, hsite, hs, Option.bind_eq_bind, Option.bind_some] at h
  obtain ⟨way, hway, h⟩ := Option.bind_eq_some_iff.mp h
  exact ⟨site, way, (Option.some.inj h).symm, hsite, hreach, hway⟩

theorem exists_anchor {name : String} {p : List Nat} {property : Tree} (hs : t.at? p = some s)
    (h : s.registered? name = some property) :
    ∃ a, t.anchor? name p = some a ∧ t.reach? a = some property := by
  obtain ⟨site, hsite, hreach⟩ := exists_address hs
  obtain ⟨way, hway⟩ := exists_registeredAt h
  obtain ⟨found, hfound, hproperty, -⟩ := registeredAt?_spec hway
  obtain rfl := Option.some.inj (h.symm.trans hfound)
  exact ⟨site ++ way, by simp [anchor?, hsite, hs, hway], (reach?_append hreach way).trans hproperty⟩

/-- Two calls at different places have their properties at different addresses. -/
theorem anchor?_ne {name : String} {p q a b : List Nat} {u : Tree} (hs : t.at? p = some s)
    (hu : t.at? q = some u) (hscall : s.kind = "call_expression") (hucall : u.kind = "call_expression")
    (ha : t.anchor? name p = some a) (hb : t.anchor? name q = some b) (hpq : p ≠ q) : a ≠ b := by
  obtain ⟨site, way, rfl, hsite, hreach, hway⟩ := anchor?_eq_some hs ha
  obtain ⟨site', way', rfl, hsite', hreach', hway'⟩ := anchor?_eq_some hu hb
  obtain ⟨-, -, -, havoids⟩ := registeredAt?_spec hway
  obtain ⟨-, -, -, havoids'⟩ := registeredAt?_spec hway'
  intro hsame
  obtain rfl := eq_of_avoids hreach hreach' hscall hucall havoids havoids' hsame
  exact hpq (address?_injective hsite hsite')

end Tree

namespace Rule

variable {rule : Rule} {limit : Nat} {filePath : String} {s : Tree}

/-- The property of an object literal that is taken for the callback: the first entry whose key is
lowered to the name. -/
structure IsCallback (rule : Rule) (options property : Tree) : Prop where
  child : property ∈ options.children
  entry : property.kind ∈ Tree.entryKinds
  key : property.entryKey? = some (.identifier rule.callback)
  first : ∃ before after, options.operands = before ++ property :: after ∧
    ∀ c ∈ before, c.entryKey? ≠ some (.identifier rule.callback)

theorem isCallback_of_registered? {property : Tree}
    (h : s.registered? rule.callback = some property) :
    ∃ options, s.options? = some options ∧ rule.IsCallback options property := by
  obtain ⟨options, hoptions, hfind⟩ := Option.bind_eq_some_iff.mp h
  obtain ⟨hkeyed, before, after, hsplit, hbefore⟩ := List.find?_eq_some_iff_append.mp hfind
  have hkey := Tree.keyedBy_iff.mp hkeyed
  have hmem : property ∈ options.operands := List.mem_of_find?_eq_some hfind
  rw [Tree.operands_eq] at hmem
  refine ⟨options, hoptions, (List.mem_filter.mp hmem).1, Tree.kind_of_entryKey? hkey, hkey, before,
    after, hsplit, fun c hc hcallback => ?_⟩
  have hno := hbefore c hc
  rw [Tree.keyedBy_iff.mpr hcallback] at hno
  cases hno

/-- What a report on a call site says and where it points. -/
inductive Anchored (rule : Rule) (limit : Nat) (filePath : String) (s : Tree) : Diagnostic → Prop where
  | missingOptions : s.options? = none →
      Anchored rule limit filePath s ⟨filePath, s.span, .missingOptions⟩
  | missingCallback {options} : s.options? = some options →
      (∀ c ∈ options.operands, c.entryKey? ≠ some (.identifier rule.callback)) →
      Anchored rule limit filePath s ⟨filePath, s.span, .missingCallback⟩
  | tooDeep : s.lowerCallSite limit = none →
      Anchored rule limit filePath s ⟨filePath, s.span, .notInvalidated⟩
  | callback {options property} : s.options? = some options →
      rule.IsCallback options property → s.registered? rule.callback = some property →
      Anchored rule limit filePath s ⟨filePath, property.span, .notInvalidated⟩

section Arguments

variable {arguments properties : List Node}
  (ha : Lowering.arguments (Tree.lower limit) (s.child? "arguments") = some arguments)

include ha

theorem options?_of_findSome?_eq_none (hnone : arguments.findSome? Node.properties? = none) :
    s.options? = none := by
  simp only [Tree.options?]
  split
  · rename_i list hlist
    split
    · rename_i hkind
      simp only [hlist, Lowering.arguments, hkind, if_true] at ha
      exact Tree.find?_bare_eq_none (mapM_eq_some ha) hnone
    · rfl
  · rfl

theorem exists_options (hoptions : arguments.findSome? Node.properties? = some properties) :
    ∃ options, s.options? = some options := by
  rcases Lowering.arguments_eq_some ha with rfl | ⟨list, hlist, hkind, hall⟩
  · cases hoptions
  · obtain ⟨options, below, hfind, -⟩ := Tree.find?_bare hall hoptions
    exact ⟨options, by simp [Tree.options?, hlist, hkind, hfind]⟩

end Arguments

theorem anchored_of_mem_own {d : Diagnostic} (h : d ∈ rule.own limit filePath s) :
    Anchored rule limit filePath s d := by
  obtain ⟨hkind, hhook⟩ := hook_of_own_ne_nil (List.ne_nil_of_mem h)
  rcases checkCallSite_cases rule limit s with
    ⟨hl, hc⟩ | ⟨kind, -, hc⟩ | ⟨callee, arguments, result, hl, hchecks, hc⟩
  · rw [own_of_site hkind hhook hc] at h
    obtain rfl := List.mem_singleton.mp h
    exact .tooDeep hl
  · rw [own_of_site hkind hhook hc] at h
    cases h
  · rw [own_of_site hkind hhook hc] at h
    have ha : Lowering.arguments (Tree.lower limit) (s.child? "arguments") = some arguments := by
      cases Lowering.calls_of_call hl with
      | call _ _ ha => exact ha
    cases hchecks with
    | stranger => cases h
    | missingOptions _ hnone =>
      obtain rfl := List.mem_singleton.mp h
      exact .missingOptions (options?_of_findSome?_eq_none ha hnone)
    | missingCallback _ hproperties hno =>
      obtain rfl := List.mem_singleton.mp h
      obtain ⟨options, hoptions⟩ := exists_options ha hproperties
      have hnone := registered?_of_missingCallback ha hproperties hno
      rw [Tree.registered?, hoptions, Option.bind_some, List.find?_eq_none] at hnone
      exact .missingCallback hoptions fun c hc hkey => hnone c hc (Tree.keyedBy_iff.mpr hkey)
    | @callback _ value place _ answer _ hproperties hbefore _ =>
      obtain ⟨property, below, hproperty, hentry⟩ := registered?_of_arguments ha hproperties hbefore
      obtain rfl := hentry.span_eq
      obtain ⟨options, hoptions, hcallback⟩ := isCallback_of_registered? hproperty
      cases answer with
      | true => cases h
      | false =>
        obtain rfl := List.mem_singleton.mp h
        exact .callback hoptions hcallback hproperty

theorem Anchored.within {d : Diagnostic} (h : Anchored rule limit filePath s d) (hs : s.Nested) :
    d.span.Within s.span := by
  cases h with
  | missingOptions | missingCallback | tooDeep => exact Tree.span_within (.refl _)
  | callback _ _ hproperty =>
    obtain ⟨a, -, hreach⟩ := Tree.exists_anchor (p := []) rfl hproperty
    exact Tree.span_within (hs.within (Tree.below_of_reach? hreach))

end Rule

/-- Reports point into their own registrations. Each one that a call site gives points at the call or,
for a callback that does not reach the operation, at the first property under the name of the callback
in the options. In a tree whose ranges are nested that place lies in the range of the call, and the
properties of different calls stand at different addresses. -/
theorem reports_point_into_registrations (rule : Rule) (limit : Nat) (filePath : String) (t : Tree) :
    rule.checkTree limit filePath t =
      .ok (t.occurrences.flatMap fun o => rule.own limit filePath o.2) ∧
    (∀ p s, (p, s) ∈ t.occurrences → ∀ d ∈ rule.own limit filePath s,
      s.kind = "call_expression" ∧ rule.Anchored limit filePath s d ∧
        (t.Nested → d.span.Within s.span)) ∧
    (∀ p s property, (p, s) ∈ t.occurrences → s.registered? rule.callback = some property →
      ∃ a, t.anchor? rule.callback p = some a ∧ t.reach? a = some property) ∧
    ∀ p q s u a b, (p, s) ∈ t.occurrences → (q, u) ∈ t.occurrences → s.kind = "call_expression" →
      u.kind = "call_expression" → t.anchor? rule.callback p = some a →
      t.anchor? rule.callback q = some b → p ≠ q → a ≠ b := by
  simp only [Tree.mem_occurrences]
  refine ⟨?_, fun p s hp d hd => ?_, fun p s property hp => Tree.exists_anchor hp,
    fun p q s u a b hp hq => Tree.anchor?_ne hp hq⟩
  · rw [Rule.checkTree_eq_ok, Rule.listing, Tree.gather_eq_occurrences]
  · have hanchored := Rule.anchored_of_mem_own hd
    obtain ⟨hkind, -⟩ := Rule.hook_of_own_ne_nil (List.ne_nil_of_mem hd)
    refine ⟨hkind, hanchored, fun hnested => hanchored.within ?_⟩
    obtain ⟨a, -, hreach⟩ := Tree.exists_address hp
    exact hnested.below (Tree.below_of_reach? hreach)

/-- A callback with this body. -/
def callbackOver (start stop : Nat) (body : Tree) : Tree :=
  lineNode "pair" none start stop ""
    [lineNode "property_identifier" (some "key") start (start + 9) "onSuccess" [],
      lineNode "arrow_function" (some "value") (start + 11) stop "" [body]]

/-- A registration with its options in parentheses. -/
def enclosedSite (field : Option String) (start stop : Nat) (body : Tree) : Tree :=
  lineNode "call_expression" field start stop ""
    [lineNode "identifier" (some "function") start (start + 11) "useMutation" [],
      lineNode "arguments" (some "arguments") (start + 11) stop ""
        [lineNode "parenthesized_expression" none (start + 12) (stop - 1) ""
          [lineNode "object" none (start + 13) (stop - 2) ""
            [callbackOver (start + 15) (stop - 4) body]]]]

theorem registered?_enclosedSite (field : Option String) (start stop : Nat) (body : Tree) :
    (enclosedSite field start stop body).registered? "onSuccess" =
      some (callbackOver (start + 15) (stop - 4) body) := by
  have hobject : (lineNode "object" none (start + 13) (stop - 2) ""
      [callbackOver (start + 15) (stop - 4) body]).bare = _ :=
    Tree.bare_of_kind_ne (by decide : "object" ≠ "parenthesized_expression")
  have hbare := (Tree.bareAt_of_seek? (t := lineNode "parenthesized_expression" none (start + 12)
    (stop - 1) "" [lineNode "object" none (start + 13) (stop - 2) ""
      [callbackOver (start + 15) (stop - 4) body]]) rfl rfl).2.trans hobject
  rw [Tree.registered?]
  change (([_].map Tree.bare).find? (·.kind == "object")).bind _ = _
  rw [List.map_singleton, hbare]
  rfl

/-- A registration in the callback of another one. -/
def innerSite : Tree :=
  enclosedSite (some "body") 32 70 (lineNode "identifier" (some "body") 64 66 "ok" [])

def outerSite : Tree :=
  enclosedSite none 0 74 innerSite

theorem nested_lineNode {kind text : String} {field : Option String} {start stop : Nat}
    {children : List Tree} : (lineNode kind field start stop text children).Nested ↔
      ∀ c ∈ children, c.range.Within ⟨⟨0, start⟩, ⟨0, stop⟩⟩ ∧ c.Nested :=
  Tree.nested_iff

theorem outerSite_nested : outerSite.Nested := by
  simp only [outerSite, innerSite, enclosedSite, callbackOver, nested_lineNode, List.forall_mem_cons,
    List.not_mem_nil, false_implies, implies_true, and_true]
  decide

theorem inner_site_has_its_own_anchor : outerSite.Nested ∧
    (∃ d ∈ ({} : Rule).own 400 "a.js" innerSite, d.reason = .notInvalidated ∧
      ({} : Rule).Anchored 400 "a.js" innerSite d ∧ d.span.Within innerSite.span) ∧
    ∃ a b, outerSite.anchor? "onSuccess" [] = some a ∧
      outerSite.anchor? "onSuccess" [1, 0, 0, 0, 1, 0] = some b ∧ a ≠ b := by
  obtain ⟨-, hreports, haddress, hdistinct⟩ :=
    reports_point_into_registrations {} 400 "a.js" outerSite
  have houter : ([], outerSite) ∈ outerSite.occurrences := Tree.mem_occurrences.mpr rfl
  have hinner : ([1, 0, 0, 0, 1, 0], innerSite) ∈ outerSite.occurrences :=
    Tree.mem_occurrences.mpr rfl
  have hown : ⟨"a.js", ⟨1, 48, 1, 67⟩, .notInvalidated⟩ ∈ ({} : Rule).own 400 "a.js" innerSite := by
    have : ({} : Rule).own 400 "a.js" innerSite = [⟨"a.js", ⟨1, 48, 1, 67⟩, .notInvalidated⟩] := rfl
    simp [this]
  obtain ⟨-, hanchored, hwithin⟩ := hreports _ _ hinner _ hown
  obtain ⟨a, ha, -⟩ := haddress _ _ _ houter (registered?_enclosedSite ..)
  obtain ⟨b, hb, -⟩ := haddress _ _ _ hinner (registered?_enclosedSite ..)
  exact ⟨outerSite_nested, ⟨_, hown, rfl, hanchored, hwithin outerSite_nested⟩, a, b, ha, hb,
    hdistinct _ _ _ _ _ _ houter hinner rfl rfl ha hb (by decide)⟩

end StaleQuery
