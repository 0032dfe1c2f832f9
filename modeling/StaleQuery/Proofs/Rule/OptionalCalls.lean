import StaleQuery.Proofs.Model.Chains
import StaleQuery.Proofs.Rule.Prefilter

/-!
# Optional calls

A chain is sealed for a `?.` that is a node of its own, and for nothing else. A callback in which
every call of the operation is marked in this way is reported; a call with `?.` as a mere token is
taken for a plain one, and the callback passes.
-/
namespace StaleQuery

namespace Node

theorem occurs_of_mem_events {e n : Node} (h : e ∈ n.events) : e.Occurs n := by
  induction n using Node.events.induct with
  | case1 n ih =>
    rw [events_eq, List.mem_append, List.mem_flatMap] at h
    rcases h with h | ⟨m, hm, h⟩
    · split at h
      · obtain rfl := List.mem_singleton.mp h
        exact .here
      · cases h
    · exact .inside (n.searched_subset_parts m hm) (ih ⟨m, hm⟩ h)

theorem events_function (body : Node) : (function body).events = body.events := by
  simp [events_eq (function body), isEvent, searched]

end Node

/-- A search that succeeds, within whatever limit, has found a call of the operation. -/
theorem exists_matchingCall_of_reachable {limit : Nat} {operation : String} {n : Node}
    (hw : n.WellFormed) (h : isReachable limit operation n = .ok true) :
    ∃ i, MatchingCall operation n.events i := by
  have hfound := isReachable_eq_true_iff.mp h
  have henough : search operation (max limit (sizeOf n)) n [] = .found := by
    rw [search_mono (Nat.le_max_left limit (sizeOf n)) (by simp [hfound]), hfound]
  have hwithin : n.Within (max limit (sizeOf n)) :=
    Node.within_of_sizeOf_le (Nat.le_max_right limit (sizeOf n))
  have hstart : Search.Tracks operation n.events 0 [] := by
    intro name
    simp [aliasedBefore_zero]
  rw [search_eq_each_events hwithin] at henough
  rcases Search.each_enter_tracks hw.events rfl hstart with ⟨-, hmatching⟩ | ⟨after, hmissed, -⟩
  · exact hmatching
  · rw [List.drop_zero, henough] at hmissed
    cases hmissed

theorem Lowering.Lowers.member_cases {lower : Lower} {t : Tree} {m k : Node}
    (h : Lowers lower t (.member m k)) :
    (∃ field name, accessField? t.form = some field ∧ t.child? field = some name ∧
      lower name = some k) ∨
    ∃ inner, t.form = .parenthesized ∧ t.operand? = some inner ∧
      lower inner = some (.member m k) := by
  generalize hn : Node.member m k = n at h
  cases h with
  | member hfield _ hname _ hk =>
    obtain ⟨-, rfl⟩ := Node.member.inj hn
    exact Or.inl ⟨_, _, hfield, hname, hk⟩
  | parenthesized hform hinner hm => exact Or.inr ⟨_, hform, hinner, hn ▸ hm⟩
  | call _ hc => cases hc <;> cases hn
  | function hf => cases hf <;> cases hn
  | declarator hd =>
    rcases declarator_eq_some hd with ⟨-, rfl⟩ | ⟨_, _, _, _, _, _, rfl⟩ <;> cases hn
  | _ => cases hn

namespace Tree

/-- Whether a link has a `?.` that is a token of it and no node of its own. -/
def hasBareMark (t : Tree) : Bool :=
  t.children.any fun c => c.kind == "?." && !c.named

/-- Whether a link is written with `?.`, in the one way or the other. -/
def isOptional (t : Tree) : Bool :=
  t.hasOptionalMark || t.hasBareMark

/-- An access by this name, written `a.name` or `a[name]`. -/
def Accesses (name : String) (t : Tree) : Prop :=
  ∃ field property, Lowering.accessField? t.form = some field ∧ t.child? field = some property ∧
    property.bare.kind ∈ identifierKinds ∧ property.bare.text = name

/-- A name that stands for the operation somewhere in the model of a tree. -/
def Aliases (operation : String) (t : Tree) (name : String) : Prop :=
  ∃ limit n i, t.lower limit = some n ∧ AliasedBefore operation n.events i name

/-- A call of the operation, through an access by its name or through a name that stands for it. -/
def CallsThrough (operation : String) (aliased : String → Prop) (t : Tree) : Prop :=
  t.kind = "call_expression" ∧ ∃ callee, t.child? "function" = some callee ∧
    (callee.bare.Accesses operation ∨
      (callee.bare.kind ∈ identifierKinds ∧ aliased callee.bare.text))

variable {t : Tree} {limit : Nat}

/-- What is lowered to an access by a name is one, parentheses apart. -/
theorem accesses_of_lower {receiver : Node} {name : String}
    (h : t.lower limit = some (.member receiver (.identifier name))) : t.bare.Accesses name := by
  induction limit generalizing t with
  | zero => cases h
  | succ limit ih =>
    rcases (Lowering.lowers_of_level h).member_cases with
      ⟨field, property, hfield, hproperty, hlower⟩ | ⟨inner, hform, hinner, hlower⟩
    · have hopen : t.form ≠ .parenthesized := by
        rintro hform
        simp [hform, Lowering.accessField?] at hfield
      rw [bare_of_form_ne hopen]
      exact ⟨field, property, hfield, hproperty, bare_of_lower_identifier hlower⟩
    · rw [bare_of_operand? (form_eq_parenthesized_iff.mp hform) hinner]
      exact ih hlower

/-- The source of a call in a model: a call outside of optional chains, with what it calls. -/
def OpenCall (t : Tree) (n : Node) : Prop :=
  ∀ callee arguments span, n = .call callee arguments span →
    ∃ (s raw : Tree) (limit : Nat), s.Below t ∧ s.kind = "call_expression" ∧
      s.inOptionalChain = false ∧ s.child? "function" = some raw ∧ raw.lower limit = some callee

theorem shows_openCall (limit : Nat) : Shows (lower limit) OpenCall where
  mono h hs callee arguments span hn := by
    obtain ⟨r, raw, depth, hr, hopen⟩ := h callee arguments span hn
    exact ⟨r, raw, depth, hr.trans hs, hopen⟩
  identifier _ _ _ _ hn := by cases hn
  call {t raw _} _ _ hkind hchain hraw hlower callee _ _ hn := by
    obtain ⟨rfl, -, -⟩ := Node.call.inj hn
    exact ⟨t, raw, limit, .here, hkind, hchain, hraw, hlower⟩
  other _ hcall callee arguments span hn := absurd hn (hcall callee arguments span)

/-- A call of the operation among the events of a model is one in the tree, and not an optional
one. -/
theorem exists_callsThrough {operation : String} {n : Node} {i : Nat}
    (hlower : t.lower limit = some n) (h : MatchingCall operation n.events i) :
    ∃ s : Tree, s.Below t ∧ s.inOptionalChain = false ∧
      s.CallsThrough operation (t.Aliases operation) := by
  have hshown : ∀ {e : Node}, n.events[i]? = some e → t.OpenCall e := by
    intro e he
    exact lower_tracedBy shows_openCall hlower e
      (Node.occurs_of_mem_events (List.mem_of_getElem? he))
  cases h with
  | member he =>
    obtain ⟨s, raw, depth, hs, hkind, hchain, hraw, hcallee⟩ := hshown he _ _ _ rfl
    exact ⟨s, hs, hchain, hkind, raw, hraw, Or.inl (accesses_of_lower hcallee)⟩
  | aliased he haliased =>
    obtain ⟨s, raw, depth, hs, hkind, hchain, hraw, hcallee⟩ := hshown he _ _ _ rfl
    obtain ⟨hname, htext⟩ := bare_of_lower_identifier hcallee
    refine ⟨s, hs, hchain, hkind, raw, hraw, Or.inr ⟨hname, limit, n, i, hlower, ?_⟩⟩
    rwa [htext]

end Tree

/-- A value that reaches the operation has a call of it that is not optional. -/
theorem Lowering.ObjectEntry.exists_callsThrough {limit below : Nat} {operation : String} {c : Tree}
    {key n : Node} {span : Span} (h : ObjectEntry (Tree.lower below) c (.property key n span))
    (hr : isReachable limit operation n = .ok true) :
    ∃ v, c.propertyValue? = some v ∧ ∃ s : Tree, s.Below v ∧ s.inOptionalChain = false ∧
      s.CallsThrough operation (v.Aliases operation) := by
  have hmatching : n.WellFormed → ∃ i, MatchingCall operation n.events i :=
    fun hw => exists_matchingCall_of_reachable hw hr
  have «open» : ∀ kind, n ≠ .sealed kind := by
    rintro kind rfl
    obtain ⟨i, hi⟩ := hmatching (.sealed kind)
    cases hi <;> simp_all [Node.events_eq, Node.isEvent, Node.searched]
  cases h with
  | pair hkind hv =>
    rcases value_eq_some hv with rfl | ⟨v, hv, hlower⟩
    · exact absurd rfl («open» _)
    · obtain ⟨i, hi⟩ := hmatching (Tree.lower_wellFormed hlower)
      exact ⟨v, by simp [Tree.propertyValue?, hkind, hv], Tree.exists_callsThrough hlower hi⟩
  | shorthand _ =>
    obtain ⟨i, hi⟩ := hmatching (.identifier _)
    cases hi <;> simp_all [Node.events_eq, Node.isEvent, Node.searched]
  | method hkind hf =>
    cases hf with
    | «sealed» kind => exact absurd rfl («open» kind)
    | @function body m hbody hm =>
      obtain ⟨i, hi⟩ := hmatching (.function (Tree.lower_wellFormed hm))
      rw [Node.events_function] at hi
      exact ⟨body, by simp [Tree.propertyValue?, hkind, hbody], Tree.exists_callsThrough hm hi⟩

namespace Rule

variable {rule : Rule} {limit : Nat} {filePath : String} {s property value : Tree}

/-- A registration is reported if no call of the operation in its callback is open. -/
theorem Registers.own_of_all_marked (hs : rule.Registers s) (limit : Nat) (filePath : String)
    (hproperty : s.registered? rule.callback = some property)
    (hvalue : property.propertyValue? = some value)
    (h : ∀ c : Tree, c.Below value →
      c.CallsThrough rule.operation (value.Aliases rule.operation) → c.inOptionalChain = true) :
    ∃ span, rule.own limit filePath s = [⟨filePath, span, .notInvalidated⟩] ∧
      (span = property.span ∨ (s.lowerCallSite limit = none ∧ span = s.span)) := by
  have hreported := hs.reported limit filePath
  generalize rule.own limit filePath s = list at hreported
  cases hreported with
  | tooDeep hnone => exact ⟨s.span, rfl, Or.inr ⟨hnone, rfl⟩⟩
  | missing hnone =>
    rw [hproperty] at hnone
    cases hnone
  | @callback found _ _ answer hfound hentry hanswer =>
    obtain rfl := Option.some.inj (hproperty.symm.trans hfound)
    cases answer with
    | false => exact ⟨property.span, rfl, Or.inl rfl⟩
    | true =>
      obtain ⟨v, hv, c, hc, hopen, hcalls⟩ := hentry.exists_callsThrough hanswer
      obtain rfl := Option.some.inj (hvalue.symm.trans hv)
      rw [h c hc hcalls] at hopen
      cases hopen

theorem own_subset_checkTree {t : Tree} {p : List Nat} (hp : t.at? p = some s) :
    ∃ reports, rule.checkTree limit filePath t = .ok reports ∧
      ∀ report ∈ rule.own limit filePath s, report ∈ reports := by
  refine ⟨_, checkTree_eq_ok rule limit filePath t, fun report hreport => ?_⟩
  rw [listing, Tree.gather_eq_occurrences]
  exact List.mem_flatMap.mpr ⟨(p, s), Tree.mem_occurrences.mpr hp, hreport⟩

end Rule

/-- A chain with an optional link is sealed exactly if one of its optional links has the mark as a
node of its own; a call without such a mark is lowered as if it were looked at directly. So a
callback in which every call of the operation has that mark in its chain is reported, at its property
or, if it is too deep to be lowered, at the call. -/
theorem marked_calls_reported (rule : Rule) (limit : Nat) (filePath : String) :
    (∀ t : Tree, (∃ link ∈ t.spine, link.isOptional = true) →
      (t.lower (limit + 1) = some (.sealed "chain_expression") ↔
        ∃ link ∈ t.spine, link.hasOptionalMark = true)) ∧
    (∀ t : Tree, t.kind = "call_expression" → (∀ link ∈ t.spine, link.hasOptionalMark = false) →
      t.lower (limit + 1) = t.lowerCallSite limit) ∧
    ∀ t p s property value, t.at? p = some s → rule.Registers s →
      s.registered? rule.callback = some property → property.propertyValue? = some value →
      (∀ c : Tree, c.Below value → c.CallsThrough rule.operation (value.Aliases rule.operation) →
        ∃ link ∈ c.spine, link.hasOptionalMark = true) →
      ∃ reports span, rule.checkTree limit filePath t = .ok reports ∧
        rule.own limit filePath s = [⟨filePath, span, .notInvalidated⟩] ∧
        ⟨filePath, span, .notInvalidated⟩ ∈ reports ∧
        (span = property.span ∨ (s.lowerCallSite limit = none ∧ span = s.span)) := by
  refine ⟨?_, ?_, ?_⟩
  · rintro t ⟨link, hlink, -⟩
    have hend : t.IsLink := by
      by_contra hno
      simp [Tree.spine_of_not_isLink hno] at hlink
    exact Tree.lower_eq_chain_iff hend limit
  · intro t hkind hmarks
    exact (Tree.lowerCallSite_eq_lower hkind hmarks limit).symm
  · intro t p s property value hp hs hproperty hvalue hmarked
    obtain ⟨span, hown, hspan⟩ := hs.own_of_all_marked limit filePath
      hproperty hvalue fun c hc hcalls => Tree.inOptionalChain_iff.mpr (hmarked c hc hcalls)
    obtain ⟨reports, hreports, hmem⟩ := Rule.own_subset_checkTree hp
    exact ⟨reports, span, hreports, hown, hmem _ (by simp [hown]), hspan⟩

/-- The call `q.invalidateQueries?.()`, with the mark in either form. -/
def optionalCall (mark : Tree) : Tree :=
  lineNode "call_expression" (some "body") 30 38 ""
    [lineNode "member_expression" (some "function") 30 34 ""
      [lineNode "identifier" (some "object") 30 31 "q" [],
        lineNode "property_identifier" (some "property") 32 34 "invalidateQueries" []],
      mark, lineNode "arguments" (some "arguments") 36 38 "" []]

def chainNode : Tree :=
  lineNode "optional_chain" none 34 36 "?." []

def chainToken : Tree :=
  .node ⟨"?.", none, false, ⟨⟨0, 34⟩, ⟨0, 36⟩⟩, "?."⟩ []

theorem mem_spine_optionalCall (mark : Tree) : optionalCall mark ∈ (optionalCall mark).spine := by
  have hlink : (optionalCall mark).IsLink := (by decide : "call_expression" ∈ Tree.linkKinds)
  rw [Tree.spine_of_isLink hlink]
  exact List.mem_cons_self

theorem below_lineNode {kind text : String} {field : Option String} {start stop : Nat}
    {children : List Tree} {c : Tree} : c.Below (lineNode kind field start stop text children) ↔
      c = lineNode kind field start stop text children ∨ ∃ d ∈ children, c.Below d := by
  constructor
  · intro h
    cases h with
    | here => exact Or.inl rfl
    | inside hd h => exact Or.inr ⟨_, hd, h⟩
  · rintro (rfl | ⟨d, hd, h⟩)
    · exact .here
    · exact .inside hd h

theorem marked_call_sealed_and_reported :
    (optionalCall chainNode).lower 401 = some (.sealed "chain_expression") ∧
    ∃ reports span, ({} : Rule).checkTree 400 "a.js" (registering (optionalCall chainNode)) =
        .ok reports ∧ ⟨"a.js", span, .notInvalidated⟩ ∈ reports := by
  obtain ⟨hlower, -, hreported⟩ := marked_calls_reported {} 400 "a.js"
  have hspine := mem_spine_optionalCall chainNode
  have hmarked : ∃ link ∈ (optionalCall chainNode).spine, link.hasOptionalMark = true :=
    ⟨_, hspine, rfl⟩
  -- no other call stands in the callback
  have hcalls : ∀ c : Tree,
      c.Below (lineNode "arrow_function" (some "value") 24 38 "" [optionalCall chainNode]) →
      c.kind = "call_expression" → c = optionalCall chainNode := by
    intro c hc hkind
    rw [below_lineNode] at hc
    rcases hc with rfl | ⟨d, hd, hc⟩
    · exact absurd hkind (by decide)
    · obtain rfl := List.mem_singleton.mp hd
      simp only [optionalCall, chainNode, below_lineNode, List.mem_cons, List.not_mem_nil, or_false,
        exists_eq_or_imp, exists_eq_left, false_and, exists_false] at hc
      rcases hc with rfl | (rfl | rfl | rfl) | rfl | rfl
      · rfl
      all_goals exact absurd hkind (by decide)
  obtain ⟨reports, span, hchecked, -, hmem, -⟩ := hreported _ [] _ _ _ rfl (registering_registers _)
    (registered?_registering _) rfl fun c hc hcall => (hcalls c hc hcall.1) ▸ hmarked
  exact ⟨(hlower _ ⟨_, hspine, rfl⟩).mpr hmarked, reports, span, hchecked, hmem⟩

/-- With a token for a mark the call is lowered as a plain one, and the callback passes. -/
theorem bare_token_passes :
    (∃ link ∈ (optionalCall chainToken).spine, link.isOptional = true) ∧
    (optionalCall chainToken).lower 401 ≠ some (.sealed "chain_expression") ∧
    ({} : Rule).own 400 "a.ts" (registering (optionalCall chainToken)) = [] ∧
    ({} : Rule).checkTree depthLimit "a.ts"
      (Source.parse .typescript "useMutation({ onSuccess: () => q.invalidateQueries?.() })".toUTF8) =
        .ok [] ∧
    ({} : Rule).checkTree depthLimit "a.js"
      (Source.parse .javascript "useMutation({ onSuccess: () => q.invalidateQueries?.() })".toUTF8) =
        .ok [⟨"a.js", ⟨1, 15, 1, 55⟩, .notInvalidated⟩] := by
  refine ⟨⟨_, mem_spine_optionalCall _, rfl⟩, ?_, rfl, ?_, ?_⟩
  · intro h
    cases h
  · rw [Rule.checkTree, Rule.reports_eq_flatMap_verdict, Except.ok.injEq, Tree.calls, Tree.ofKind_eq]
    decide +kernel
  · rw [Rule.checkTree, Rule.reports_eq_flatMap_verdict, Except.ok.injEq, Tree.calls, Tree.ofKind_eq]
    decide +kernel

end StaleQuery
