import StaleQuery.Proofs.Model.Provenance
import StaleQuery.Proofs.Rule.CallSites

/-!
# No silent pass

A registration without a report has its callback written in its options, and in the callback both a
call and the name of the operation. What the options, the callback and its value are is said here of
the tree alone, without a model.
-/
namespace StaleQuery

namespace Tree

theorem size_lt_of_operand? {t inner : Tree} (h : t.operand? = some inner) :
    inner.size < t.size := by
  have hmem : inner ∈ t.operands := List.mem_of_mem_head? h
  exact size_lt_of_mem_namedChildren (List.mem_filter.mp hmem).1

/-- What stands inside any number of parentheses. -/
def bare (t : Tree) : Tree :=
  if t.kind = "parenthesized_expression" then
    match _h : t.operand? with
    | some inner => inner.bare
    | none => t
  else t
termination_by t.size
decreasing_by exact size_lt_of_operand? _h

theorem bare_of_kind_ne {t : Tree} (h : t.kind ≠ "parenthesized_expression") : t.bare = t := by
  rw [bare, if_neg h]

def options? (t : Tree) : Option Tree :=
  match t.child? "arguments" with
  | some list =>
    if list.kind = "arguments" then (list.operands.map bare).find? (·.kind == "object") else none
  | none => none

/-- Whether a key is the name, plainly or as an identifier in brackets. -/
def spells (name : String) (t : Tree) : Bool :=
  if t.kind = "computed_property_name" then
    t.operand?.any fun inner => inner.kind == "identifier" && inner.text == name
  else
    (t.kind == "property_identifier" || t.kind == "identifier" ||
      t.kind == "shorthand_property_identifier_pattern") && t.text == name

/-- Whether an entry of an object literal is a property under the name. -/
def keyedBy (name : String) (t : Tree) : Bool :=
  if t.kind = "pair" then (t.child? "key").any (spells name)
  else if t.kind = "method_definition" then (t.child? "name").any (spells name)
  else t.kind == "shorthand_property_identifier" && t.text == name

/-- The value of a property; that of a method is its body. -/
def propertyValue? (t : Tree) : Option Tree :=
  if t.kind = "pair" then t.child? "value"
  else if t.kind = "method_definition" then t.child? "body"
  else some t

/-- The first property under the name in the options of a call. -/
def registered? (name : String) (t : Tree) : Option Tree :=
  t.options?.bind fun options => options.operands.find? (keyedBy name)

/-- Every call of the tree is a named node and stands below named nodes only. -/
def CallsNamed (t : Tree) : Prop :=
  ∀ s : Tree, s.Below t → s.named = false → ∀ c : Tree, c.Below s → c.kind ≠ "call_expression"

theorem CallsNamed.exists_at? {s t : Tree} (h : t.CallsNamed) (hs : s.Below t)
    (hcall : s.kind = "call_expression") : ∃ p, t.at? p = some s := by
  induction hs with
  | here => exact ⟨[], rfl⟩
  | @inside t c hc hs ih =>
    have hbelow : c.Below t := .inside hc .here
    obtain ⟨p, hp⟩ := ih fun r hr => h r (hr.trans hbelow)
    have hnamed : c.named = true := by
      apply Bool.of_not_eq_false
      intro hno
      exact h c hbelow hno s hs hcall
    obtain ⟨i, hi⟩ := List.mem_iff_getElem?.mp (List.mem_filter.mpr ⟨hc, hnamed⟩)
    exact ⟨i :: p, by simp only [at?, namedChildren, hi, Option.bind_some, hp]⟩

theorem form_eq_object_iff {t : Tree} : t.form = .object ↔ t.kind = "object" := by
  unfold form Form.ofKind
  split <;> simp_all

theorem form_eq_parenthesized_iff {t : Tree} :
    t.form = .parenthesized ↔ t.kind = "parenthesized_expression" := by
  unfold form Form.ofKind
  split <;> simp_all

theorem inOptionalChain_eq_false {t : Tree} (h : t.form.spineField? = none) :
    t.inOptionalChain = false := by
  obtain ⟨label, children⟩ := t
  have hfield : (Form.ofKind label.kind).spineField? = none := h
  simp [inOptionalChain, hfield]

end Tree

namespace Lowering

variable {lower : Lower} {t c : Tree} {n : Node}

theorem level_object (h : t.kind = "object") :
    level lower t = (entries (objectEntry lower) t).map .object := by
  have hform := Tree.form_eq_object_iff.mpr h
  have hchain := Tree.inOptionalChain_eq_false (t := t) (by simp [hform, Form.spineField?])
  simp only [level, hchain, hform]
  cases entries (objectEntry lower) t <;> rfl

theorem level_parenthesized {inner : Tree} (h : t.kind = "parenthesized_expression")
    (hinner : t.operand? = some inner) : level lower t = lower inner := by
  have hform := Tree.form_eq_parenthesized_iff.mpr h
  have hchain := Tree.inOptionalChain_eq_false (t := t) (by simp [hform, Form.spineField?])
  simp only [level, hchain, hform, wrap, hinner]
  cases lower inner <;> rfl

theorem Calls.properties?_eq_none (h : Calls lower t n) : n.properties? = none := by
  cases h <;> rfl

theorem Functions.properties?_eq_none (h : Functions lower t n) : n.properties? = none := by
  cases h <;> rfl

/-- Nothing but an object literal, parentheses apart, is lowered to one. -/
theorem Lowers.properties?_eq_none (h : Lowers lower t n) (hobject : t.form ≠ .object)
    (hempty : t.form = .parenthesized → t.operand? = none) : n.properties? = none := by
  cases h with
  | parenthesized hform hinner => simp [hempty hform] at hinner
  | object hform => exact absurd hform hobject
  | call _ hc => exact hc.properties?_eq_none
  | function hf => exact hf.properties?_eq_none
  | declarator hd =>
    rcases declarator_eq_some hd with ⟨-, rfl⟩ | ⟨_, _, _, _, _, _, rfl⟩ <;> rfl
  | _ => rfl

theorem key_eq_identifier_iff {o : Option Tree} {name : String} :
    key o = .identifier name ↔ o.any (Tree.spells name) = true := by
  cases o with
  | none => simp [key]
  | some c =>
    simp only [key, Option.any_some, Tree.spells]
    split
    case h_4 hkind =>
      simp only [hkind, if_true]
      cases c.operand? with
      | none => simp
      | some inner =>
        by_cases hinner : inner.kind = "identifier" <;> simp [hinner]
    all_goals simp_all

theorem objectEntry_keyedBy {o : Option Node} (h : objectEntry lower c = some o) (name : String) :
    c.keyedBy name = true ↔ ∃ value span, o = some (.property (.identifier name) value span) := by
  simp only [objectEntry] at h
  split at h
  · rename_i hkind
    obtain ⟨v, -, rfl⟩ := bind_return.mp h
    simp [Tree.keyedBy, hkind, ← key_eq_identifier_iff]
  · rename_i hkind
    obtain rfl := Option.some.inj h
    simp [Tree.keyedBy, hkind]
  · rename_i hkind
    obtain ⟨v, -, rfl⟩ := bind_return.mp h
    simp [Tree.keyedBy, hkind, ← key_eq_identifier_iff]
  · obtain rfl := Option.some.inj h
    simp_all [Tree.keyedBy]

theorem find?_keyedBy {name : String} {list : List Tree} {found : List (Option Node)}
    (h : List.Forall₂ (fun c o => objectEntry lower c = some o) list found)
    {before after : List Node} {value : Node} {span : Span}
    (hsplit : found.filterMap id = before ++ .property (.identifier name) value span :: after)
    (hbefore : ∀ key value span, .property key value span ∈ before → key ≠ .identifier name) :
    ∃ c, list.find? (Tree.keyedBy name) = some c ∧
      ObjectEntry lower c (.property (.identifier name) value span) := by
  induction h generalizing before with
  | nil => simp at hsplit
  | @cons c o list found hc _ ih =>
    cases o with
    | none =>
      have hno : ¬ c.keyedBy name = true := by simp [objectEntry_keyedBy hc]
      rw [List.find?_cons_of_neg hno]
      exact ih (by simpa using hsplit) hbefore
    | some p =>
      have hcons : (some p :: found).filterMap id = p :: found.filterMap id := rfl
      rw [hcons] at hsplit
      cases before with
      | nil =>
        obtain ⟨rfl, -⟩ := List.cons.inj hsplit
        have hyes : c.keyedBy name = true := (objectEntry_keyedBy hc name).mpr ⟨_, _, rfl⟩
        exact ⟨c, List.find?_cons_of_pos hyes, objectEntry_of_some hc⟩
      | cons q before =>
        obtain ⟨rfl, hrest⟩ := List.cons.inj hsplit
        have hno : ¬ c.keyedBy name = true := by
          rintro hyes
          obtain ⟨v, s, hp⟩ := (objectEntry_keyedBy hc name).mp hyes
          exact hbefore _ v s (by simp [Option.some.inj hp]) rfl
        rw [List.find?_cons_of_neg hno]
        exact ih hrest fun k v s hm => hbefore k v s (List.mem_cons_of_mem _ hm)

theorem find?_keyedBy_eq_none {name : String} {list : List Tree} {found : List (Option Node)}
    (h : List.Forall₂ (fun c o => objectEntry lower c = some o) list found)
    (hno : ∀ key value span, .property key value span ∈ found.filterMap id →
      key ≠ .identifier name) : list.find? (Tree.keyedBy name) = none := by
  rw [List.find?_eq_none]
  intro c hc hkeyed
  have hflip : List.Forall₂ (fun o c => objectEntry lower c = some o) found list := h.flip
  obtain ⟨o, ho, hentry⟩ := exists_of_mem_forall₂ hflip hc
  obtain ⟨value, span, rfl⟩ := (objectEntry_keyedBy hentry name).mp hkeyed
  exact hno _ value span (List.mem_filterMap.mpr ⟨_, ho, rfl⟩) rfl

theorem ObjectEntry.span_eq {key : Node} {span : Span} (h : ObjectEntry lower c (.property key n span)) :
    span = c.span := by
  cases h <;> rfl

/-- A value that reaches the operation is written, with a call and the name in it. -/
theorem ObjectEntry.value_of_reachable (hl : ∀ t n, lower t = some n → t.Traced n) {depth : Nat}
    {operation : String} {key : Node} {span : Span} (h : ObjectEntry lower c (.property key n span))
    (hr : isReachable depth operation n = .ok true) :
    ∃ v, c.propertyValue? = some v ∧ v.HasCall ∧ v.Mentions operation := by
  obtain ⟨hname, callee, arguments, place, hcall⟩ := occurs_of_reachable hr
  have traced : ∀ {v : Tree}, v.Traced n → v.HasCall ∧ v.Mentions operation := fun hv =>
    ⟨hv _ hcall, hv _ hname⟩
  have «open» : ∀ kind, n ≠ .sealed kind := by
    rintro kind rfl
    cases hname with
    | inside hp _ => cases hp
  cases h with
  | pair hkind hv =>
    rcases value_eq_some hv with rfl | ⟨v, hv, hlower⟩
    · exact absurd rfl («open» _)
    · exact ⟨v, by simp [Tree.propertyValue?, hkind, hv], traced (hl v n hlower)⟩
  | shorthand _ =>
    cases hcall with
    | inside hp _ => cases hp
  | method hkind hf =>
    cases hf with
    | «sealed» kind => exact absurd rfl («open» kind)
    | @function body m hbody hm =>
      exact ⟨body, by simp [Tree.propertyValue?, hkind, hbody],
        traced (Tree.traced_one (P := Tree.Source) rfl trivial (hl body m hm))⟩

end Lowering

namespace Tree

/-- An argument is lowered to an object literal exactly if it is one, parentheses apart. -/
theorem lower_bare {limit : Nat} {t : Tree} {n : Node} (h : t.lower limit = some n) :
    (t.bare.kind ≠ "object" ∧ n.properties? = none) ∨
    (t.bare.kind = "object" ∧ ∃ below list, n = .object list ∧
      Lowering.entries (Lowering.objectEntry (lower below)) t.bare = some list) := by
  induction limit generalizing t with
  | zero => cases h
  | succ limit ih =>
    rw [bare]
    split
    · rename_i hkind
      split
      · rename_i inner hinner
        apply ih
        rwa [lower, Lowering.level_parenthesized hkind hinner] at h
      · rename_i hnone
        have hobject : t.form ≠ .object := by simp [form_eq_object_iff, hkind]
        exact Or.inl ⟨by simp [hkind],
          (Lowering.lowers_of_level h).properties?_eq_none hobject fun _ => hnone⟩
    · rename_i hkind
      by_cases hobject : t.kind = "object"
      · rw [lower, Lowering.level_object hobject] at h
        obtain ⟨list, hlist, rfl⟩ := Option.map_eq_some_iff.mp h
        exact Or.inr ⟨hobject, limit, list, rfl, hlist⟩
      · refine Or.inl ⟨hobject, (Lowering.lowers_of_level h).properties?_eq_none ?_ fun hform => ?_⟩
        · rwa [ne_eq, form_eq_object_iff]
        · exact absurd (form_eq_parenthesized_iff.mp hform) hkind

theorem find?_bare {limit : Nat} {list : List Tree} {nodes properties : List Node}
    (h : List.Forall₂ (fun c n => lower limit c = some n) list nodes)
    (hfound : nodes.findSome? Node.properties? = some properties) :
    ∃ options below, (list.map bare).find? (·.kind == "object") = some options ∧
      Lowering.entries (Lowering.objectEntry (lower below)) options = some properties := by
  induction h with
  | nil => cases hfound
  | @cons c n list nodes hc _ ih =>
    rw [List.findSome?_cons] at hfound
    rw [List.map_cons]
    rcases lower_bare hc with ⟨hkind, hnone⟩ | ⟨hkind, below, entries, rfl, hentries⟩
    · rw [List.find?_cons_of_neg (by simpa using hkind)]
      exact ih (by simpa [hnone] using hfound)
    · obtain rfl : entries = properties := by simpa [Node.properties?] using hfound
      exact ⟨c.bare, below, List.find?_cons_of_pos (by simpa using hkind), hentries⟩

theorem find?_bare_eq_none {limit : Nat} {list : List Tree} {nodes : List Node}
    (h : List.Forall₂ (fun c n => lower limit c = some n) list nodes)
    (hnone : nodes.findSome? Node.properties? = none) :
    (list.map bare).find? (·.kind == "object") = none := by
  induction h with
  | nil => rfl
  | @cons c n list nodes hc _ ih =>
    rw [List.findSome?_cons] at hnone
    rw [List.map_cons]
    rcases lower_bare hc with ⟨hkind, hn⟩ | ⟨-, below, entries, rfl, -⟩
    · rw [List.find?_cons_of_neg (by simpa using hkind)]
      exact ih (by simpa [hn] using hnone)
    · simp [Node.properties?] at hnone

end Tree

namespace Rule

variable {rule : Rule} {limit : Nat} {filePath : String} {s : Tree}

/-- A call of the hook by its plain name, and not one with a template for arguments. -/
structure Registers (rule : Rule) (s : Tree) : Prop where
  call : s.kind = "call_expression"
  callee : ∃ callee, s.child? "function" = some callee ∧ callee.kind = "identifier" ∧
    callee.text = rule.hook
  untagged : ∀ list, s.child? "arguments" = some list → list.kind ≠ "template_string"

theorem Registers.lowerCallSite {n : Node} (hs : rule.Registers s)
    (h : s.lowerCallSite limit = some n) :
    ∃ arguments, n = .call (.identifier rule.hook) arguments s.span ∧
      Lowering.arguments (Tree.lower limit) (s.child? "arguments") = some arguments := by
  obtain ⟨callee, hcallee, hkind, htext⟩ := hs.callee
  have htag : (s.child? "arguments").any (·.kind == "template_string") = false := by
    cases hlist : s.child? "arguments" with
    | none => rfl
    | some list => simpa using hs.untagged list hlist
  simp only [Tree.lowerCallSite, Lowering.call, hcallee, htag] at h
  obtain ⟨m, hm, arguments, ha, rfl⟩ := bind_return₂.mp h
  refine ⟨arguments, ?_, ha⟩
  cases limit with
  | zero => cases hm
  | succ limit =>
    have hform : callee.form = .identifier := Lowering.form_of_kind hkind rfl
    have hchain := Tree.inOptionalChain_eq_false (t := callee) (by simp [hform, Form.spineField?])
    simp only [Tree.lower, Lowering.level, hchain, hform] at hm
    obtain rfl := Option.some.inj hm
    rw [htext]

/-- The callback that a check finds is the one that is written first. -/
theorem registered?_of_arguments {arguments before after : List Node} {value : Node} {place : Span}
    (ha : Lowering.arguments (Tree.lower limit) (s.child? "arguments") = some arguments)
    (hoptions : arguments.findSome? Node.properties? =
      some (before ++ .property (.identifier rule.callback) value place :: after))
    (hbefore : ∀ key value span, .property key value span ∈ before →
      key ≠ .identifier rule.callback) :
    ∃ property below, s.registered? rule.callback = some property ∧
      Lowering.ObjectEntry (Tree.lower below) property
        (.property (.identifier rule.callback) value place) := by
  rcases Lowering.arguments_eq_some ha with rfl | ⟨list, hlist, hkind, hall⟩
  · cases hoptions
  · obtain ⟨options, below, hfind, hentries⟩ := Tree.find?_bare hall hoptions
    obtain ⟨found, hfound, hsplit⟩ := bind_return.mp hentries
    obtain ⟨property, hproperty, hentry⟩ :=
      Lowering.find?_keyedBy (mapM_eq_some hfound) hsplit hbefore
    exact ⟨property, below, by
      simp [Tree.registered?, Tree.options?, hlist, hkind, hfind, hproperty], hentry⟩

theorem registered?_of_missingOptions {arguments : List Node}
    (ha : Lowering.arguments (Tree.lower limit) (s.child? "arguments") = some arguments)
    (hnone : arguments.findSome? Node.properties? = none) (name : String) :
    s.registered? name = none := by
  rw [Tree.registered?, Option.bind_eq_none_iff]
  intro options hoptions
  simp only [Tree.options?] at hoptions
  split at hoptions
  · rename_i list hlist
    split at hoptions
    · rename_i hkind
      simp only [hlist, Lowering.arguments, hkind, if_true] at ha
      rw [Tree.find?_bare_eq_none (mapM_eq_some ha) hnone] at hoptions
      cases hoptions
    · cases hoptions
  · cases hoptions

theorem registered?_of_missingCallback {arguments properties : List Node} {name : String}
    (ha : Lowering.arguments (Tree.lower limit) (s.child? "arguments") = some arguments)
    (hoptions : arguments.findSome? Node.properties? = some properties)
    (hno : ∀ key value span, .property key value span ∈ properties → key ≠ .identifier name) :
    s.registered? name = none := by
  rcases Lowering.arguments_eq_some ha with rfl | ⟨list, hlist, hkind, hall⟩
  · cases hoptions
  · obtain ⟨options, below, hfind, hentries⟩ := Tree.find?_bare hall hoptions
    obtain ⟨found, hfound, rfl⟩ := bind_return.mp hentries
    have hnone := Lowering.find?_keyedBy_eq_none (mapM_eq_some hfound) hno
    simp [Tree.registered?, Tree.options?, hlist, hkind, hfind, hnone]

/-- What is reported on a registration, in terms of the callback that is written in its options. -/
inductive Reported (rule : Rule) (limit : Nat) (filePath : String) (s : Tree) :
    List Diagnostic → Prop where
  | tooDeep : s.lowerCallSite limit = none →
      Reported rule limit filePath s [⟨filePath, s.span, .notInvalidated⟩]
  | missing {reason} : s.registered? rule.callback = none →
      Reported rule limit filePath s [⟨filePath, s.span, reason⟩]
  | callback {property below value answer} : s.registered? rule.callback = some property →
      Lowering.ObjectEntry (Tree.lower below) property
        (.property (.identifier rule.callback) value property.span) →
      isReachable limit rule.operation value = .ok answer →
      Reported rule limit filePath s
        (if answer then [] else [⟨filePath, property.span, .notInvalidated⟩])

theorem Registers.reported (hs : rule.Registers s) (limit : Nat) (filePath : String) :
    Reported rule limit filePath s (rule.own limit filePath s) := by
  have hhook : rule.namesHook s = true := namesHook_iff.mpr hs.callee
  rcases checkCallSite_cases rule limit s with
    ⟨hl, hc⟩ | ⟨kind, hl, -⟩ | ⟨callee, arguments, result, hl, hchecks, hc⟩
  · rw [own_of_site hs.call hhook hc]
    exact .tooDeep hl
  · obtain ⟨arguments, hn, -⟩ := hs.lowerCallSite hl
    cases hn
  · obtain ⟨_, hn, ha⟩ := hs.lowerCallSite hl
    obtain ⟨rfl, rfl, -⟩ := Node.call.inj hn
    rw [own_of_site hs.call hhook hc]
    cases hchecks with
    | stranger hne => exact absurd rfl hne
    | missingOptions _ hnone => exact .missing (registered?_of_missingOptions ha hnone _)
    | missingCallback _ hoptions hno => exact .missing (registered?_of_missingCallback ha hoptions hno)
    | @callback _ value place _ answer _ hoptions hbefore hanswer =>
      obtain ⟨property, below, hproperty, hentry⟩ := registered?_of_arguments ha hoptions hbefore
      obtain rfl := hentry.span_eq
      have hreported : Reported rule limit filePath s _ := .callback hproperty hentry hanswer
      cases answer <;> exact hreported

theorem Registers.spelled (hs : rule.Registers s) (h : rule.own limit filePath s = []) :
    ∃ property value, s.registered? rule.callback = some property ∧
      property.propertyValue? = some value ∧ value.HasCall ∧ value.Mentions rule.operation := by
  have hreported := hs.reported limit filePath
  rw [h] at hreported
  generalize hnil : ([] : List Diagnostic) = list at hreported
  cases hreported with
  | tooDeep | missing => cases hnil
  | @callback property _ _ answer hproperty hentry hanswer =>
    cases answer with
    | false => cases hnil
    | true =>
      obtain ⟨value, hvalue, hspelled⟩ :=
        hentry.value_of_reachable (fun _ _ => Tree.lower_traced) hanswer
      exact ⟨property, value, hproperty, hvalue, hspelled⟩

end Rule

/-- No registration passes in silence. In a tree in which calls are named nodes, as a parser gives
them, every call of the hook is visited; each visited registration, with whatever stands around it,
gets its place in the list of reports; and if it is left without one, the first property under the name
of the callback in its options holds a call and an identifier spelled like the operation. -/
theorem no_silent_pass (rule : Rule) (limit : Nat) (filePath : String) (t : Tree) :
    (t.CallsNamed → ∀ s : Tree, s.Below t → rule.Registers s → ∃ p, t.at? p = some s) ∧
    ∀ p s, t.at? p = some s → rule.Registers s →
      (∃ before after, t.occurrences = before ++ (p, s) :: after ∧
        p ∉ (before ++ after).map Prod.fst ∧
        rule.checkTree limit filePath t =
          .ok (before.flatMap (fun o => rule.own limit filePath o.2) ++
            rule.own limit filePath s ++ after.flatMap (fun o => rule.own limit filePath o.2))) ∧
      (rule.own limit filePath s = [] → ∃ property value,
        s.registered? rule.callback = some property ∧ property.propertyValue? = some value ∧
        value.HasCall ∧ value.Mentions rule.operation) ∧
      ((∀ property value, s.registered? rule.callback = some property →
          property.propertyValue? = some value → ¬ value.Mentions rule.operation) →
        ∃ report, rule.own limit filePath s = [report]) := by
  refine ⟨fun ht s hs hr => ht.exists_at? hs hr.call,
    fun p s hp hs => ⟨?_, hs.spelled, fun hno => ?_⟩⟩
  · obtain ⟨before, after, hsplit⟩ := List.append_of_mem (Tree.mem_occurrences.mpr hp)
    have hnodup := t.nodup_positions
    refine ⟨before, after, hsplit, ?_, ?_⟩
    · rw [hsplit, List.map_append, List.map_cons] at hnodup
      rw [List.map_append]
      exact (List.nodup_middle.mp hnodup).notMem
    · rw [Rule.checkTree_eq_ok, Rule.listing, Tree.gather_eq_occurrences, hsplit]
      simp
  · cases hown : rule.own limit filePath s with
    | nil =>
      obtain ⟨property, value, hproperty, hvalue, -, hmentions⟩ := hs.spelled hown
      exact absurd hmentions (hno property value hproperty hvalue)
    | cons report rest =>
      have hlength := rule.length_own_le limit filePath s
      have hrest : rest = [] := by simpa [hown] using hlength
      exact ⟨report, by rw [hrest]⟩

/-- A callback written as a property of the options, with this body. -/
def onSuccess (body : Tree) : Tree :=
  lineNode "pair" none 13 38 "" [lineNode "property_identifier" (some "key") 13 22 "onSuccess" [],
    lineNode "arrow_function" (some "value") 24 38 "" [body]]

def registering (body : Tree) : Tree :=
  bareSite 0 40 [lineNode "arguments" (some "arguments") 11 40 ""
    [lineNode "object" none 12 39 "" [onSuccess body]]]

/-- The call `q.invalidateQueries()`. -/
def invalidation : Tree :=
  lineNode "call_expression" (some "body") 30 38 ""
    [lineNode "member_expression" (some "function") 30 36 ""
      [lineNode "identifier" (some "object") 30 31 "q" [],
        lineNode "property_identifier" (some "property") 32 36 "invalidateQueries" []],
      lineNode "arguments" (some "arguments") 36 38 "" []]

/-- Two registrations of which only the first reaches the operation. -/
def twoSites : Tree :=
  lineNode "program" none 0 90 ""
    [registering invalidation, registering (lineNode "identifier" (some "body") 30 34 "noop" [])]

theorem registering_registers (body : Tree) : ({} : Rule).Registers (registering body) where
  call := rfl
  callee := ⟨_, rfl, rfl, rfl⟩
  untagged list hlist := by
    obtain rfl := Option.some.inj hlist
    exact (by decide : "arguments" ≠ "template_string")

theorem registered?_registering (body : Tree) :
    (registering body).registered? "onSuccess" = some (onSuccess body) := by
  have hbare : (lineNode "object" none 12 39 "" [onSuccess body]).bare = _ :=
    Tree.bare_of_kind_ne (by decide : "object" ≠ "parenthesized_expression")
  have hoptions : (registering body).options? =
      ([lineNode "object" none 12 39 "" [onSuccess body]].map Tree.bare).find?
        (·.kind == "object") := rfl
  rw [Tree.registered?, hoptions, List.map_singleton, hbare]
  rfl

theorem callsNamed_lineNode {kind text : String} {field : Option String} {start stop : Nat}
    {children : List Tree} : (lineNode kind field start stop text children).CallsNamed ↔
      ∀ c ∈ children, c.CallsNamed := by
  constructor
  · intro h c hc s hs
    exact h s (.inside hc hs)
  · intro h s hs hnamed
    cases hs with
    | here => cases hnamed
    | inside hc hs => exact h _ hc s hs hnamed

theorem first_quiet_second_reported :
    twoSites.CallsNamed ∧ (∃ p, twoSites.at? p = some (registering invalidation)) ∧
    (∃ property value, (registering invalidation).registered? "onSuccess" = some property ∧
      property.propertyValue? = some value ∧ value.HasCall ∧ value.Mentions "invalidateQueries") ∧
    ∃ report, ({} : Rule).own 400 "a.js"
      (registering (lineNode "identifier" (some "body") 30 34 "noop" [])) = [report] := by
  have hcalls : twoSites.CallsNamed := by
    simp [twoSites, registering, bareSite, onSuccess, invalidation, callsNamed_lineNode]
  obtain ⟨hvisited, h⟩ := no_silent_pass {} 400 "a.js" twoSites
  refine ⟨hcalls, hvisited hcalls _ (.inside List.mem_cons_self .here) (registering_registers _),
    (h [0] _ rfl (registering_registers _)).2.1 rfl,
    (h [1] _ rfl (registering_registers _)).2.2 fun property value hp hv => ?_⟩
  obtain rfl := Option.some.inj ((registered?_registering _).symm.trans hp)
  obtain rfl := Option.some.inj hv
  rintro ⟨s, hs, hkind, htext⟩
  cases hs with
  | here => exact absurd hkind (by decide)
  | inside hc hs =>
    obtain rfl := List.mem_singleton.mp hc
    cases hs with
    | here => exact absurd htext (by decide)
    | inside hd _ => cases hd

end StaleQuery
