import StaleQuery.Proofs.Model.Lowering
import StaleQuery.Proofs.Model.Search

/-!
# Where models come from

Every name and every call of a model is spelled in the tree that it was lowered from. A search that
succeeds has met the name of its operation and a call in the model, and so they stand in the tree.
-/
namespace StaleQuery

namespace Node

/-- The nodes directly inside a node, searched or not. -/
def parts : Node → List Node
  | member first second | conditional first second | tryCatch first second
  | patternProperty first second | declarator first second | property first second _ =>
    [first, second]
  | call callee arguments _ => callee :: arguments
  | await inner | expressionStatement inner | function inner | catchClause inner => [inner]
  | block list | objectPattern list | declaration list | object list => list
  | absent | identifier _ | sealed _ => []

inductive Occurs (m : Node) : Node → Prop where
  | here : Occurs m m
  | inside {n p} : p ∈ n.parts → Occurs m p → Occurs m n

theorem searched_subset_parts (n : Node) : ∀ m ∈ n.searched, m ∈ n.parts := by
  intro m hm
  cases n with
  | declarator target init => exact List.mem_cons_of_mem _ hm
  | absent | identifier | patternProperty | objectPattern | property | object | «sealed» => cases hm
  | _ => exact hm

end Node

namespace Search

variable {operation : String}

theorem patternAliases_nil {list : List Node}
    (h : ∀ p ∈ list, ¬ (Node.identifier operation).Occurs p) :
    patternAliases operation list [] = .ok [] ∨ ∃ fault,
      patternAliases operation list [] = .error fault := by
  induction list with
  | nil => exact Or.inl rfl
  | cons p rest ih =>
    have hrest := ih fun q hq => h q (List.mem_cons_of_mem _ hq)
    simp only [patternAliases]
    split
    · exact Or.inr ⟨_, rfl⟩
    · rename_i key value hentry
      have hkey : key.isIdentifier operation = false := by
        refine Bool.eq_false_iff.mpr fun hkey => h p List.mem_cons_self ?_
        obtain rfl := Node.isIdentifier_iff.mp hkey
        cases p <;> simp only [Node.entry?, reduceCtorEq, Option.some.injEq, Prod.mk.injEq] at hentry
        all_goals
          obtain ⟨rfl, rfl⟩ := hentry
          exact .inside List.mem_cons_self .here
      simpa [hkey] using hrest

theorem directAlias_nil {target init : Node} (h : ¬ (Node.identifier operation).Occurs init) :
    directAlias operation target init [] = [] := by
  simp only [directAlias]
  split
  · rename_i property _
    have hproperty : property.isIdentifier operation = false := by
      refine Bool.eq_false_iff.mpr fun hp => h ?_
      obtain rfl := Node.isIdentifier_iff.mp hp
      exact .inside (by simp [Node.parts]) .here
    simp [hproperty]
  · simp
  · rfl

/-- Where the name of the operation does not occur, no name ever becomes an alias of it. -/
theorem enter_without_name {n : Node} (h : ¬ (Node.identifier operation).Occurs n) :
    (enter operation n []).Ends False (· = []) True := by
  cases n with
  | declarator target init =>
    have hinit : ¬ (Node.identifier operation).Occurs init := fun ho =>
      h (.inside (by simp [Node.parts]) ho)
    have htarget : ¬ (Node.identifier operation).Occurs target := fun ho =>
      h (.inside (by simp [Node.parts]) ho)
    simp only [enter, collectAliases, directAlias_nil hinit]
    cases target with
    | objectPattern list =>
      have hlist : ∀ p ∈ list, ¬ (Node.identifier operation).Occurs p := fun p hp ho =>
        htarget (.inside hp ho)
      rcases patternAliases_nil hlist with hok | ⟨fault, hfault⟩
      · simp [hok, Outcome.Ends]
      · simp [hfault, Outcome.Ends]
    | _ => rfl
  | call callee arguments span =>
    have hcallee : matchesCallee operation [] callee = false := by
      cases callee with
      | member receiver name =>
        refine Bool.eq_false_iff.mpr fun hname => h ?_
        obtain rfl := Node.isIdentifier_iff.mp hname
        exact .inside List.mem_cons_self (.inside (by simp [Node.parts]) .here)
      | identifier | _ => rfl
    simp [enter, hcallee, Outcome.Ends]
  | _ => rfl

theorem enter_without_call {n : Node} (h : ∀ callee arguments span, n ≠ .call callee arguments span)
    (aliases : Aliases) : (enter operation n aliases).Ends False (fun _ => True) True := by
  cases n with
  | declarator target init =>
    simp only [enter]
    split <;> trivial
  | call callee arguments span => exact absurd rfl (h callee arguments span)
  | _ => trivial

end Search

/-- A search that succeeds has met the name of the operation and a call. -/
theorem occurs_of_reachable {limit : Nat} {operation : String} {n : Node}
    (h : isReachable limit operation n = .ok true) :
    (Node.identifier operation).Occurs n ∧
      ∃ callee arguments span, (Node.call callee arguments span).Occurs n := by
  have hfound := isReachable_eq_true_iff.mp h
  constructor
  · by_contra hno
    have hends : (search operation limit n []).Ends False (· = []) True := by
      refine search_ends (fun n => ¬ (Node.identifier operation).Occurs n) ?_ ?_ hno rfl
      · exact fun n hn m hm ho => hn (.inside (n.searched_subset_parts m hm) ho)
      · rintro n _ hn rfl
        exact Search.enter_without_name hn
    simp [hfound, Outcome.Ends] at hends
  · by_contra hno
    push Not at hno
    have hends : (search operation limit n []).Ends False (fun _ => True) True := by
      refine search_ends
        (fun n => ∀ callee arguments span, ¬ (Node.call callee arguments span).Occurs n)
        ?_ ?_ hno trivial
      · exact fun n hn m hm c a s ho => hn c a s (.inside (n.searched_subset_parts m hm) ho)
      · exact fun n aliases hn _ =>
          Search.enter_without_call (fun c a s hc => hn c a s (hc ▸ .here)) aliases
    simp [hfound, Outcome.Ends] at hends

namespace Tree

/-- A node of a tree, at its root or anywhere below it. -/
inductive Below (s : Tree) : Tree → Prop where
  | here : Below s s
  | inside {t c} : c ∈ t.children → Below s c → Below s t

theorem Below.trans {r s t : Tree} (h : r.Below s) (k : s.Below t) : r.Below t := by
  induction k with
  | here => exact h
  | inside hc _ ih => exact .inside hc ih

def identifierKinds : List String :=
  ["identifier", "property_identifier", "shorthand_property_identifier",
    "shorthand_property_identifier_pattern"]

/-- Some identifier of the tree is spelled like this. -/
def Mentions (t : Tree) (name : String) : Prop :=
  ∃ s : Tree, s.Below t ∧ s.kind ∈ identifierKinds ∧ s.text = name

def HasCall (t : Tree) : Prop :=
  ∃ s : Tree, s.Below t ∧ s.kind = "call_expression"

variable {s t c : Tree}

theorem below_of_child? {field : String} (h : t.child? field = some c) : c.Below t :=
  .inside (List.mem_of_find?_eq_some h) .here

theorem below_of_mem_operands (h : c ∈ t.operands) : c.Below t := by
  have hnamed : c ∈ t.namedChildren := (List.mem_filter.mp h).1
  exact .inside (List.mem_filter.mp hnamed).1 .here

theorem below_of_operand? (h : t.operand? = some c) : c.Below t :=
  below_of_mem_operands (List.mem_of_mem_head? h)

theorem mem_identifierKinds (h : t.form = .identifier) : t.kind ∈ identifierKinds := by
  unfold form Form.ofKind at h
  split at h <;> simp_all [identifierKinds]

theorem kind_of_form_call (h : t.form = .call) : t.kind = "call_expression" := by
  unfold form Form.ofKind at h
  split at h <;> simp_all

/-- Everything in the model shows something in the tree. -/
def TracedBy (P : Tree → Node → Prop) (t : Tree) (n : Node) : Prop :=
  ∀ m, m.Occurs n → P t m

/-- Something that names and calls show where they are lowered, and still show in a larger tree.
Nothing is asked of other nodes. -/
structure Shows (lower : Lowering.Lower) (P : Tree → Node → Prop) : Prop where
  mono : ∀ {s t m}, P s m → s.Below t → P t m
  identifier : ∀ {t}, t.form = .identifier → P t (.identifier t.text)
  call : ∀ {t callee m} arguments span, t.kind = "call_expression" → t.inOptionalChain = false →
    t.child? "function" = some callee → lower callee = some m → P t (.call m arguments span)
  other : ∀ {t n}, (∀ name, n ≠ .identifier name) →
    (∀ callee arguments span, n ≠ .call callee arguments span) → P t n

/-- What a node of a model has to show in the tree. -/
def Source (t : Tree) : Node → Prop
  | .identifier name => t.Mentions name
  | .call .. => t.HasCall
  | _ => True

/-- Everything in the model has its source in the tree. -/
def Traced (t : Tree) (n : Node) : Prop :=
  ∀ m, m.Occurs n → t.Source m

theorem shows_source (lower : Lowering.Lower) : Shows lower Source where
  mono {_ _ m} h hs := by
    cases m with
    | identifier name =>
      obtain ⟨r, hr, hname⟩ := h
      exact ⟨r, hr.trans hs, hname⟩
    | call callee arguments span =>
      obtain ⟨r, hr, hcall⟩ := h
      exact ⟨r, hr.trans hs, hcall⟩
    | _ => trivial
  identifier {t} h := ⟨t, .here, mem_identifierKinds h, rfl⟩
  call {t _ _} _ _ hkind _ _ _ := ⟨t, .here, hkind⟩
  other {_ n} hname hcall := by
    cases n with
    | identifier name => exact absurd rfl (hname name)
    | call callee arguments span => exact absurd rfl (hcall callee arguments span)
    | _ => trivial

section

variable {lower : Lowering.Lower} {P : Tree → Node → Prop}

theorem TracedBy.mono {n : Node} (h : s.TracedBy P n) (hP : Shows lower P) (hs : s.Below t) :
    t.TracedBy P n :=
  fun m hm => hP.mono (h m hm) hs

theorem traced_of_parts {n : Node} (h : P t n) (hparts : ∀ p ∈ n.parts, t.TracedBy P p) :
    t.TracedBy P n := by
  intro m hm
  cases hm with
  | here => exact h
  | inside hp hm => exact hparts _ hp m hm

theorem traced_pair {n m k : Node} (hparts : n.parts = [m, k]) (h : P t n) (hm : t.TracedBy P m)
    (hk : t.TracedBy P k) : t.TracedBy P n := by
  apply traced_of_parts h
  intro p hp
  rw [hparts] at hp
  rcases List.mem_cons.mp hp with rfl | hp
  · exact hm
  · obtain rfl := List.mem_singleton.mp hp
    exact hk

theorem traced_one {n m : Node} (hparts : n.parts = [m]) (h : P t n) (hm : t.TracedBy P m) :
    t.TracedBy P n := by
  apply traced_of_parts h
  intro p hp
  rw [hparts] at hp
  obtain rfl := List.mem_singleton.mp hp
  exact hm

variable (hP : Shows lower P)
include hP

theorem traced_sealed (kind : String) : t.TracedBy P (.sealed kind) :=
  traced_of_parts (hP.other nofun nofun) fun _ hp => by cases hp

theorem traced_absent : t.TracedBy P .absent :=
  traced_of_parts (hP.other nofun nofun) fun _ hp => by cases hp

theorem traced_identifier (h : t.form = .identifier) : t.TracedBy P (.identifier t.text) :=
  traced_of_parts (hP.identifier h) fun _ hp => by cases hp

end

end Tree

namespace Lowering

variable {lower : Lower} {P : Tree → Node → Prop} (hP : Tree.Shows lower P) {t c : Tree} {n : Node}
include hP

theorem traced_key (field : String) : t.TracedBy P (key (t.child? field)) := by
  cases hk : key (t.child? field) with
  | identifier name =>
    obtain ⟨c, hc, ⟨hform, rfl⟩ | ⟨inner, hinner, hform, rfl⟩⟩ := key_eq_identifier hk
    · exact (Tree.traced_identifier hP hform).mono hP (Tree.below_of_child? hc)
    · exact (Tree.traced_identifier hP hform).mono hP
        ((Tree.below_of_operand? hinner).trans (Tree.below_of_child? hc))
  | «sealed» kind => exact Tree.traced_sealed hP kind
  | _ =>
    have := isKey_key (t.child? field)
    simp [hk, Node.IsKey] at this

section

variable (hl : ∀ t n, lower t = some n → t.TracedBy P n)
include hl

theorem traced_of_child? {field : String} (hc : t.child? field = some c) (h : lower c = some n) :
    t.TracedBy P n :=
  (hl c n h).mono hP (Tree.below_of_child? hc)

theorem traced_of_operand? (hc : t.operand? = some c) (h : lower c = some n) : t.TracedBy P n :=
  (hl c n h).mono hP (Tree.below_of_operand? hc)

theorem traced_of_operands {list : List Tree} {nodes : List Node} (hlist : ∀ c ∈ list, c ∈ t.operands)
    (h : List.Forall₂ (fun c n => lower c = some n) list nodes) : ∀ n ∈ nodes, t.TracedBy P n := by
  intro n hn
  obtain ⟨c, hc, h⟩ := exists_of_mem_forall₂ h hn
  exact (hl c n h).mono hP (Tree.below_of_mem_operands (hlist c hc))

theorem traced_of_value {field : String} (h : value lower (t.child? field) = some n) :
    t.TracedBy P n := by
  rcases value_eq_some h with rfl | ⟨c, hc, h⟩
  · exact Tree.traced_sealed hP _
  · exact traced_of_child? hP hl hc h

theorem traced_of_optional {field : String} (h : optional lower (t.child? field) = some n) :
    t.TracedBy P n := by
  rcases optional_eq_some h with rfl | ⟨c, hc, h⟩
  · exact Tree.traced_absent hP
  · exact traced_of_child? hP hl hc h

theorem traced_of_alternative (h : optional lower (alternative t) = some n) : t.TracedBy P n := by
  rcases optional_eq_some h with rfl | ⟨c, hc, h⟩
  · exact Tree.traced_absent hP
  · simp only [alternative] at hc
    split at hc
    · cases hc
    · rename_i a ha
      split at hc
      · exact (traced_of_operand? hP hl hc h).mono hP (Tree.below_of_child? ha)
      · obtain rfl := Option.some.inj hc
        exact traced_of_child? hP hl ha h

theorem traced_of_handler (h : handler lower (t.child? "handler") = some n) : t.TracedBy P n := by
  rcases handler_eq_some h with rfl | ⟨c, body, m, hc, hbody, hm, rfl⟩
  · exact Tree.traced_absent hP
  · exact Tree.traced_one rfl (hP.other nofun nofun)
      ((traced_of_child? hP hl hbody hm).mono hP (Tree.below_of_child? hc))

theorem traced_of_declarator (h : declarator lower t = some n) : t.TracedBy P n := by
  rcases declarator_eq_some h with ⟨-, rfl⟩ | ⟨target, m, k, htarget, hm, hk, rfl⟩
  · exact Tree.traced_sealed hP _
  · exact Tree.traced_pair rfl (hP.other nofun nofun) (traced_of_child? hP hl htarget hm)
      (traced_of_optional hP hl hk)

theorem Functions.traced (h : Functions lower t n) : t.TracedBy P n := by
  cases h with
  | «sealed» kind => exact Tree.traced_sealed hP kind
  | function hbody hm =>
    exact Tree.traced_one rfl (hP.other nofun nofun) (traced_of_child? hP hl hbody hm)

theorem Calls.traced (hkind : t.form = .call) (hchain : t.inOptionalChain = false)
    (h : Calls lower t n) : t.TracedBy P n := by
  cases h with
  | «sealed» kind => exact Tree.traced_sealed hP kind
  | call hcallee hm ha =>
    refine Tree.traced_of_parts
      (hP.call _ _ (Tree.kind_of_form_call hkind) hchain hcallee hm) fun p hp => ?_
    rcases List.mem_cons.mp hp with rfl | hp
    · exact traced_of_child? hP hl hcallee hm
    · rcases arguments_eq_some ha with rfl | ⟨list, hlist, -, hall⟩
      · cases hp
      · exact (traced_of_operands hP hl (fun _ h => h) hall p hp).mono hP (Tree.below_of_child? hlist)

theorem PatternEntry.traced (h : PatternEntry lower t n) : t.TracedBy P n := by
  cases h with
  | shorthand hform =>
    exact Tree.traced_pair rfl (hP.other nofun nofun) (Tree.traced_identifier hP hform)
      (Tree.traced_identifier hP hform)
  | pair hv =>
    exact Tree.traced_pair rfl (hP.other nofun nofun) (traced_key hP _) (traced_of_value hP hl hv)
  | withDefault =>
    exact Tree.traced_pair rfl (hP.other nofun nofun) (traced_key hP _) (Tree.traced_sealed hP _)

theorem ObjectEntry.traced (h : ObjectEntry lower t n) : t.TracedBy P n := by
  cases h with
  | pair _ hv =>
    exact Tree.traced_pair rfl (hP.other nofun nofun) (traced_key hP _) (traced_of_value hP hl hv)
  | shorthand hkind =>
    have hform : t.form = .identifier := form_of_kind hkind rfl
    exact Tree.traced_pair rfl (hP.other nofun nofun) (Tree.traced_identifier hP hform)
      (Tree.traced_identifier hP hform)
  | method _ hf =>
    exact Tree.traced_pair rfl (hP.other nofun nofun) (traced_key hP _) (hf.traced hP hl)

/-- Every case keeps models traced if the level below does. -/
theorem Lowers.traced (hchain : t.inOptionalChain = false) (h : Lowers lower t n) :
    t.TracedBy P n := by
  have other := @hP.other
  cases h with
  | «sealed» kind => exact Tree.traced_sealed hP kind
  | identifier hform => exact Tree.traced_identifier hP hform
  | parenthesized _ hi hm => exact traced_of_operand? hP hl hi hm
  | member _ hr hp hm hk =>
    exact Tree.traced_pair rfl (other nofun nofun) (traced_of_child? hP hl hr hm)
      (traced_of_child? hP hl hp hk)
  | call hform hc => exact hc.traced hP hl hform hchain
  | await hi hm | expressionStatement hi hm =>
    exact Tree.traced_one rfl (other nofun nofun) (traced_of_operand? hP hl hi hm)
  | block hall =>
    exact Tree.traced_of_parts (other nofun nofun) (traced_of_operands hP hl (fun _ h => h) hall)
  | conditional hc hm hk =>
    exact Tree.traced_pair rfl (other nofun nofun) (traced_of_child? hP hl hc hm)
      (traced_of_alternative hP hl hk)
  | tryCatch hb hm hk =>
    exact Tree.traced_pair rfl (other nofun nofun) (traced_of_child? hP hl hb hm)
      (traced_of_handler hP hl hk)
  | catchClause hb hm =>
    exact Tree.traced_one rfl (other nofun nofun) (traced_of_child? hP hl hb hm)
  | declaration hall =>
    refine Tree.traced_of_parts (other nofun nofun) fun d hd => ?_
    obtain ⟨s, hs, hd⟩ := exists_of_mem_forall₂ hall hd
    exact (traced_of_declarator hP hl hd).mono hP
      (Tree.below_of_mem_operands (List.mem_filter.mp hs).1)
  | declarator hd => exact traced_of_declarator hP hl hd
  | objectPattern he =>
    refine Tree.traced_of_parts (other nofun nofun) fun p hp => ?_
    obtain ⟨c, hc, hp⟩ := mem_entries he hp
    exact ((patternEntry_of_some hp).traced hP hl).mono hP (Tree.below_of_mem_operands hc)
  | object _ he =>
    refine Tree.traced_of_parts (other nofun nofun) fun p hp => ?_
    obtain ⟨c, hc, hp⟩ := mem_entries he hp
    exact ((objectEntry_of_some hp).traced hP hl).mono hP (Tree.below_of_mem_operands hc)
  | function hf => exact hf.traced hP hl

end

end Lowering

/-- What every name and every call shows where it is lowered, a model shows in its tree. -/
theorem Tree.lower_tracedBy {P : Tree → Node → Prop} (hP : ∀ limit, Shows (lower limit) P)
    {limit : Nat} {t : Tree} {n : Node} (h : t.lower limit = some n) : t.TracedBy P n := by
  induction limit generalizing t n with
  | zero => cases h
  | succ limit ih =>
    by_cases hchain : t.inOptionalChain = true
    · have hsealed : t.lower (limit + 1) = some (.sealed "chain_expression") := by
        simp only [lower, Lowering.level, hchain, if_true]
      obtain rfl := Option.some.inj (hsealed.symm.trans h)
      exact traced_sealed (hP limit) _
    · exact (Lowering.lowers_of_level h).traced (hP limit) (fun t n => ih) (by simpa using hchain)

/-- Names and calls of a model stand in the tree that it was lowered from. -/
theorem Tree.lower_traced {limit : Nat} {t : Tree} {n : Node} (h : t.lower limit = some n) :
    t.Traced n :=
  Tree.lower_tracedBy (fun limit => shows_source (lower limit)) h

end StaleQuery
