import Mathlib.Data.List.Forall2
import StaleQuery.Model.Lowering
import StaleQuery.Proofs.Model.WellFormed

/-!
# What lowering can give

One level of lowering is taken apart once, into one case for each shape of result. Every fact about
lowered models follows from these cases; the first is that they are well-formed.
-/
namespace StaleQuery

theorem bind_return {α β : Type} {x : Option α} {f : α → β} {b : β} :
    (x >>= fun a => pure (f a)) = some b ↔ ∃ a, x = some a ∧ f a = b := by
  cases x <;> simp

theorem bind_return₂ {α β γ : Type} {x : Option α} {y : Option β} {f : α → β → γ} {c : γ} :
    (x >>= fun a => y >>= fun b => pure (f a b)) = some c ↔
      ∃ a, x = some a ∧ ∃ b, y = some b ∧ f a b = c := by
  cases x <;> cases y <;> simp

theorem mapM_eq_some {α β : Type} {f : α → Option β} {l : List α} {r : List β}
    (h : l.mapM f = some r) : List.Forall₂ (fun a b => f a = some b) l r := by
  induction l generalizing r with
  | nil =>
    obtain rfl : [] = r := by simpa using h
    exact .nil
  | cons a l ih =>
    rw [List.mapM_cons] at h
    obtain ⟨b, hb, s, hs, rfl⟩ := bind_return₂.mp h
    exact .cons hb (ih hs)

theorem exists_of_mem_forall₂ {α β : Type} {R : α → β → Prop} {l : List α} {r : List β}
    (h : List.Forall₂ R l r) {b : β} (hb : b ∈ r) : ∃ a ∈ l, R a b := by
  induction h with
  | nil => cases hb
  | cons h _ ih =>
    rcases List.mem_cons.mp hb with rfl | hb
    · exact ⟨_, List.mem_cons_self, h⟩
    · obtain ⟨a, ha, h⟩ := ih hb
      exact ⟨a, List.mem_cons_of_mem _ ha, h⟩

namespace Lowering

/-- What a call comes to when it is looked at directly. -/
inductive Calls (lower : Lower) (t : Tree) : Node → Prop where
  | sealed (kind) : Calls lower t (.sealed kind)
  | call {callee m arguments} : t.child? "function" = some callee → lower callee = some m →
      Lowering.arguments lower (t.child? "arguments") = some arguments →
      Calls lower t (.call m arguments t.span)

inductive Functions (lower : Lower) (t : Tree) : Node → Prop where
  | sealed (kind) : Functions lower t (.sealed kind)
  | function {body m} : t.child? "body" = some body → lower body = some m →
      Functions lower t (.function m)

/-- The field under which an access has the name that it asks for. -/
def accessField? : Form → Option String
  | .member => some "property"
  | .subscript => some "index"
  | _ => none

/-- What a node comes to, with the nodes below that go into it. -/
inductive Lowers (lower : Lower) (t : Tree) : Node → Prop where
  | sealed (kind) : Lowers lower t (.sealed kind)
  | identifier : t.form = .identifier → Lowers lower t (.identifier t.text)
  | parenthesized {inner n} : t.form = .parenthesized → t.operand? = some inner →
      lower inner = some n → Lowers lower t n
  | member {field receiver name m n} : accessField? t.form = some field →
      t.child? "object" = some receiver → t.child? field = some name → lower receiver = some m →
      lower name = some n → Lowers lower t (.member m n)
  | call {n} : t.form = .call → Calls lower t n → Lowers lower t n
  | await {inner m} : t.operand? = some inner → lower inner = some m → Lowers lower t (.await m)
  | block {body} : List.Forall₂ (fun s n => lower s = some n) t.operands body →
      Lowers lower t (.block body)
  | expressionStatement {inner m} : t.operand? = some inner → lower inner = some m →
      Lowers lower t (.expressionStatement m)
  | conditional {consequence m n} : t.child? "consequence" = some consequence →
      lower consequence = some m → optional lower (alternative t) = some n →
      Lowers lower t (.conditional m n)
  | tryCatch {body m n} : t.child? "body" = some body → lower body = some m →
      handler lower (t.child? "handler") = some n → Lowers lower t (.tryCatch m n)
  | catchClause {body m} : t.child? "body" = some body → lower body = some m →
      Lowers lower t (.catchClause m)
  | declaration {list} :
      List.Forall₂ (fun d n => declarator lower d = some n) (t.operands.filter isDeclarator) list →
      Lowers lower t (.declaration list)
  | declarator {n} : Lowering.declarator lower t = some n → Lowers lower t n
  | objectPattern {list} : entries (patternEntry lower) t = some list →
      Lowers lower t (.objectPattern list)
  | object {list} : t.form = .object → entries (objectEntry lower) t = some list →
      Lowers lower t (.object list)
  | function {n} : Functions lower t n → Lowers lower t n

variable {lower : Lower} {t : Tree} {n : Node}

theorem calls_of_call (h : call lower t = some n) : Calls lower t n := by
  simp only [call] at h
  split at h
  · obtain rfl := Option.some.inj h
    exact .sealed _
  · split at h
    · obtain rfl := Option.some.inj h
      exact .sealed _
    · simp only [Option.bind_eq_bind, Option.bind_eq_some_iff, Option.pure_def,
        Option.some.injEq] at h
      obtain ⟨m, hm, arguments, ha, rfl⟩ := h
      exact .call ‹_› hm ha

theorem functions_of_function (h : function lower t = some n) : Functions lower t n := by
  simp only [function] at h
  split at h
  · obtain rfl := Option.some.inj h
    exact .sealed _
  · simp only [Option.bind_eq_bind, Option.bind_eq_some_iff, Option.pure_def,
      Option.some.injEq] at h
    obtain ⟨m, hm, rfl⟩ := h
    exact .function ‹_› hm

theorem wrap_eq_some {make : Node → Node} (h : wrap lower t make = some n) :
    n = .sealed t.kind ∨ ∃ inner m, t.operand? = some inner ∧ lower inner = some m ∧ n = make m := by
  simp only [wrap] at h
  split at h
  · exact Or.inl (Option.some.inj h).symm
  · simp only [Option.bind_eq_bind, Option.bind_eq_some_iff, Option.pure_def,
      Option.some.injEq] at h
    obtain ⟨m, hm, rfl⟩ := h
    exact Or.inr ⟨_, m, ‹_›, hm, rfl⟩

theorem lowers_of_access {field : String} (hfield : accessField? t.form = some field)
    (h : access lower t field = some n) : Lowers lower t n := by
  simp only [access] at h
  split at h
  · simp only [Option.bind_eq_bind, Option.bind_eq_some_iff, Option.pure_def,
      Option.some.injEq] at h
    obtain ⟨m, hm, k, hk, rfl⟩ := h
    exact .member hfield ‹_› ‹_› hm hk
  · obtain rfl := Option.some.inj h
    exact .sealed _

theorem lowers_of_level (h : level lower t = some n) : Lowers lower t n := by
  simp only [level] at h
  split at h
  · obtain rfl := Option.some.inj h
    exact .sealed _
  cases hf : t.form <;> simp only [hf] at h
  case identifier =>
    obtain rfl := Option.some.inj h
    exact .identifier hf
  case parenthesized =>
    rcases wrap_eq_some h with rfl | ⟨inner, m, hi, hm, rfl⟩
    · exact .sealed _
    · exact .parenthesized hf hi hm
  case member => exact lowers_of_access (by rw [hf]; rfl) h
  case subscript => exact lowers_of_access (by rw [hf]; rfl) h
  case call => exact .call hf (calls_of_call h)
  case await =>
    rcases wrap_eq_some h with rfl | ⟨inner, m, hi, hm, rfl⟩
    · exact .sealed _
    · exact .await hi hm
  case block =>
    obtain ⟨body, hb, rfl⟩ := bind_return.mp h
    exact .block (mapM_eq_some hb)
  case expressionStatement =>
    rcases wrap_eq_some h with rfl | ⟨inner, m, hi, hm, rfl⟩
    · exact .sealed _
    · exact .expressionStatement hi hm
  case conditional =>
    simp only [conditional] at h
    split at h
    · obtain rfl := Option.some.inj h
      exact .sealed _
    · simp only [Option.bind_eq_bind, Option.bind_eq_some_iff, Option.pure_def,
        Option.some.injEq] at h
      obtain ⟨m, hm, k, hk, rfl⟩ := h
      exact .conditional ‹_› hm hk
  case tryCatch =>
    simp only [tryCatch] at h
    split at h
    · obtain rfl := Option.some.inj h
      exact .sealed _
    · simp only [Option.bind_eq_bind, Option.bind_eq_some_iff, Option.pure_def,
        Option.some.injEq] at h
      obtain ⟨m, hm, k, hk, rfl⟩ := h
      exact .tryCatch ‹_› hm hk
  case catchClause =>
    simp only [catchClause] at h
    split at h
    · obtain rfl := Option.some.inj h
      exact .sealed _
    · simp only [Option.bind_eq_bind, Option.bind_eq_some_iff, Option.pure_def,
        Option.some.injEq] at h
      obtain ⟨m, hm, rfl⟩ := h
      exact .catchClause ‹_› hm
  case declaration =>
    obtain ⟨list, hl, rfl⟩ := bind_return.mp h
    exact .declaration (mapM_eq_some hl)
  case declarator => exact .declarator h
  case objectPattern =>
    obtain ⟨list, hl, rfl⟩ := bind_return.mp h
    exact .objectPattern hl
  case object =>
    obtain ⟨list, hl, rfl⟩ := bind_return.mp h
    exact .object hf hl
  case function => exact .function (functions_of_function h)
  case other =>
    obtain rfl := Option.some.inj h
    exact .sealed _

theorem optional_eq_some {o : Option Tree} (h : optional lower o = some n) :
    n = .absent ∨ ∃ c, o = some c ∧ lower c = some n := by
  cases o with
  | none => exact Or.inl (Option.some.inj h).symm
  | some c => exact Or.inr ⟨c, rfl, h⟩

theorem value_eq_some {o : Option Tree} (h : value lower o = some n) :
    n = .sealed "missing_value" ∨ ∃ c, o = some c ∧ lower c = some n := by
  cases o with
  | none => exact Or.inl (Option.some.inj h).symm
  | some c => exact Or.inr ⟨c, rfl, h⟩

theorem handler_eq_some {o : Option Tree} (h : handler lower o = some n) :
    n = .absent ∨ ∃ c body m, o = some c ∧ c.child? "body" = some body ∧ lower body = some m ∧
      n = .catchClause m := by
  cases o with
  | none => exact Or.inl (Option.some.inj h).symm
  | some c =>
    simp only [handler] at h
    split at h
    · exact Or.inl (Option.some.inj h).symm
    · obtain ⟨m, hm, rfl⟩ := bind_return.mp h
      exact Or.inr ⟨c, _, m, rfl, ‹_›, hm, rfl⟩

theorem arguments_eq_some {o : Option Tree} {list : List Node}
    (h : arguments lower o = some list) :
    list = [] ∨ ∃ c, o = some c ∧ c.kind = "arguments" ∧
      List.Forall₂ (fun s n => lower s = some n) c.operands list := by
  cases o with
  | none => exact Or.inl (Option.some.inj h).symm
  | some c =>
    simp only [arguments] at h
    split at h
    · exact Or.inr ⟨c, rfl, ‹_›, mapM_eq_some h⟩
    · exact Or.inl (Option.some.inj h).symm

theorem isKey_key (o : Option Tree) : (key o).IsKey := by
  simp only [key]
  repeat' split
  all_goals trivial

theorem form_of_kind {c : Tree} {kind : String} {form : Form} (hkind : c.kind = kind)
    (hform : Form.ofKind kind = form) : c.form = form := by
  rw [Tree.form, hkind, hform]

/-- A key by name is spelled by an identifier: the node itself, or the one in its brackets. -/
theorem key_eq_identifier {o : Option Tree} {name : String} (h : key o = .identifier name) :
    ∃ c, o = some c ∧ ((c.form = .identifier ∧ c.text = name) ∨
      ∃ inner, c.operand? = some inner ∧ inner.form = .identifier ∧ inner.text = name) := by
  cases o with
  | none => cases h
  | some c =>
    refine ⟨c, rfl, ?_⟩
    simp only [key] at h
    split at h
    case h_4 =>
      split at h
      · split at h
        · rename_i inner hinner hkind
          exact Or.inr ⟨inner, hinner, form_of_kind hkind rfl, by simpa using h⟩
        · cases h
      · cases h
    case h_5 => cases h
    all_goals
      rename_i hkind
      exact Or.inl ⟨form_of_kind hkind rfl, by simpa using h⟩

inductive PatternEntry (lower : Lower) (c : Tree) : Node → Prop where
  | shorthand : c.form = .identifier →
      PatternEntry lower c (.patternProperty (.identifier c.text) (.identifier c.text))
  | pair {field v} : value lower (c.child? "value") = some v →
      PatternEntry lower c (.patternProperty (key (c.child? field)) v)
  | withDefault {field kind} :
      PatternEntry lower c (.patternProperty (key (c.child? field)) (.sealed kind))

/-- What an entry of a literal is made of: the tree that its value is lowered from is `v` where
there is one. -/
inductive ObjectEntry (lower : Lower) (c : Tree) : Node → Prop where
  | pair {v} : c.kind = "pair" → value lower (c.child? "value") = some v →
      ObjectEntry lower c (.property (key (c.child? "key")) v c.span)
  | shorthand : c.kind = "shorthand_property_identifier" →
      ObjectEntry lower c (.property (.identifier c.text) (.identifier c.text) c.span)
  | method {v} : c.kind = "method_definition" → Functions lower c v →
      ObjectEntry lower c (.property (key (c.child? "name")) v c.span)

theorem patternEntry_of_some {c : Tree} (h : patternEntry lower c = some (some n)) :
    PatternEntry lower c n := by
  simp only [patternEntry] at h
  split at h
  · rename_i hkind
    obtain rfl := Option.some.inj (Option.some.inj h)
    exact .shorthand (form_of_kind hkind rfl)
  · obtain ⟨v, hv, h⟩ := bind_return.mp h
    obtain rfl := Option.some.inj h
    exact .pair hv
  · obtain rfl := Option.some.inj (Option.some.inj h)
    exact .withDefault
  · cases h

theorem objectEntry_of_some {c : Tree} (h : objectEntry lower c = some (some n)) :
    ObjectEntry lower c n := by
  simp only [objectEntry] at h
  split at h
  · obtain ⟨v, hv, h⟩ := bind_return.mp h
    obtain rfl := Option.some.inj h
    exact .pair ‹_› hv
  · obtain rfl := Option.some.inj (Option.some.inj h)
    exact .shorthand ‹_›
  · obtain ⟨v, hv, h⟩ := bind_return.mp h
    obtain rfl := Option.some.inj h
    exact .method ‹_› (functions_of_function hv)
  · cases h

theorem mem_entries {entry : Tree → Option (Option Node)} {list : List Node}
    (h : entries entry t = some list) (hn : n ∈ list) :
    ∃ c ∈ t.operands, entry c = some (some n) := by
  obtain ⟨found, hfound, rfl⟩ := bind_return.mp h
  obtain ⟨o, ho, hid⟩ := List.mem_filterMap.mp hn
  obtain rfl : o = some n := hid
  exact exists_of_mem_forall₂ (mapM_eq_some hfound) ho

theorem declarator_eq_some (h : declarator lower t = some n) :
    (t.child? "name" = none ∧ n = .sealed t.kind) ∨
      ∃ target m k, t.child? "name" = some target ∧ lower target = some m ∧
        optional lower (t.child? "value") = some k ∧ n = .declarator m k := by
  simp only [declarator] at h
  split at h
  · exact Or.inl ⟨‹_›, (Option.some.inj h).symm⟩
  · obtain ⟨m, hm, k, hk, rfl⟩ := bind_return₂.mp h
    exact Or.inr ⟨_, m, k, ‹_›, hm, hk, rfl⟩

/-- A declarator that names its target is one in the model too. -/
theorem isDeclarator_of_declarator (ht : isDeclarator t) (h : declarator lower t = some n) :
    n.IsDeclarator := by
  rcases declarator_eq_some h with ⟨hnone, -⟩ | ⟨_, _, _, _, _, _, rfl⟩
  · simp [isDeclarator, hnone] at ht
  · trivial

theorem Functions.wellFormed (hl : ∀ t n, lower t = some n → n.WellFormed)
    (h : Functions lower t n) : n.WellFormed := by
  cases h with
  | «sealed» kind => exact .sealed kind
  | function _ hm => exact .function (hl _ _ hm)

theorem Calls.wellFormed (hl : ∀ t n, lower t = some n → n.WellFormed) (h : Calls lower t n) :
    n.WellFormed := by
  cases h with
  | «sealed» kind => exact .sealed kind
  | call _ hm ha =>
    apply Node.WellFormed.call (hl _ _ hm)
    intro a hmem
    rcases arguments_eq_some ha with rfl | ⟨c, -, -, hall⟩
    · cases hmem
    · obtain ⟨s, -, hs⟩ := exists_of_mem_forall₂ hall hmem
      exact hl s a hs

theorem wellFormed_of_declarator (hl : ∀ t n, lower t = some n → n.WellFormed)
    (h : declarator lower t = some n) : n.WellFormed := by
  rcases declarator_eq_some h with ⟨-, rfl⟩ | ⟨target, m, k, -, hm, hk, rfl⟩
  · exact .sealed _
  · rcases optional_eq_some hk with rfl | ⟨c, -, hc⟩
    · exact .declaratorOnly (hl _ _ hm)
    · exact .declarator (hl _ _ hm) (hl _ _ hc)

theorem wellFormed_of_value (hl : ∀ t n, lower t = some n → n.WellFormed) {o : Option Tree}
    (h : value lower o = some n) : n.WellFormed := by
  rcases value_eq_some h with rfl | ⟨c, -, hc⟩
  · exact .sealed _
  · exact hl _ _ hc

/-- Every case keeps models well-formed if the level below does. -/
theorem Lowers.wellFormed (hl : ∀ t n, lower t = some n → n.WellFormed) (h : Lowers lower t n) :
    n.WellFormed := by
  have list : ∀ {l : List Tree} {r : List Node}, List.Forall₂ (fun s n => lower s = some n) l r →
      ∀ n ∈ r, n.WellFormed := by
    intro l r hall n hn
    obtain ⟨s, -, hs⟩ := exists_of_mem_forall₂ hall hn
    exact hl s n hs
  cases h with
  | «sealed» kind => exact .sealed kind
  | identifier => exact .identifier _
  | parenthesized _ _ hm => exact hl _ _ hm
  | member _ _ _ hm hk => exact .member (hl _ _ hm) (hl _ _ hk)
  | call _ hc => exact hc.wellFormed hl
  | await _ hm => exact .await (hl _ _ hm)
  | block hall => exact .block (list hall)
  | expressionStatement _ hm => exact .expressionStatement (hl _ _ hm)
  | conditional _ hm hk =>
    rcases optional_eq_some hk with rfl | ⟨c, -, hc⟩
    · exact .conditional (hl _ _ hm)
    · exact .conditionalElse (hl _ _ hm) (hl _ _ hc)
  | tryCatch _ hm hk =>
    rcases handler_eq_some hk with rfl | ⟨c, body, k, -, -, hbody, rfl⟩
    · exact .tryOnly (hl _ _ hm)
    · exact .tryCatch (hl _ _ hm) (.catchClause (hl _ _ hbody))
  | catchClause _ hm => exact .catchClause (hl _ _ hm)
  | declaration hall =>
    apply Node.WellFormed.declaration
    · intro d hd
      obtain ⟨s, hs, hd⟩ := exists_of_mem_forall₂ hall hd
      exact isDeclarator_of_declarator (List.mem_filter.mp hs).2 hd
    · intro d hd
      obtain ⟨s, -, hd⟩ := exists_of_mem_forall₂ hall hd
      exact wellFormed_of_declarator hl hd
  | declarator hd => exact wellFormed_of_declarator hl hd
  | objectPattern he =>
    apply Node.WellFormed.objectPattern
    · intro p hp
      obtain ⟨c, -, hc⟩ := mem_entries he hp
      cases patternEntry_of_some hc with
      | shorthand => exact ⟨_, _, rfl, trivial⟩
      | pair | withDefault => exact ⟨_, _, rfl, isKey_key _⟩
    · intro k v hp
      obtain ⟨c, -, hc⟩ := mem_entries he hp
      cases patternEntry_of_some hc with
      | shorthand => exact .identifier _
      | pair hv => exact wellFormed_of_value hl hv
      | withDefault => exact .sealed _
  | object _ he =>
    apply Node.WellFormed.object
    · intro p hp
      obtain ⟨c, -, hc⟩ := mem_entries he hp
      cases objectEntry_of_some hc with
      | shorthand => exact ⟨_, _, _, rfl, trivial⟩
      | pair | method => exact ⟨_, _, _, rfl, isKey_key _⟩
    · intro k v span hp
      obtain ⟨c, -, hc⟩ := mem_entries he hp
      cases objectEntry_of_some hc with
      | shorthand => exact .identifier _
      | pair _ hv => exact wellFormed_of_value hl hv
      | method _ hf => exact hf.wellFormed hl
  | function hf => exact hf.wellFormed hl

end Lowering

/-- Whatever the tree, a model that is lowered from it is well-formed. -/
theorem Tree.lower_wellFormed {limit : Nat} {t : Tree} {n : Node} (h : t.lower limit = some n) :
    n.WellFormed := by
  induction limit generalizing t n with
  | zero => cases h
  | succ limit ih => exact (Lowering.lowers_of_level h).wellFormed fun t n => ih

theorem Tree.lowerCallSite_wellFormed {limit : Nat} {t : Tree} {n : Node}
    (h : t.lowerCallSite limit = some n) : n.WellFormed :=
  (Lowering.calls_of_call h).wellFormed fun _ _ => Tree.lower_wellFormed

end StaleQuery
