import Mathlib.Data.List.Forall2
import StaleQuery.Proofs.Model.Aliases

/-!
# Hiding code

A node shows more than another if it has arbitrary nodes in places where the other has a sealed node
or none, and further statements, arguments, declarators or entries of patterns between those of the
other. Two searches over two such nodes are compared step by step: the one that is shown more never
knows fewer aliases, so it never misses what the other finds.
-/
namespace StaleQuery

namespace Node

/-- The second node is the first with more of it shown. -/
inductive ExpandsTo : Node → Node → Prop where
  | absent (m) : ExpandsTo absent m
  | sealed (kind m) : ExpandsTo (sealed kind) m
  | identifier (name) : ExpandsTo (identifier name) (identifier name)
  | member {object object' property property'} : ExpandsTo object object' →
      ExpandsTo property property' → ExpandsTo (member object property) (member object' property')
  | call {callee callee' arguments arguments' span} : ExpandsTo callee callee' →
      List.SublistForall₂ ExpandsTo arguments arguments' →
      ExpandsTo (call callee arguments span) (call callee' arguments' span)
  | await {argument argument'} : ExpandsTo argument argument' →
      ExpandsTo (await argument) (await argument')
  | block {body body'} : List.SublistForall₂ ExpandsTo body body' →
      ExpandsTo (block body) (block body')
  | expressionStatement {e e'} : ExpandsTo e e' →
      ExpandsTo (expressionStatement e) (expressionStatement e')
  | function {body body'} : ExpandsTo body body' → ExpandsTo (function body) (function body')
  | conditional {consequent consequent' alternate alternate'} : ExpandsTo consequent consequent' →
      ExpandsTo alternate alternate' →
      ExpandsTo (conditional consequent alternate) (conditional consequent' alternate')
  | catchClause {body body'} : ExpandsTo body body' →
      ExpandsTo (catchClause body) (catchClause body')
  | tryCatch {block block' handler handler'} : ExpandsTo block block' →
      ExpandsTo handler handler' → ExpandsTo (tryCatch block handler) (tryCatch block' handler')
  | patternProperty {key key' value value'} : ExpandsTo key key' → ExpandsTo value value' →
      ExpandsTo (patternProperty key value) (patternProperty key' value')
  | objectPattern {entries entries'} : List.SublistForall₂ ExpandsTo entries entries' →
      ExpandsTo (objectPattern entries) (objectPattern entries')
  | declarator {target target' init init'} : ExpandsTo target target' → ExpandsTo init init' →
      ExpandsTo (declarator target init) (declarator target' init')
  | declaration {list list'} : List.SublistForall₂ ExpandsTo list list' →
      ExpandsTo (declaration list) (declaration list')
  | property {key key' value value' span} : ExpandsTo key key' → ExpandsTo value value' →
      ExpandsTo (property key value span) (property key' value' span)
  | object {entries entries'} : List.Forall₂ ExpandsTo entries entries' →
      ExpandsTo (object entries) (object entries')

variable {n m : Node}

theorem ExpandsTo.identifier_eq {name : String} (h : (Node.identifier name).ExpandsTo m) :
    m = .identifier name := by
  cases h
  rfl

/-- What is searched below the first node is searched below the second, in the same order. -/
theorem ExpandsTo.searched (h : n.ExpandsTo m) :
    List.SublistForall₂ ExpandsTo n.searched m.searched := by
  cases h with
  | absent | «sealed» | identifier | patternProperty | objectPattern | property | object =>
    exact .nil
  | await h | expressionStatement h | function h | catchClause h | declarator _ h =>
    exact .cons h .nil
  | member h k | conditional h k | tryCatch h k => exact .cons h (.cons k .nil)
  | block h | declaration h => exact h
  | call h ha => exact .cons h ha

end Node

theorem exists_of_mem_sublistForall₂ {α β : Type} {R : α → β → Prop} {l : List α} {r : List β}
    (h : List.SublistForall₂ R l r) {a : α} (ha : a ∈ l) : ∃ b ∈ r, R a b := by
  induction h with
  | nil => cases ha
  | cons h _ ih =>
    rcases List.mem_cons.mp ha with rfl | ha
    · exact ⟨_, List.mem_cons_self, h⟩
    · obtain ⟨b, hb, h⟩ := ih ha
      exact ⟨b, List.mem_cons_of_mem _ hb, h⟩
  | cons_right _ ih =>
    obtain ⟨b, hb, h⟩ := ih ha
    exact ⟨b, List.mem_cons_of_mem _ hb, h⟩

/-- The second outcome is a find, or both are misses and the second knows all aliases of the
first. -/
inductive Outcome.AtMost : Outcome → Outcome → Prop where
  | found (o) : AtMost o found
  | missed {aliases aliases'} : aliases ⊆ aliases' → AtMost (missed aliases) (missed aliases')

theorem Outcome.AtMost.trans {o p q : Outcome} (h : o.AtMost p) (k : p.AtMost q) : o.AtMost q := by
  cases k with
  | found => exact .found _
  | missed hk =>
    cases h with
    | missed hh => exact .missed (List.Subset.trans hh hk)

theorem Outcome.AtMost.andThen {o o' : Outcome} {next next' : Aliases → Outcome} (h : o.AtMost o')
    (hnext : ∀ aliases aliases', aliases ⊆ aliases' → (next aliases).AtMost (next' aliases')) :
    (o.andThen next).AtMost (o'.andThen next') := by
  cases h with
  | found => exact .found _
  | missed hsub => exact hnext _ _ hsub

/-- A declarator of which more is shown binds at least the same names. -/
theorem Binds.expand {operation : String} {aliased aliased' : String → Prop} {n m : Node}
    {name : String} (h : Binds operation aliased n name) (hnm : n.ExpandsTo m)
    (hsub : ∀ name, aliased name → aliased' name) : Binds operation aliased' m name := by
  cases h with
  | member =>
    cases hnm with
    | declarator ht hi =>
      obtain rfl := ht.identifier_eq
      cases hi with
      | member _ hp =>
        obtain rfl := hp.identifier_eq
        exact .member
  | pattern hmem =>
    cases hnm with
    | declarator ht hi =>
      cases ht with
      | objectPattern hentries =>
        obtain ⟨entry, hentry, hexpand⟩ := exists_of_mem_sublistForall₂ hentries hmem
        cases hexpand with
        | patternProperty hk hv =>
          obtain rfl := hk.identifier_eq
          obtain rfl := hv.identifier_eq
          exact .pattern hentry
  | renamed hsource =>
    cases hnm with
    | declarator ht hi =>
      obtain rfl := ht.identifier_eq
      obtain rfl := hi.identifier_eq
      exact .renamed (hsub _ hsource)

namespace Search

variable {operation : String} {n m : Node} {aliases aliases' : Aliases}

theorem matchesCallee_expand (h : n.ExpandsTo m) (hsub : aliases ⊆ aliases')
    (hn : matchesCallee operation aliases n = true) :
    matchesCallee operation aliases' m = true := by
  cases h with
  | member _ hp =>
    obtain rfl := Node.isIdentifier_iff.mp hn
    obtain rfl := hp.identifier_eq
    exact Node.isIdentifier_iff.mpr rfl
  | identifier name =>
    have hmem : name ∈ aliases := by simpa [matchesCallee] using hn
    simpa [matchesCallee] using hsub hmem
  | _ => cases hn

theorem enter_keeps_aliases (hm : m.WellFormed) (aliases : Aliases) :
    (Outcome.missed aliases).AtMost (enter operation m aliases) := by
  cases m with
  | declarator target init =>
    have htarget : target.WellFormed := by cases hm <;> assumption
    obtain ⟨after, hafter, hmem⟩ := collectAliases_spec operation htarget init aliases
    simp only [enter, hafter]
    exact .missed fun name hname => (hmem name).mpr (Or.inl hname)
  | call callee arguments span =>
    simp only [enter]
    split
    · exact .found _
    · exact .missed (List.Subset.refl _)
  | _ => exact .missed (List.Subset.refl _)

/-- One event of the first search against the place where the second search is then. -/
theorem enter_atMost (h : n.ExpandsTo m) (hn : n = .absent ∨ n.WellFormed)
    (hm : m = .absent ∨ m.WellFormed) (hsub : aliases ⊆ aliases') :
    (enter operation n aliases).AtMost (enter operation m aliases') := by
  have quiet : (Outcome.missed aliases).AtMost (enter operation m aliases') := by
    rcases hm with rfl | hm
    · exact .missed hsub
    · exact (Outcome.AtMost.missed hsub).trans (enter_keeps_aliases hm aliases')
  have binds : ∀ name, Binds operation (· ∈ aliases) n name →
      Binds operation (· ∈ aliases') m name :=
    fun name hb => hb.expand h fun _ hname => hsub hname
  cases h with
  | @declarator target target' init init' ht hi =>
    rcases hn with hn | hn
    · cases hn
    rcases hm with hm | hm
    · cases hm
    have htarget : target.WellFormed := by cases hn <;> assumption
    have htarget' : target'.WellFormed := by cases hm <;> assumption
    obtain ⟨after, hafter, hmem⟩ := collectAliases_spec operation htarget init aliases
    obtain ⟨after', hafter', hmem'⟩ := collectAliases_spec operation htarget' init' aliases'
    simp only [enter, hafter, hafter']
    refine .missed fun name hname => (hmem' name).mpr ?_
    rcases (hmem name).mp hname with hname | hname
    · exact Or.inl (hsub hname)
    · exact Or.inr (binds name hname)
  | @call callee callee' arguments arguments' span hc ha =>
    simp only [enter]
    by_cases hmatch : matchesCallee operation aliases callee = true
    · rw [if_pos (matchesCallee_expand hc hsub hmatch)]
      exact .found _
    · simpa [enter, hmatch] using quiet
  | _ => exact quiet

/-- Between the elements of the first list the second may visit others, which only add aliases. -/
theorem each_atMost {visit : Visit} {list list' : List Node}
    (h : List.SublistForall₂ Node.ExpandsTo list list')
    (hpair : ∀ n ∈ list, ∀ m ∈ list', n.ExpandsTo m → ∀ aliases aliases', aliases ⊆ aliases' →
      (visit n aliases).AtMost (visit m aliases'))
    (hextra : ∀ m ∈ list', ∀ aliases, (Outcome.missed aliases).AtMost (visit m aliases))
    (hsub : aliases ⊆ aliases') : (each visit list aliases).AtMost (each visit list' aliases') := by
  -- an element that only the second list has is visited against no step of the first search
  have extra : ∀ {m : Node} {list rest : List Node} {aliases aliases' : Aliases},
      aliases ⊆ aliases' → (Outcome.missed aliases').AtMost (visit m aliases') →
      (∀ aliases aliases', aliases ⊆ aliases' →
        (each visit list aliases).AtMost (each visit rest aliases')) →
      (each visit list aliases).AtMost (each visit (m :: rest) aliases') := by
    intro m list rest aliases aliases' hsub hm hrest
    exact ((Outcome.AtMost.missed hsub).trans hm).andThen hrest
  induction h generalizing aliases aliases' with
  | @nil list' =>
    induction list' generalizing aliases aliases' with
    | nil => exact .missed hsub
    | cons m rest ih =>
      refine extra hsub (hextra m List.mem_cons_self aliases') fun aliases aliases' hsub => ?_
      exact ih (by simp) (fun m hm => hextra m (List.mem_cons_of_mem _ hm)) hsub
  | @cons n m list list' hnm _ ih =>
    rw [each_cons, each_cons]
    apply (hpair n List.mem_cons_self m List.mem_cons_self hnm _ _ hsub).andThen
    intro aliases aliases' hsub
    exact ih (fun n hn m hm => hpair n (List.mem_cons_of_mem _ hn) m (List.mem_cons_of_mem _ hm))
      (fun m hm => hextra m (List.mem_cons_of_mem _ hm)) hsub
  | @cons_right m list list' _ ih =>
    refine extra hsub (hextra m List.mem_cons_self aliases') fun aliases aliases' hsub => ?_
    exact ih (fun n hn m hm => hpair n hn m (List.mem_cons_of_mem _ hm))
      (fun m hm => hextra m (List.mem_cons_of_mem _ hm)) hsub

end Search

/-- The search of a node of which more is shown keeps ahead of the search of the other. -/
theorem search_atMost (operation : String) {limit : Nat} {n m : Node} (h : n.ExpandsTo m)
    (hn : n = .absent ∨ n.WellFormed) (hm : m = .absent ∨ m.WellFormed) (hnd : n.Within limit)
    (hmd : m.Within limit) {aliases aliases' : Aliases} (hsub : aliases ⊆ aliases') :
    (search operation limit n aliases).AtMost (search operation limit m aliases') := by
  induction limit generalizing n m aliases aliases' with
  | zero =>
    obtain rfl : n = .absent := hnd
    obtain rfl : m = .absent := hmd
    exact .missed hsub
  | succ limit ih =>
    have below : ∀ {n : Node}, n = .absent ∨ n.WellFormed → ∀ c ∈ n.searched,
        c = .absent ∨ c.WellFormed := by
      rintro n (rfl | hn) c hc
      · cases hc
      · exact hn.searched c hc
    rw [search, Search.level_eq, Search.level_eq]
    apply (Search.enter_atMost h hn hm hsub).andThen
    intro aliases aliases' hsub
    refine Search.each_atMost h.searched ?_ ?_ hsub
    · intro c hc d hd hcd aliases aliases' hsub
      exact ih hcd (below hn c hc) (below hm d hd) (hnd c hc) (hmd d hd) hsub
    · -- an inserted element expands what is absent
      intro d hd aliases
      rw [← search_absent operation limit]
      exact ih (.absent d) (Or.inl rfl) (below hm d hd) (Node.within_absent limit) (hmd d hd)
        (List.Subset.refl aliases)

/-- Showing more of a node never loses a call of the operation. From any aliases, and from more of
them for the node of which more is shown, both searches find one, or the first misses and keeps its
aliases, and the second finds one or misses with all aliases that the first is left with. -/
theorem expansion_keeps_reachable (operation : String) {limit : Nat} {n m : Node}
    (h : n.ExpandsTo m) (hn : n.WellFormed) (hm : m.WellFormed) (hnd : n.Within limit)
    (hmd : m.Within limit) :
    (isReachable limit operation n = .ok true → isReachable limit operation m = .ok true) ∧
    ∀ aliases aliases' : Aliases, aliases ⊆ aliases' →
      (search operation limit n aliases = .found ∧ search operation limit m aliases' = .found) ∨
      ∃ after, search operation limit n aliases = .missed after ∧ aliases ⊆ after ∧
        (search operation limit m aliases' = .found ∨
          ∃ after', search operation limit m aliases' = .missed after' ∧ after ⊆ after') := by
  have both : ∀ aliases aliases' : Aliases, aliases ⊆ aliases' →
      (search operation limit n aliases).AtMost (search operation limit m aliases') :=
    fun _ _ hsub => search_atMost operation h (Or.inr hn) (Or.inr hm) hnd hmd hsub
  have keeps : ∀ aliases, (Outcome.missed aliases).AtMost (search operation limit n aliases) := by
    intro aliases
    rw [← search_absent operation limit]
    exact search_atMost operation (.absent n) (Or.inl rfl) (Or.inr hn) (Node.within_absent limit)
      hnd (List.Subset.refl aliases)
  constructor
  · intro hreach
    have hpair := both [] [] (List.Subset.refl [])
    rw [isReachable_eq_true_iff.mp hreach] at hpair
    rw [isReachable_eq_true_iff]
    generalize search operation limit m [] = o at hpair
    cases hpair with
    | found => rfl
  · intro aliases aliases' hsub
    have hpair := both aliases aliases' hsub
    have hkeep := keeps aliases
    generalize search operation limit n aliases = o at hpair hkeep
    generalize search operation limit m aliases' = o' at hpair
    cases hkeep with
    | found =>
      cases hpair with
      | found => exact Or.inl ⟨rfl, rfl⟩
    | @missed _ after hafter =>
      refine Or.inr ⟨after, rfl, hafter, ?_⟩
      cases hpair with
      | found => exact Or.inl rfl
      | @missed _ after' hsub' => exact Or.inr ⟨after', rfl, hsub'⟩

/-- `const { refresh: inv }; for (...) ...; inv()` with the loop sealed. -/
def partlyHidden : Node :=
  .block
    [.declaration [.declarator
      (.objectPattern [.patternProperty (.identifier "refresh") (.identifier "inv")]) .absent],
    .sealed "for_statement",
    .expressionStatement (.call (.identifier "inv") [] ⟨1, 1, 1, 1⟩)]

/-- `const { [0]: first, refresh: inv } = client; log(); await first; inv(key)` -/
def fullyShown : Node :=
  .block
    [.declaration [.declarator
      (.objectPattern [.patternProperty (.sealed "number") (.identifier "first"),
        .patternProperty (.identifier "refresh") (.identifier "inv")]) (.identifier "client")],
    .expressionStatement (.call (.identifier "log") [] ⟨1, 1, 1, 1⟩),
    .expressionStatement (.await (.identifier "first")),
    .expressionStatement (.call (.identifier "inv") [.identifier "key"] ⟨1, 1, 1, 1⟩)]

/-- A sealed statement is opened, an initial value and an entry of a pattern are filled in, and a
statement and an argument are put between the old ones. -/
theorem opened_loop_still_reaches :
    partlyHidden.ExpandsTo fullyShown ∧ partlyHidden.WellFormed ∧ fullyShown.WellFormed ∧
      partlyHidden.Within 4 ∧ fullyShown.Within 4 ∧
      isReachable 4 "refresh" partlyHidden = .ok true ∧
      isReachable 4 "refresh" fullyShown = .ok true := by
  have hexpand : partlyHidden.ExpandsTo fullyShown := by
    refine .block (.cons ?_ (.cons_right (.cons (.sealed _ _) (.cons ?_ .nil))))
    · refine .declaration (.cons (.declarator (.objectPattern ?_) (.absent _)) .nil)
      exact .cons_right (.cons (.patternProperty (.identifier _) (.identifier _)) .nil)
    · exact .expressionStatement (.call (.identifier _) .nil)
  have hn : partlyHidden.WellFormed := by
    apply Node.WellFormed.block
    simp only [List.forall_mem_cons, List.not_mem_nil, false_implies, implies_true, and_true]
    refine ⟨.declaration ?_ ?_, .sealed _, .expressionStatement (.call (.identifier _) ?_)⟩
    · simp [Node.IsDeclarator]
    · simp only [List.forall_mem_singleton]
      refine .declaratorOnly (.objectPattern ?_ ?_)
      · simp [Node.IsKey]
      · intro key value h
        obtain ⟨rfl, rfl⟩ := by simpa using h
        exact .identifier _
    · simp
  have hm : fullyShown.WellFormed := by
    apply Node.WellFormed.block
    simp only [List.forall_mem_cons, List.not_mem_nil, false_implies, implies_true, and_true]
    refine ⟨.declaration ?_ ?_, .expressionStatement (.call (.identifier _) ?_),
      .expressionStatement (.await (.identifier _)),
      .expressionStatement (.call (.identifier _) ?_)⟩
    · simp [Node.IsDeclarator]
    · simp only [List.forall_mem_singleton]
      refine .declarator (.objectPattern ?_ ?_) (.identifier _)
      · simp [Node.IsKey]
      · intro key value h
        obtain ⟨rfl, rfl⟩ | ⟨rfl, rfl⟩ := by simpa using h
        · exact .identifier _
        · exact .identifier _
    · simp
    · simp only [List.forall_mem_singleton]
      exact .identifier _
  have hnd : partlyHidden.Within 4 := by
    simp [partlyHidden, Node.Within, Node.searched]
  have hmd : fullyShown.Within 4 := by
    simp [fullyShown, Node.Within, Node.searched]
  exact ⟨hexpand, hn, hm, hnd, hmd, rfl,
    (expansion_keeps_reachable "refresh" hexpand hn hm hnd hmd).1 rfl⟩

end StaleQuery
