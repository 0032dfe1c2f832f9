import StaleQuery.Proofs.Model.Events

/-!
# Which calls reach the operation

A name becomes an alias of the operation through a declarator, and a call counts when it is made
through a member of the operation's name or through a name that is an alias by then. Both are said
here of a sequence of events alone. A search within its depth limit finds exactly such a call.
-/
namespace StaleQuery

/-- The names that stand for the operation before the event at a position. -/
inductive AliasedBefore (operation : String) (events : List Node) : Nat → String → Prop where
  | member {i j name receiver} : j < i →
      events[j]? = some (.declarator (.identifier name) (.member receiver (.identifier operation))) →
      AliasedBefore operation events i name
  | pattern {i j name entries init} : j < i →
      events[j]? = some (.declarator (.objectPattern entries) init) →
      .patternProperty (.identifier operation) (.identifier name) ∈ entries →
      AliasedBefore operation events i name
  | renamed {i j name source} : j < i →
      events[j]? = some (.declarator (.identifier name) (.identifier source)) →
      AliasedBefore operation events j source → AliasedBefore operation events i name

/-- Whether the event at a position is a call of the operation. -/
inductive MatchingCall (operation : String) (events : List Node) : Nat → Prop where
  | member {i receiver arguments span} :
      events[i]? = some (.call (.member receiver (.identifier operation)) arguments span) →
      MatchingCall operation events i
  | aliased {i name arguments span} :
      events[i]? = some (.call (.identifier name) arguments span) →
      AliasedBefore operation events i name → MatchingCall operation events i

theorem AliasedBefore.mono {operation : String} {events : List Node} {i k : Nat} {name : String}
    (h : AliasedBefore operation events i name) (hik : i ≤ k) :
    AliasedBefore operation events k name := by
  cases h with
  | member hj he => exact .member (by omega) he
  | pattern hj he hp => exact .pattern (by omega) he hp
  | renamed hj he hs => exact .renamed (by omega) he hs

/-- The names that one declarator adds to those that are aliases before it. -/
inductive Binds (operation : String) (aliased : String → Prop) : Node → String → Prop where
  | member {name receiver} : Binds operation aliased
      (.declarator (.identifier name) (.member receiver (.identifier operation))) name
  | pattern {name entries init} :
      .patternProperty (.identifier operation) (.identifier name) ∈ entries →
      Binds operation aliased (.declarator (.objectPattern entries) init) name
  | renamed {name source} : aliased source →
      Binds operation aliased (.declarator (.identifier name) (.identifier source)) name

theorem aliasedBefore_zero {operation : String} {events : List Node} {name : String} :
    ¬ AliasedBefore operation events 0 name := by
  intro h
  cases h <;> omega

theorem aliasedBefore_succ {operation : String} {events : List Node} {i : Nat} {e : Node}
    (he : events[i]? = some e) (name : String) :
    AliasedBefore operation events (i + 1) name ↔
      AliasedBefore operation events i name ∨
        Binds operation (AliasedBefore operation events i) e name := by
  constructor
  · intro h
    -- the declarator that makes the name an alias is either an earlier one or this one
    cases h with
    | @member _ j _ _ hj hd =>
      rcases Nat.lt_succ_iff_lt_or_eq.mp hj with hj | rfl
      · exact Or.inl (.member hj hd)
      · obtain rfl := Option.some.inj (he.symm.trans hd)
        exact Or.inr .member
    | @pattern _ j _ _ _ hj hd hp =>
      rcases Nat.lt_succ_iff_lt_or_eq.mp hj with hj | rfl
      · exact Or.inl (.pattern hj hd hp)
      · obtain rfl := Option.some.inj (he.symm.trans hd)
        exact Or.inr (.pattern hp)
    | @renamed _ j _ _ hj hd hs =>
      rcases Nat.lt_succ_iff_lt_or_eq.mp hj with hj | rfl
      · exact Or.inl (.renamed hj hd hs)
      · obtain rfl := Option.some.inj (he.symm.trans hd)
        exact Or.inr (.renamed hs)
  · rintro (h | h)
    · exact h.mono (Nat.le_succ i)
    · cases h with
      | member => exact .member (Nat.lt_succ_self i) he
      | pattern hp => exact .pattern (Nat.lt_succ_self i) he hp
      | renamed hs => exact .renamed (Nat.lt_succ_self i) he hs

namespace Search

variable {operation : String}

theorem patternAliases_spec (operation : String) {entries : List Node} (aliases : Aliases)
    (h : ∀ p ∈ entries, ∃ key value, p = .patternProperty key value ∧ key.IsKey) :
    ∃ after, patternAliases operation entries aliases = .ok after ∧ ∀ name, name ∈ after ↔
      name ∈ aliases ∨ .patternProperty (.identifier operation) (.identifier name) ∈ entries := by
  induction entries generalizing aliases with
  | nil => exact ⟨aliases, rfl, by simp⟩
  | cons p rest ih =>
    obtain ⟨key, value, rfl, -⟩ := h p List.mem_cons_self
    have hrest := fun aliases => ih aliases fun q hq => h q (List.mem_cons_of_mem _ hq)
    simp only [patternAliases, Node.entry?]
    split
    · rename_i bound hkey
      obtain rfl := Node.isIdentifier_iff.mp hkey
      obtain ⟨after, hafter, hmem⟩ := hrest (bound :: aliases)
      refine ⟨after, hafter, fun name => ?_⟩
      rw [hmem]
      simp only [List.mem_cons, Node.patternProperty.injEq, Node.identifier.injEq, true_and]
      rw [or_assoc, or_left_comm]
    · rename_i value _ _ hno
      obtain ⟨after, hafter, hmem⟩ := hrest aliases
      refine ⟨after, hafter, fun name => ?_⟩
      have hne : Node.patternProperty (.identifier operation) (.identifier name) ≠
          .patternProperty key value := by
        rintro ⟨⟩
        exact hno name (Node.isIdentifier_iff.mpr rfl) rfl
      simp only [hmem, List.mem_cons, hne, false_or]

theorem directAlias_spec (target : String) (init : Node) (aliases : Aliases) (name : String) :
    name ∈ directAlias operation (.identifier target) init aliases ↔
      name ∈ aliases ∨
        Binds operation (· ∈ aliases) (.declarator (.identifier target) init) name := by
  cases init with
  | member receiver property =>
    have hb : Binds operation (· ∈ aliases)
        (.declarator (.identifier target) (.member receiver property)) name ↔
        property.isIdentifier operation ∧ name = target := by
      rw [Node.isIdentifier_iff]
      constructor
      · rintro ⟨⟩
        exact ⟨rfl, rfl⟩
      · rintro ⟨rfl, rfl⟩
        exact .member
    rw [hb]
    simp only [directAlias]
    split <;> simp_all [or_comm]
  | identifier source =>
    have hb : Binds operation (· ∈ aliases)
        (.declarator (.identifier target) (.identifier source)) name ↔
        source ∈ aliases ∧ name = target := by
      constructor
      · rintro ⟨⟩
        exact ⟨‹_›, rfl⟩
      · rintro ⟨h, rfl⟩
        exact .renamed h
    rw [hb]
    simp only [directAlias, List.contains_iff_mem]
    split <;> simp_all [or_comm]
  | _ =>
    simp only [directAlias, iff_self_or]
    rintro ⟨⟩

/-- A declarator adds exactly the names that it binds. -/
theorem collectAliases_spec (operation : String) {target : Node} (hw : target.WellFormed)
    (init : Node) (aliases : Aliases) :
    ∃ after, collectAliases operation target init aliases = .ok after ∧ ∀ name, name ∈ after ↔
      name ∈ aliases ∨ Binds operation (· ∈ aliases) (.declarator target init) name := by
  cases target with
  | identifier target => exact ⟨_, rfl, directAlias_spec target init aliases⟩
  | objectPattern entries =>
    have hd : directAlias operation (.objectPattern entries) init aliases = aliases := by
      cases init <;> rfl
    cases hw with
    | objectPattern hentries _ =>
      obtain ⟨after, hafter, hmem⟩ := patternAliases_spec operation aliases hentries
      refine ⟨after, by simpa [collectAliases, hd] using hafter, fun name => ?_⟩
      rw [hmem]
      refine or_congr_right ⟨.pattern, ?_⟩
      rintro ⟨⟩
      assumption
  | _ =>
    refine ⟨aliases, by cases init <;> rfl, fun name => ?_⟩
    simp only [iff_self_or]
    rintro ⟨⟩

/-- The names kept by a search are the aliases before a position. -/
def Tracks (operation : String) (events : List Node) (i : Nat) (aliases : Aliases) : Prop :=
  ∀ name, name ∈ aliases ↔ AliasedBefore operation events i name

theorem matchesCallee_iff {events : List Node} {i : Nat} {aliases : Aliases}
    (ha : Tracks operation events i aliases) {callee : Node}
    {arguments : List Node} {span : Span} (he : events[i]? = some (.call callee arguments span)) :
    matchesCallee operation aliases callee = true ↔ MatchingCall operation events i := by
  constructor
  · intro h
    cases callee with
    | member receiver property =>
      obtain rfl := Node.isIdentifier_iff.mp h
      exact .member he
    | identifier name => exact .aliased he ((ha name).mp (by simpa [matchesCallee] using h))
    | _ => cases h
  · intro h
    cases h with
    | member hm =>
      obtain ⟨rfl, -⟩ := by simpa [he] using hm
      simp [matchesCallee, Node.isIdentifier]
    | aliased hm hname =>
      obtain ⟨rfl, -⟩ := by simpa [he] using hm
      simpa [matchesCallee] using (ha _).mpr hname

/-- One event: either it is a call of the operation, or the names that are kept go on being the
aliases. -/
theorem enter_tracks {events : List Node} {i : Nat} {e : Node} {aliases : Aliases}
    (he : events[i]? = some e) (hw : e.WellFormed) (ha : Tracks operation events i aliases) :
    (enter operation e aliases = .found ∧ MatchingCall operation events i) ∨
      ∃ after, enter operation e aliases = .missed after ∧ ¬ MatchingCall operation events i ∧
        Tracks operation events (i + 1) after := by
  have hbinds : Binds operation (· ∈ aliases) e = Binds operation (AliasedBefore operation events i) e :=
    congrArg (Binds operation · e) (funext fun name => propext (ha name))
  -- what is neither a declarator nor a call binds nothing and is no call
  have plain : (∀ name, ¬ Binds operation (· ∈ aliases) e name) →
      Tracks operation events (i + 1) aliases := by
    intro hno name
    rw [aliasedBefore_succ he, ← hbinds, ha]
    exact (or_iff_left (hno name)).symm
  have isCall : MatchingCall operation events i → ∃ callee arguments span,
      e = .call callee arguments span := by
    rintro (h | ⟨h, -⟩) <;> exact ⟨_, _, _, Option.some.inj (he.symm.trans h)⟩
  cases e with
  | declarator target init =>
    have htarget : target.WellFormed := by cases hw <;> assumption
    obtain ⟨after, hafter, hmem⟩ := collectAliases_spec operation htarget init aliases
    refine Or.inr ⟨after, by simp [enter, hafter], ?_, fun name => ?_⟩
    · intro h
      obtain ⟨_, _, _, h⟩ := isCall h
      cases h
    · rw [hmem, aliasedBefore_succ he, hbinds, ha]
  | call callee arguments span =>
    simp only [enter]
    split
    · exact Or.inl ⟨rfl, (matchesCallee_iff ha he).mp ‹_›⟩
    · refine Or.inr ⟨aliases, rfl, fun h => ?_, plain fun name => by rintro ⟨⟩⟩
      exact absurd ((matchesCallee_iff ha he).mpr h) ‹_›
  | _ =>
    refine Or.inr ⟨aliases, rfl, fun h => ?_, plain fun name => by rintro ⟨⟩⟩
    obtain ⟨_, _, _, h⟩ := isCall h
    cases h

/-- A pass over the events from a position on ends with a find exactly if a call of the operation
is among them. -/
theorem each_enter_tracks {events : List Node} (hw : ∀ e ∈ events, e.WellFormed) {rest : List Node}
    {i : Nat} (hrest : events.drop i = rest) {aliases : Aliases}
    (ha : Tracks operation events i aliases) :
    (each (enter operation) rest aliases = .found ∧
        ∃ j, MatchingCall operation events j) ∨
      ∃ after, each (enter operation) rest aliases = .missed after ∧
        ∀ j, i ≤ j → ¬ MatchingCall operation events j := by
  induction rest generalizing i aliases with
  | nil =>
    refine Or.inr ⟨aliases, rfl, fun j hj h => ?_⟩
    have hlen : events.length ≤ j := Nat.le_trans (List.drop_eq_nil_iff.mp hrest) hj
    rcases h with h | ⟨h, -⟩ <;> simp [List.getElem?_eq_none hlen] at h
  | cons e rest ih =>
    have he : events[i]? = some e := by
      rw [← List.head?_drop, hrest, List.head?_cons]
    have hnext : events.drop (i + 1) = rest := by
      rw [← List.tail_drop, hrest, List.tail_cons]
    rw [each_cons]
    rcases enter_tracks he (hw e (List.mem_of_getElem? he)) ha with ⟨hf, hm⟩ | ⟨after, hm, hno, hafter⟩
    · exact Or.inl ⟨by rw [hf, Outcome.found_andThen], i, hm⟩
    · rw [hm, Outcome.missed_andThen]
      rcases ih hnext hafter with found | ⟨last, hlast, hnone⟩
      · exact Or.inl found
      · refine Or.inr ⟨last, hlast, fun j hj => ?_⟩
        rcases Nat.eq_or_lt_of_le hj with rfl | hj
        · exact hno
        · exact hnone j hj

end Search

/-- A search within its depth limit answers, and it answers yes exactly if some call among the
events is a call of the operation. -/
theorem reachable_iff_matching_call (operation : String) {limit : Nat} {n : Node}
    (hw : n.WellFormed) (hd : n.Within limit) :
    ∃ answer, isReachable limit operation n = .ok answer ∧
      (answer = true ↔ ∃ i, MatchingCall operation n.events i) := by
  have start : Search.Tracks operation n.events 0 [] := by
    intro name
    simp [aliasedBefore_zero]
  have pass := Search.each_enter_tracks hw.events rfl start
  rw [List.drop_zero, ← search_eq_each_events hd] at pass
  rcases pass with ⟨hf, hm⟩ | ⟨after, hm, hno⟩
  · exact ⟨true, by simp [isReachable, hf], by simpa using hm⟩
  · refine ⟨false, by simp [isReachable, hm], ?_⟩
    simp only [Bool.false_eq_true, false_iff, not_exists]
    exact fun j => hno j (Nat.zero_le j)

/-- `const { refresh: inv } = client; const again = inv; again()` -/
def renamedTwice : Node :=
  .block
    [.declaration [.declarator
      (.objectPattern [.patternProperty (.identifier "refresh") (.identifier "inv")])
      (.identifier "client")],
    .declaration [.declarator (.identifier "again") (.identifier "inv")],
    .expressionStatement (.call (.identifier "again") [] ⟨1, 1, 1, 1⟩)]

/-- The call counts only because of two declarators before it. -/
theorem renamed_alias_reaches :
    renamedTwice.WellFormed ∧ renamedTwice.Within 4 ∧
      isReachable 4 "refresh" renamedTwice = .ok true ∧
      ∃ answer, isReachable 4 "refresh" renamedTwice = .ok answer ∧
        (answer = true ↔ ∃ i, MatchingCall "refresh" renamedTwice.events i) := by
  have hw : renamedTwice.WellFormed := by
    apply Node.WellFormed.block
    simp only [List.forall_mem_cons, List.not_mem_nil, false_implies, implies_true, and_true]
    refine ⟨.declaration ?_ ?_, .declaration ?_ ?_, .expressionStatement (.call ?_ ?_)⟩
    · simp [Node.IsDeclarator]
    · simp only [List.forall_mem_singleton]
      refine .declarator (.objectPattern ?_ ?_) (.identifier _)
      · simp [Node.IsKey]
      · intro key value h
        obtain ⟨rfl, rfl⟩ := by simpa using h
        exact .identifier _
    · simp [Node.IsDeclarator]
    · simp only [List.forall_mem_singleton]
      exact .declarator (.identifier _) (.identifier _)
    · exact .identifier _
    · simp
  have hd : renamedTwice.Within 4 := by
    simp [renamedTwice, Node.Within, Node.searched]
  exact ⟨hw, hd, rfl, reachable_iff_matching_call "refresh" hw hd⟩

end StaleQuery
