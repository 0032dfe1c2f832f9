import Mathlib.Algebra.Order.BigOperators.Group.List
import Mathlib.Algebra.Order.Group.Nat
import StaleQuery.Proofs.Model.Depth
import StaleQuery.Proofs.Model.Search

/-!
# What a limited search finds

A search under a limit goes the way of the unlimited one until it meets a node that is too deep. So it
finds the operation exactly if the first call of the operation comes before any such node. What stands
after that call does not matter, however deep it is.
-/
namespace StaleQuery

/-- A node on the way of a search, and how many levels down it stands. -/
structure Stop where
  depth : Nat
  node : Node

namespace Node

def isAbsent : Node → Bool
  | absent => true
  | _ => false

/-- The nodes that a search visits if nothing ends it, from this depth on and in their order. Where a
node is absent there is nothing to visit. -/
def stops (depth : Nat) (n : Node) : List Stop :=
  (if n.isAbsent then [] else [⟨depth, n⟩]) ++
    n.searched.attach.flatMap fun m => m.1.stops (depth + 1)
termination_by sizeOf n
decreasing_by exact sizeOf_lt_of_mem_searched m.2

theorem stops_eq (depth : Nat) (n : Node) : n.stops depth =
    (if n.isAbsent then [] else [⟨depth, n⟩]) ++ n.searched.flatMap (stops (depth + 1)) := by
  rw [stops, List.flatMap_subtype (g := stops (depth + 1)) (by simp)]
  simp

theorem stops_absent (depth : Nat) : absent.stops depth = [] := by
  simp [stops_eq, isAbsent, searched]

theorem stops_of_not_absent {n : Node} (h : n.isAbsent = false) (depth : Nat) :
    n.stops depth = ⟨depth, n⟩ :: n.searched.flatMap (stops (depth + 1)) := by
  simp [stops_eq, h]

theorem eq_absent_of_isAbsent {n : Node} (h : n.isAbsent = true) : n = absent := by
  cases n <;> first | rfl | cases h

/-- The way of a search from its first node on. -/
def way (n : Node) : List Stop :=
  n.stops 1

/-- The nodes on the way, without their depths. -/
def visited (n : Node) : List Node :=
  n.way.map Stop.node

theorem WellFormed.stops {n : Node} (h : n.WellFormed) (depth : Nat) :
    ∀ s ∈ n.stops depth, s.node.WellFormed := by
  induction n using Node.events.induct generalizing depth with
  | case1 n ih =>
    intro s hs
    rw [stops_eq, List.mem_append, List.mem_flatMap] at hs
    rcases hs with hs | ⟨m, hm, hs⟩
    · split at hs
      · cases hs
      · obtain rfl := List.mem_singleton.mp hs
        exact h
    · rcases h.searched m hm with rfl | hw
      · simp [stops_absent] at hs
      · exact ih ⟨m, hm⟩ hw (depth + 1) s hs

theorem WellFormed.way {n : Node} (h : n.WellFormed) : ∀ s ∈ n.way, s.node.WellFormed :=
  h.stops 1

end Node

namespace Search

variable {operation : String} {limit : Nat}

/-- A pass over stops, which ends at the first one that is too deep. -/
def pass (operation : String) (limit : Nat) : List Stop → Aliases → Outcome
  | [], aliases => .missed aliases
  | s :: rest, aliases =>
    if s.depth ≤ limit then (enter operation s.node aliases).andThen (pass operation limit rest)
    else .tooDeep

theorem pass_append (first second : List Stop) (aliases : Aliases) :
    pass operation limit (first ++ second) aliases =
      (pass operation limit first aliases).andThen (pass operation limit second) := by
  induction first generalizing aliases with
  | nil => rfl
  | cons s rest ih =>
    rw [List.cons_append, pass, pass]
    by_cases hdepth : s.depth ≤ limit
    · rw [if_pos hdepth, if_pos hdepth, Outcome.andThen_assoc]
      exact congrArg _ (funext ih)
    · rw [if_neg hdepth, if_neg hdepth]
      rfl

theorem each_eq_pass {visit : Visit} {parts : Node → List Stop} {list : List Node}
    (h : ∀ n ∈ list, ∀ aliases, visit n aliases = pass operation limit (parts n) aliases)
    (aliases : Aliases) :
    each visit list aliases = pass operation limit (list.flatMap parts) aliases := by
  induction list generalizing aliases with
  | nil => rfl
  | cons n rest ih =>
    rw [List.flatMap_cons, pass_append, each_cons, h n List.mem_cons_self]
    exact congrArg _ (funext (ih fun m hm => h m (List.mem_cons_of_mem _ hm)))

theorem exists_of_matchingCall {events : List Node} {i : Nat}
    (h : MatchingCall operation events i) : ∃ e, events[i]? = some e := by
  cases h with
  | member he => exact ⟨_, he⟩
  | aliased he _ => exact ⟨_, he⟩

/-- A pass from a position on finds something exactly if a call of the operation comes before
anything that is too deep. -/
theorem pass_eq_found_iff {stops rest : List Stop} (hw : ∀ s ∈ stops, s.node.WellFormed) {i : Nat}
    (hrest : stops.drop i = rest) {aliases : Aliases}
    (ha : Tracks operation (stops.map Stop.node) i aliases) :
    pass operation limit rest aliases = .found ↔
      ∃ j, i ≤ j ∧ MatchingCall operation (stops.map Stop.node) j ∧
        (∀ k, i ≤ k → k < j → ¬ MatchingCall operation (stops.map Stop.node) k) ∧
        ∀ k s, i ≤ k → k ≤ j → stops[k]? = some s → s.depth ≤ limit := by
  induction rest generalizing i aliases with
  | nil =>
    constructor
    · intro h
      cases h
    · rintro ⟨j, hj, hmatch, -⟩
      obtain ⟨e, he⟩ := exists_of_matchingCall hmatch
      have hlength := List.drop_eq_nil_iff.mp hrest
      rw [List.getElem?_eq_none (by rw [List.length_map]; omega)] at he
      cases he
  | cons s rest ih =>
    have hs : stops[i]? = some s := by rw [← List.head?_drop, hrest, List.head?_cons]
    have hnode : (stops.map Stop.node)[i]? = some s.node := by rw [List.getElem?_map, hs]; rfl
    have hnext : stops.drop (i + 1) = rest := by rw [← List.tail_drop, hrest, List.tail_cons]
    rw [pass]
    by_cases hdepth : s.depth ≤ limit
    case neg =>
      rw [if_neg hdepth]
      constructor
      · intro h
        cases h
      · rintro ⟨j, hj, -, -, hshallow⟩
        exact absurd (hshallow i s (Nat.le_refl i) hj hs) hdepth
    rw [if_pos hdepth]
    rcases enter_tracks hnode (hw s (List.mem_of_getElem? hs)) ha with
      ⟨hfound, hmatch⟩ | ⟨after, hmissed, hno, hafter⟩
    · rw [hfound, Outcome.found_andThen]
      refine ⟨fun _ => ⟨i, Nat.le_refl i, hmatch, fun k hik hki => by omega, fun k t hik hki ht => ?_⟩,
        fun _ => rfl⟩
      obtain rfl : k = i := by omega
      obtain rfl := Option.some.inj (hs.symm.trans ht)
      exact hdepth
    · rw [hmissed, Outcome.missed_andThen, ih hnext hafter]
      -- this stop is neither a match nor too deep, so it may be counted in or left out
      constructor
      · rintro ⟨j, hj, hmatch, hfirst, hshallow⟩
        refine ⟨j, by omega, hmatch, fun k hik hkj => ?_, fun k t hik hkj ht => ?_⟩
        · rcases Nat.eq_or_lt_of_le hik with rfl | hik
          · exact hno
          · exact hfirst k hik hkj
        · rcases Nat.eq_or_lt_of_le hik with rfl | hik
          · obtain rfl := Option.some.inj (hs.symm.trans ht)
            exact hdepth
          · exact hshallow k t hik hkj ht
      · rintro ⟨j, hj, hmatch, hfirst, hshallow⟩
        have hij : i + 1 ≤ j := by
          rcases Nat.eq_or_lt_of_le hj with rfl | hj
          · exact absurd hmatch hno
          · exact hj
        exact ⟨j, hij, hmatch, fun k hik hkj => hfirst k (by omega) hkj,
          fun k t hik hkj ht => hshallow k t (by omega) hkj ht⟩

end Search

/-- A search below some levels is a pass over its stops, with the limit counted from the top. -/
theorem search_eq_pass (operation : String) (limit above : Nat) (n : Node) (aliases : Aliases) :
    search operation limit n aliases =
      Search.pass operation (above + limit) (n.stops (above + 1)) aliases := by
  induction limit generalizing above n aliases with
  | zero =>
    cases hn : n.isAbsent with
    | true =>
      obtain rfl := Node.eq_absent_of_isAbsent hn
      rw [search_absent, Node.stops_absent, Search.pass]
    | false =>
      rw [Node.stops_of_not_absent hn, Search.pass, if_neg (by dsimp only; omega)]
      cases n <;> first | rfl | cases hn
  | succ limit ih =>
    cases hn : n.isAbsent with
    | true =>
      obtain rfl := Node.eq_absent_of_isAbsent hn
      rw [search_absent, Node.stops_absent, Search.pass]
    | false =>
      have below : ∀ aliases, Search.each (search operation limit) n.searched aliases =
          Search.pass operation (above + (limit + 1))
            (n.searched.flatMap (Node.stops (above + 1 + 1))) aliases := by
        apply Search.each_eq_pass
        intro m _ aliases
        rw [ih (above + 1) m aliases, Nat.add_right_comm above 1 limit, Nat.add_assoc above limit 1]
      rw [search, Search.level_eq, Node.stops_of_not_absent hn, Search.pass,
        if_pos (by dsimp only; omega), funext below]

/-- The position of the first call of the operation on the way. -/
def FirstMatch (operation : String) (n : Node) (i : Nat) : Prop :=
  MatchingCall operation n.visited i ∧ ∀ j < i, ¬ MatchingCall operation n.visited j

/-- Nothing on the way is too deep, up to a position and there. -/
def Node.ShallowUpTo (limit : Nat) (n : Node) (i : Nat) : Prop :=
  ∀ j ≤ i, ∀ s, n.way[j]? = some s → s.depth ≤ limit

/-- The answer of a search that may go as deep as it takes. -/
def Unlimited (operation : String) (n : Node) (answer : Bool) : Prop :=
  ∃ bound, ∀ limit, bound ≤ limit → isReachable limit operation n = .ok answer

variable {operation : String} {limit : Nat} {n : Node}

theorem FirstMatch.unique {i j : Nat} (hi : FirstMatch operation n i)
    (hj : FirstMatch operation n j) : i = j := by
  rcases Nat.lt_trichotomy i j with h | h | h
  · exact absurd hi.1 (hj.2 i h)
  · exact h
  · exact absurd hj.1 (hi.2 j h)

theorem isReachable_iff_firstMatch (hw : n.WellFormed) :
    isReachable limit operation n = .ok true ↔
      ∃ i, FirstMatch operation n i ∧ n.ShallowUpTo limit i := by
  have start : Search.Tracks operation n.visited 0 [] := by
    intro name
    simp [aliasedBefore_zero]
  have hpass : search operation limit n [] = Search.pass operation limit n.way [] := by
    rw [search_eq_pass operation limit 0 n [], Nat.zero_add]
    rfl
  rw [isReachable_eq_true_iff, hpass, Search.pass_eq_found_iff hw.way List.drop_zero start]
  constructor
  · rintro ⟨i, -, hmatch, hfirst, hshallow⟩
    exact ⟨i, ⟨hmatch, fun j hj => hfirst j (Nat.zero_le j) hj⟩,
      fun j hj s hs => hshallow j s (Nat.zero_le j) hj hs⟩
  · rintro ⟨i, ⟨hmatch, hfirst⟩, hshallow⟩
    exact ⟨i, Nat.zero_le i, hmatch, fun j _ hj => hfirst j hj,
      fun j s _ hj hs => hshallow j hj s hs⟩

theorem isReachable_mono {limit' : Nat} (h : limit ≤ limit')
    (hr : isReachable limit operation n = .ok true) : isReachable limit' operation n = .ok true := by
  rw [isReachable_eq_true_iff] at hr ⊢
  rw [search_mono h (by simp [hr]), hr]

theorem exists_unlimited (operation : String) (hw : n.WellFormed) :
    ∃ answer, Unlimited operation n answer := by
  obtain ⟨answer, hanswer⟩ := isReachable_ok operation (sizeOf n) hw
  have hdeep : search operation (sizeOf n) n [] ≠ .tooDeep :=
    search_ne_tooDeep (Node.within_of_sizeOf_le (Nat.le_refl (sizeOf n))) []
  refine ⟨answer, sizeOf n, fun limit hlimit => ?_⟩
  rw [← hanswer, isReachable, isReachable, search_mono hlimit hdeep]

theorem Unlimited.unique {answer other : Bool} (h : Unlimited operation n answer)
    (h' : Unlimited operation n other) : other = answer := by
  obtain ⟨bound, hbound⟩ := h
  obtain ⟨bound', hbound'⟩ := h'
  have hsame := (hbound' _ (Nat.le_max_right bound bound')).symm.trans
    (hbound _ (Nat.le_max_left bound bound'))
  exact Except.ok.inj hsame

/-- Without a limit the first call of the operation is found, if there is one. -/
theorem Unlimited.iff_firstMatch {answer : Bool} (h : Unlimited operation n answer)
    (hw : n.WellFormed) : answer = true ↔ ∃ i, FirstMatch operation n i := by
  obtain ⟨bound, hbound⟩ := h
  constructor
  · rintro rfl
    obtain ⟨i, hfirst, -⟩ := (isReachable_iff_firstMatch hw).mp (hbound bound (Nat.le_refl bound))
    exact ⟨i, hfirst⟩
  · rintro ⟨i, hfirst⟩
    -- some limit admits every stop on the way
    obtain ⟨deepest, hdeepest⟩ : ∃ deepest, ∀ s ∈ n.way, s.depth ≤ deepest :=
      ⟨(n.way.map Stop.depth).sum, fun s hs => List.le_sum_of_mem (List.mem_map_of_mem hs)⟩
    have hfound : isReachable (max bound deepest) operation n = .ok true := by
      refine (isReachable_iff_firstMatch hw).mpr ⟨i, hfirst, fun j _ s hs => ?_⟩
      have := hdeepest s (List.mem_of_getElem? hs)
      omega
    exact Except.ok.inj ((hbound _ (Nat.le_max_left bound deepest)).symm.trans hfound)

/-- A search under a limit answers yes exactly if the unlimited one does and nothing up to the first
call of the operation is too deep. So what is too deep and comes after that call has no effect, what
comes before it turns the answer to no, a higher limit never does, and a node that fits its limit gets
the unlimited answer. -/
theorem limited_search_exact (operation : String) {n : Node} (hw : n.WellFormed) :
    ∃ answer, Unlimited operation n answer ∧
      (∀ other, Unlimited operation n other → other = answer) ∧
      (answer = true ↔ ∃ i, FirstMatch operation n i) ∧
      ∀ limit, ∃ limited, isReachable limit operation n = .ok limited ∧
        (limited = true ↔
          answer = true ∧ ∀ i, FirstMatch operation n i → n.ShallowUpTo limit i) ∧
        (∀ i, FirstMatch operation n i → n.ShallowUpTo limit i → limited = answer) ∧
        (∀ i j s, FirstMatch operation n i → j ≤ i → n.way[j]? = some s → limit < s.depth →
          limited = false) ∧
        (limited = true → ∀ limit', limit ≤ limit' → isReachable limit' operation n = .ok true) ∧
        ((∀ s ∈ n.way, s.depth ≤ limit) → limited = answer) := by
  obtain ⟨answer, hanswer⟩ := exists_unlimited operation hw
  refine ⟨answer, hanswer, fun other => hanswer.unique, hanswer.iff_firstMatch hw, fun limit => ?_⟩
  obtain ⟨limited, hlimited⟩ := isReachable_ok operation limit hw
  have hexact : limited = true ↔ ∃ i, FirstMatch operation n i ∧ n.ShallowUpTo limit i := by
    rw [← isReachable_iff_firstMatch hw, hlimited, Except.ok.injEq]
  have hiff : limited = true ↔
      answer = true ∧ ∀ i, FirstMatch operation n i → n.ShallowUpTo limit i := by
    rw [hexact, hanswer.iff_firstMatch hw]
    constructor
    · rintro ⟨i, hfirst, hshallow⟩
      exact ⟨⟨i, hfirst⟩, fun j hj => hfirst.unique hj ▸ hshallow⟩
    · rintro ⟨⟨i, hfirst⟩, hshallow⟩
      exact ⟨i, hfirst, hshallow i hfirst⟩
  have hsame : (∀ i, FirstMatch operation n i → n.ShallowUpTo limit i) → limited = answer := by
    intro hshallow
    rw [Bool.eq_iff_iff, hiff]
    exact and_iff_left hshallow
  refine ⟨limited, hlimited, hiff, fun i hfirst hshallow => ?_, fun i j s hfirst hj hs hdeep => ?_,
    fun htrue limit' hle => isReachable_mono hle (htrue ▸ hlimited), fun hall => ?_⟩
  · exact hsame fun j hj => hfirst.unique hj ▸ hshallow
  · apply Bool.eq_false_iff.mpr
    intro htrue
    exact absurd ((hiff.mp htrue).2 i hfirst j hj s hs) (by omega)
  · exact hsame fun i _ j _ s hs => hall s (List.mem_of_getElem? hs)

/-- `await (await x)`, for a part that is two levels deeper than the node in it. -/
def deepPart : Node :=
  .await (.await (.identifier "x"))

/-- `q.refresh()` -/
def refreshCall : Node :=
  .call (.member (.identifier "q") (.identifier "refresh")) [] ⟨1, 1, 1, 1⟩

theorem wellFormed_deepPart : deepPart.WellFormed :=
  .await (.await (.identifier _))

theorem wellFormed_refreshCall : refreshCall.WellFormed :=
  .call (.member (.identifier _) (.identifier _)) (by simp)

/-- Three levels are enough to find the call before the deep part, and not to find it behind. -/
theorem deep_part_matters_only_before :
    (Node.block [refreshCall, deepPart]).WellFormed ∧
    (Node.block [deepPart, refreshCall]).WellFormed ∧
    isReachable 3 "refresh" (.block [refreshCall, deepPart]) = .ok true ∧
    isReachable 3 "refresh" (.block [deepPart, refreshCall]) = .ok false ∧
    Unlimited "refresh" (.block [deepPart, refreshCall]) true := by
  have hfront : (Node.block [refreshCall, deepPart]).WellFormed :=
    .block (by simp [wellFormed_deepPart, wellFormed_refreshCall])
  have hback : (Node.block [deepPart, refreshCall]).WellFormed :=
    .block (by simp [wellFormed_deepPart, wellFormed_refreshCall])
  obtain ⟨answer, hanswer, -, -, hlimited⟩ := limited_search_exact "refresh" hback
  obtain ⟨found, hfound, -, -, -, hmono, -⟩ := hlimited 4
  obtain rfl : found = true := Except.ok.inj (hfound.symm.trans rfl)
  have htrue : answer = true := by
    obtain ⟨bound, hbound⟩ := hanswer
    exact Except.ok.inj ((hbound _ (Nat.le_max_left bound 4)).symm.trans
      (hmono rfl _ (Nat.le_max_right bound 4)))
  exact ⟨hfront, hback, rfl, rfl, htrue ▸ hanswer⟩

end StaleQuery
