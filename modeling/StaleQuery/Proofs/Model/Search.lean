import StaleQuery.Proofs.Model.Aliases

/-!
# What a search can end with

The induction over a search, done once: whatever holds of each event, for nodes of some sort and
for aliases of some sort, holds of the whole search. On a well-formed node no search breaks off.
-/
namespace StaleQuery

/-- What holds of an outcome, case by case. A search that is too deep may hide anything. -/
def Outcome.Ends (onFound : Prop) (onMissed : Aliases → Prop) (onBroken : Prop) : Outcome → Prop
  | found => onFound
  | missed aliases => onMissed aliases
  | tooDeep => True
  | broken _ => onBroken

variable {F : Prop} {M : Aliases → Prop} {B : Prop}

theorem Outcome.Ends.andThen {o : Outcome} {next : Aliases → Outcome} (h : o.Ends F M B)
    (hnext : ∀ aliases, M aliases → (next aliases).Ends F M B) : (o.andThen next).Ends F M B := by
  cases o with
  | missed aliases => exact hnext aliases h
  | found | tooDeep | broken => exact h

namespace Search

theorem each_ends {visit : Visit} {list : List Node} {aliases : Aliases} (ha : M aliases)
    (h : ∀ n ∈ list, ∀ aliases, M aliases → (visit n aliases).Ends F M B) :
    (each visit list aliases).Ends F M B := by
  induction list generalizing aliases with
  | nil => exact ha
  | cons n rest ih =>
    rw [each_cons]
    apply (h n List.mem_cons_self aliases ha).andThen
    intro after hafter
    exact ih hafter fun m hm => h m (List.mem_cons_of_mem _ hm)

theorem enter_not_broken {operation : String} {n : Node} (h : n.WellFormed) (aliases : Aliases) :
    (enter operation n aliases).Ends True (fun _ => True) False := by
  cases n with
  | declarator target init =>
    have htarget : target.WellFormed := by cases h <;> assumption
    obtain ⟨after, hafter, -⟩ := collectAliases_spec operation htarget init aliases
    simp [enter, hafter, Outcome.Ends]
  | call callee arguments span =>
    simp only [enter]
    split <;> trivial
  | _ => trivial

end Search

/-- What each event keeps, for nodes of a sort that searched places inherit, a search keeps. -/
theorem search_ends {operation : String} (Good : Node → Prop)
    (inherit : ∀ n, Good n → ∀ m ∈ n.searched, Good m)
    (step : ∀ n aliases, Good n → M aliases → (Search.enter operation n aliases).Ends F M B)
    {limit : Nat} {n : Node} {aliases : Aliases} (hn : Good n) (ha : M aliases) :
    (search operation limit n aliases).Ends F M B := by
  induction limit generalizing n aliases with
  | zero => cases n <;> first | exact ha | trivial
  | succ limit ih =>
    rw [search, Search.level_eq]
    apply (step n aliases hn ha).andThen
    intro after hafter
    exact Search.each_ends hafter fun m hm aliases ha => ih (inherit n hn m hm) ha

/-- Nodes on which no event breaks off, in places that are searched, can be searched. -/
theorem isReachable_ok_of {operation : String} {limit : Nat} (Good : Node → Prop)
    (inherit : ∀ n, Good n → ∀ m ∈ n.searched, Good m)
    (step : ∀ n aliases, Good n →
      (Search.enter operation n aliases).Ends True (fun _ => True) False)
    {n : Node} (hn : Good n) : ∃ answer, isReachable limit operation n = .ok answer := by
  have hends : (search operation limit n []).Ends True (fun _ => True) False :=
    search_ends Good inherit (fun n aliases hn _ => step n aliases hn) hn trivial
  simp only [isReachable]
  cases hs : search operation limit n [] with
  | found => exact ⟨true, rfl⟩
  | missed | tooDeep => exact ⟨false, rfl⟩
  | broken => simp [hs, Outcome.Ends] at hends

theorem isReachable_ok (operation : String) (limit : Nat) {n : Node} (h : n.WellFormed) :
    ∃ answer, isReachable limit operation n = .ok answer := by
  refine isReachable_ok_of (fun n => n = .absent ∨ n.WellFormed) ?_ ?_ (Or.inr h)
  · rintro n (rfl | hn) m hm
    · cases hm
    · exact hn.searched m hm
  · rintro n aliases (rfl | hn)
    · trivial
    · exact Search.enter_not_broken hn aliases

end StaleQuery
