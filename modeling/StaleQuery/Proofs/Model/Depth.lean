import StaleQuery.Proofs.Model.Lowering
import StaleQuery.Proofs.Model.Events
import StaleQuery.Proofs.Tree.Walk

/-!
# More depth never changes an answer

What lowering or a search gives under one limit it gives under every higher one, and for each tree
and each model there is a limit that is high enough. So the answer without any limit is the answer
under a limit that cuts nothing short.
-/
namespace StaleQuery

namespace Tree

variable {t c : Tree}

theorem size_lt_of_mem_children (h : c ∈ t.children) : c.size < t.size := by
  obtain ⟨label, children⟩ := t
  have hle : c.size ≤ sizes children := size_lt_of_mem_sizes h
  rw [size_node]
  omega

theorem size_lt_of_child? {field : String} (h : t.child? field = some c) : c.size < t.size :=
  size_lt_of_mem_children (List.mem_of_find?_eq_some h)

theorem size_lt_of_mem_operands (h : c ∈ t.operands) : c.size < t.size :=
  size_lt_of_mem_namedChildren (List.mem_filter.mp h).1

theorem size_lt_of_head?_operands (h : t.operand? = some c) : c.size < t.size :=
  size_lt_of_mem_operands (List.mem_of_mem_head? h)

end Tree

namespace Lowering

/-- A computation that asks for the models of nodes smaller than `t` and for nothing else about
lowering: it has a result if they all have a model, and it keeps its result if more of them get
one. -/
structure Asks (t : Tree) {α : Type} (run : Lower → Option α) : Prop where
  total : ∀ f : Lower, (∀ c : Tree, c.size < t.size → ∃ n, f c = some n) → ∃ a, run f = some a
  mono : ∀ (f g : Lower) (a : α), (∀ c n, f c = some n → g c = some n) → run f = some a →
    run g = some a

namespace Asks

variable {t : Tree} {α β : Type}

theorem result (t : Tree) (a : α) : Asks t fun _ => some a where
  total _ _ := ⟨a, rfl⟩
  mono _ _ _ _ h := h

theorem model {c : Tree} (h : c.size < t.size) : Asks t fun lower => lower c where
  total _ hf := hf c h
  mono _ _ n hfg hf := hfg c n hf

theorem bind {run : Lower → Option α} {next : Lower → α → Option β} (h : Asks t run)
    (k : ∀ a, Asks t fun lower => next lower a) : Asks t fun lower => run lower >>= next lower where
  total f hf := by
    obtain ⟨a, ha⟩ := h.total f hf
    obtain ⟨b, hb⟩ := (k a).total f hf
    exact ⟨b, by simp [ha, hb]⟩
  mono f g b hfg hb := by
    obtain ⟨a, ha, hb⟩ := Option.bind_eq_some_iff.mp hb
    simp [h.mono f g a hfg ha, (k a).mono f g b hfg hb]

theorem mapM {run : Lower → Tree → Option β} {list : List Tree}
    (h : ∀ c ∈ list, Asks t fun lower => run lower c) :
    Asks t fun lower => list.mapM (run lower) := by
  induction list with
  | nil => exact result t []
  | cons c rest ih =>
    simp only [List.mapM_cons]
    apply (h c List.mem_cons_self).bind
    intro b
    apply (ih fun d hd => h d (List.mem_cons_of_mem _ hd)).bind
    intro list
    exact result t _

theorem make {run : Lower → Option α} (h : Asks t run) (f : α → β) :
    Asks t fun lower => do return f (← run lower) :=
  h.bind fun a => result t (f a)

theorem make₂ {γ : Type} {run : Lower → Option α} {run' : Lower → Option β} (h : Asks t run)
    (k : Asks t run') (f : α → β → γ) :
    Asks t fun lower => do return f (← run lower) (← run' lower) :=
  h.bind fun a => k.bind fun b => result t (f a b)

/-- What is made of a node that may be missing. -/
theorem ofChild {o : Option Tree} {run : Lower → Tree → Option β} (missing : β)
    (h : ∀ c, o = some c → Asks t fun lower => run lower c) :
    Asks t fun lower => match o with
      | none => some missing
      | some c => run lower c := by
  cases o with
  | none => exact result t missing
  | some c => exact h c rfl

end Asks

variable {t c : Tree}

theorem asks_wrap (make : Node → Node) : Asks t fun lower => wrap lower t make := by
  apply Asks.ofChild
  intro inner hinner
  exact (Asks.model (Tree.size_lt_of_head?_operands hinner)).make make

theorem asks_access (field : String) : Asks t fun lower => access lower t field := by
  cases ho : t.child? "object" with
  | none =>
    simp only [access, ho]
    exact .result t _
  | some receiver =>
    cases hp : t.child? field with
    | none =>
      simp only [access, ho, hp]
      exact .result t _
    | some name =>
      simp only [access, ho, hp]
      exact (Asks.model (Tree.size_lt_of_child? ho)).make₂
        (.model (Tree.size_lt_of_child? hp)) Node.member

section

variable {o : Option Tree} (h : ∀ c, o = some c → c.size < t.size)
include h

theorem asks_optional : Asks t fun lower => optional lower o := by
  apply Asks.ofChild
  intro c hc
  exact .model (h c hc)

theorem asks_value : Asks t fun lower => value lower o := by
  apply Asks.ofChild
  intro c hc
  exact .model (h c hc)

theorem asks_handler : Asks t fun lower => handler lower o := by
  apply Asks.ofChild
  intro c hc
  apply Asks.ofChild
  intro body hbody
  have hsize := Nat.lt_trans (Tree.size_lt_of_child? hbody) (h c hc)
  exact (Asks.model hsize).make Node.catchClause

theorem asks_arguments : Asks t fun lower => arguments lower o := by
  cases o with
  | none => exact .result t _
  | some list =>
    by_cases hkind : list.kind = "arguments"
    · simp only [arguments, hkind, if_true]
      refine .mapM fun c hc => .model ?_
      exact Nat.lt_trans (Tree.size_lt_of_mem_operands hc) (h list rfl)
    · simp only [arguments, hkind, if_false]
      exact .result t _

end

section

variable (h : c.size ≤ t.size)
include h

theorem asks_function : Asks t fun lower => function lower c := by
  apply Asks.ofChild
  intro body hbody
  have hsize := Nat.lt_of_lt_of_le (Tree.size_lt_of_child? hbody) h
  exact (Asks.model hsize).make Node.function

theorem asks_declarator : Asks t fun lower => declarator lower c := by
  apply Asks.ofChild
  intro target htarget
  have hsize := Nat.lt_of_lt_of_le (Tree.size_lt_of_child? htarget) h
  refine (Asks.model hsize).make₂ (asks_optional fun v hv => ?_) Node.declarator
  exact Nat.lt_of_lt_of_le (Tree.size_lt_of_child? hv) h

theorem asks_patternEntry : Asks t fun lower => patternEntry lower c := by
  have below : ∀ v, c.child? "value" = some v → v.size < t.size := fun v hv =>
    Nat.lt_of_lt_of_le (Tree.size_lt_of_child? hv) h
  unfold patternEntry
  split
  · exact .result t _
  · exact (asks_value below).make fun v => some (Node.patternProperty (key (c.child? "key")) v)
  · exact .result t _
  · exact .result t _

theorem asks_objectEntry : Asks t fun lower => objectEntry lower c := by
  have below : ∀ v, c.child? "value" = some v → v.size < t.size := fun v hv =>
    Nat.lt_of_lt_of_le (Tree.size_lt_of_child? hv) h
  unfold objectEntry
  split
  · exact (asks_value below).make fun v => some (Node.property (key (c.child? "key")) v c.span)
  · exact .result t _
  · exact (asks_function h).make fun v => some (Node.property (key (c.child? "name")) v c.span)
  · exact .result t _

end

theorem asks_entries {entry : Lower → Tree → Option (Option Node)}
    (h : ∀ c ∈ t.operands, Asks t fun lower => entry lower c) :
    Asks t fun lower => entries (entry lower) t :=
  (Asks.mapM h).make (List.filterMap id)

theorem asks_call : Asks t fun lower => call lower t := by
  apply Asks.ofChild
  intro callee hcallee
  have hsize := Tree.size_lt_of_child? hcallee
  by_cases htag : (t.child? "arguments").any (·.kind == "template_string") = true
  · simp only [htag, if_true]
    exact .result t _
  · simp only [htag]
    exact (Asks.model hsize).make₂ (asks_arguments fun list hl => Tree.size_lt_of_child? hl)
      fun m list => Node.call m list t.span

theorem size_lt_of_alternative (h : alternative t = some c) : c.size < t.size := by
  simp only [alternative] at h
  split at h
  · cases h
  · rename_i a ha
    have hsize := Tree.size_lt_of_child? ha
    split at h
    · exact Nat.lt_trans (Tree.size_lt_of_head?_operands h) hsize
    · obtain rfl := Option.some.inj h
      exact hsize

theorem asks_conditional : Asks t fun lower => conditional lower t := by
  apply Asks.ofChild
  intro consequence hc
  exact (Asks.model (Tree.size_lt_of_child? hc)).make₂
    (asks_optional fun _ ha => size_lt_of_alternative ha) Node.conditional

theorem asks_tryCatch : Asks t fun lower => tryCatch lower t := by
  apply Asks.ofChild
  intro body hbody
  exact (Asks.model (Tree.size_lt_of_child? hbody)).make₂
    (asks_handler fun _ hh => Tree.size_lt_of_child? hh) Node.tryCatch

theorem asks_catchClause : Asks t fun lower => catchClause lower t := by
  apply Asks.ofChild
  intro body hbody
  exact (Asks.model (Tree.size_lt_of_child? hbody)).make Node.catchClause

/-- One level of lowering asks for the models of smaller nodes only. -/
theorem asks_level (t : Tree) : Asks t fun lower => level lower t := by
  have operands : ∀ c ∈ t.operands, c.size < t.size := fun c hc => Tree.size_lt_of_mem_operands hc
  by_cases hchain : t.inOptionalChain = true
  · simp only [level, hchain, if_true]
    exact .result t _
  simp only [level, hchain]
  cases t.form with
  | identifier => exact .result t _
  | parenthesized => exact asks_wrap id
  | member => exact asks_access "property"
  | subscript => exact asks_access "index"
  | call => exact asks_call
  | await => exact asks_wrap Node.await
  | block => exact (Asks.mapM fun c hc => .model (operands c hc)).make Node.block
  | expressionStatement => exact asks_wrap Node.expressionStatement
  | conditional => exact asks_conditional
  | tryCatch => exact asks_tryCatch
  | catchClause => exact asks_catchClause
  | declaration =>
    refine (Asks.mapM fun c hc => asks_declarator ?_).make Node.declaration
    exact Nat.le_of_lt (operands c (List.mem_filter.mp hc).1)
  | declarator => exact asks_declarator (Nat.le_refl _)
  | objectPattern =>
    exact (asks_entries fun c hc => asks_patternEntry (Nat.le_of_lt (operands c hc))).make
      Node.objectPattern
  | object =>
    exact (asks_entries fun c hc => asks_objectEntry (Nat.le_of_lt (operands c hc))).make Node.object
  | function => exact asks_function (Nat.le_refl _)
  | other => exact .result t _

end Lowering

namespace Tree

theorem lower_mono {limit limit' : Nat} (h : limit ≤ limit') {t : Tree} {n : Node}
    (hn : t.lower limit = some n) : t.lower limit' = some n := by
  induction limit generalizing limit' t n with
  | zero => cases hn
  | succ limit ih =>
    obtain ⟨limit', rfl⟩ : ∃ k, limit' = k + 1 := ⟨limit' - 1, by omega⟩
    exact (Lowering.asks_level t).mono _ _ n (fun c m hc => ih (by omega) hc) hn

/-- As many levels as there are nodes are enough. -/
theorem lower_of_size_le {limit : Nat} {t : Tree} (h : t.size ≤ limit) :
    ∃ n, t.lower limit = some n := by
  induction limit generalizing t with
  | zero =>
    obtain ⟨label, children⟩ := t
    rw [size_node] at h
    omega
  | succ limit ih => exact (Lowering.asks_level t).total _ fun c hc => ih (by omega)

theorem lowerCallSite_mono {limit limit' : Nat} (h : limit ≤ limit') {t : Tree} {n : Node}
    (hn : t.lowerCallSite limit = some n) : t.lowerCallSite limit' = some n :=
  Lowering.asks_call.mono _ _ n (fun _ _ => lower_mono h) hn

theorem lowerCallSite_of_size_le {limit : Nat} {t : Tree} (h : t.size ≤ limit) :
    ∃ n, t.lowerCallSite limit = some n :=
  Lowering.asks_call.total _ fun _ hc => lower_of_size_le (by omega)

end Tree

/-- The second outcome is the first, unless the first was cut short. -/
inductive Outcome.Extends : Outcome → Outcome → Prop where
  | same (o) : Extends o o
  | tooDeep (o) : Extends tooDeep o

theorem Outcome.Extends.andThen {o o' : Outcome} {next next' : Aliases → Outcome}
    (h : o.Extends o') (hnext : ∀ aliases, (next aliases).Extends (next' aliases)) :
    (o.andThen next).Extends (o'.andThen next') := by
  cases h with
  | tooDeep => exact .tooDeep _
  | same =>
    cases o with
    | missed aliases => exact hnext aliases
    | found | tooDeep | broken => exact .same _

theorem Search.each_extends {visit visit' : Visit}
    (h : ∀ n aliases, (visit n aliases).Extends (visit' n aliases)) (list : List Node)
    (aliases : Aliases) : (each visit list aliases).Extends (each visit' list aliases) := by
  induction list generalizing aliases with
  | nil => exact .same _
  | cons n rest ih => exact (h n aliases).andThen ih

theorem search_extends (operation : String) {limit limit' : Nat} (h : limit ≤ limit') (n : Node)
    (aliases : Aliases) :
    (search operation limit n aliases).Extends (search operation limit' n aliases) := by
  induction limit generalizing limit' n aliases with
  | zero =>
    cases n with
    | absent =>
      rw [search_absent, search_absent]
      exact .same _
    | _ => exact .tooDeep _
  | succ limit ih =>
    obtain ⟨limit', rfl⟩ : ∃ k, limit' = k + 1 := ⟨limit' - 1, by omega⟩
    rw [search, search, Search.level_eq, Search.level_eq]
    apply (Outcome.Extends.same _).andThen
    exact Search.each_extends (fun n aliases => ih (by omega) n aliases) n.searched

/-- A search that is not cut short ends the same way under every higher limit. -/
theorem search_mono {operation : String} {limit limit' : Nat} (h : limit ≤ limit') {n : Node}
    {aliases : Aliases} (hn : search operation limit n aliases ≠ .tooDeep) :
    search operation limit' n aliases = search operation limit n aliases := by
  have hext := search_extends operation h n aliases
  generalize search operation limit n aliases = o at hn hext
  generalize search operation limit' n aliases = o' at hext
  cases hext with
  | same => rfl
  | tooDeep => exact absurd rfl hn

theorem Node.within_of_sizeOf_le {limit : Nat} {n : Node} (h : sizeOf n ≤ limit) :
    n.Within limit := by
  induction limit generalizing n with
  | zero => cases n <;> simp at h
  | succ limit ih =>
    intro m hm
    have hlt := Node.sizeOf_lt_of_mem_searched hm
    exact ih (by omega)

theorem Search.enter_ne_tooDeep (operation : String) (n : Node) (aliases : Aliases) :
    enter operation n aliases ≠ .tooDeep := by
  cases n with
  | declarator target init =>
    simp only [enter]
    split <;> simp
  | call callee arguments span =>
    simp only [enter]
    split <;> simp
  | _ => simp [enter]

theorem Search.each_enter_ne_tooDeep {operation : String} (list : List Node) (aliases : Aliases) :
    each (enter operation) list aliases ≠ .tooDeep := by
  induction list generalizing aliases with
  | nil => simp
  | cons n rest ih =>
    rw [each_cons]
    have hn := enter_ne_tooDeep operation n aliases
    cases ho : enter operation n aliases with
    | tooDeep => exact absurd ho hn
    | missed after => exact ih after
    | found | broken => simp

/-- Within its limit a search is not cut short. -/
theorem search_ne_tooDeep {operation : String} {limit : Nat} {n : Node} (h : n.Within limit)
    (aliases : Aliases) : search operation limit n aliases ≠ .tooDeep := by
  rw [search_eq_each_events h]
  exact Search.each_enter_ne_tooDeep n.events aliases

end StaleQuery
