import StaleQuery.Proofs.Model.Brackets

/-!
# Parentheses do not show

Parentheses can be put around any operand, any number of times, and the models of the nodes above stay
what they are. One thing alone sees them: they end a chain. So a chain with an optional link may not be
enclosed where another chain goes on, and if it is, the chain above is opened and the enclosed one is
sealed by itself.
-/
namespace StaleQuery

/-- A node does not look at the field that it stands under. -/
theorem Tree.lower_loose (limit : Nat) (t : Tree) : t.loose.lower limit = t.lower limit := by
  cases limit with
  | zero => rfl
  | succ limit =>
    cases t
    rfl

namespace Parens

variable {p : Parens} {t : Tree}

theorem lower_around (hp : p.Clean) (ht : t.isOperand = true) (limit : Nat) :
    (p.around t).lower (limit + 1) = t.lower limit := by
  have hlevel : (p.around t).lower (limit + 1) =
      Lowering.wrap (Tree.lower limit) (p.around t) id := rfl
  rw [hlevel, Lowering.wrap, operand?_around hp ht]
  simp only [Tree.lower_loose]
  cases t.lower limit <;> rfl

theorem lower_enclose {list : List Parens} (hlist : ∀ p ∈ list, p.Clean) (ht : t.isOperand = true)
    (limit : Nat) : (enclose list t).lower (limit + list.length) = t.lower limit := by
  induction list with
  | nil => rfl
  | cons p rest ih =>
    rw [List.length_cons, ← Nat.add_assoc, ← ih fun q hq => hlist q (List.mem_cons_of_mem _ hq)]
    exact lower_around (hlist p List.mem_cons_self) (isOperand_enclose ht rest) _

end Parens

namespace Lowering

open Bracketing

/-- What is read off the tree with the parentheses is read off the tree without them too. The other
way round the limit may be too low. -/
def Keeps {α : Type} (run : Tree → Option α) (r : Bracketing) : Prop :=
  ∀ a, run r.full = some a → run r.plain = some a

theorem Keeps.make {α β : Type} {run : Tree → Option α} {r : Bracketing} (h : Keeps run r)
    (make : α → β) : Keeps (fun t => do return make (← run t)) r := by
  intro b hb
  obtain ⟨a, ha, rfl⟩ := bind_return.mp hb
  exact bind_return.mpr ⟨a, h a ha, rfl⟩

theorem mapM_keeps {α : Type} {run : Tree → Option α} {list : List Bracketing}
    (h : ∀ c ∈ list, Keeps run c) {results : List α}
    (hresults : (list.map full).mapM run = some results) :
    (list.map plain).mapM run = some results := by
  induction list generalizing results with
  | nil => exact hresults
  | cons c rest ih =>
    rw [List.map_cons, List.mapM_cons] at hresults ⊢
    obtain ⟨a, ha, others, hothers, rfl⟩ := bind_return₂.mp hresults
    exact bind_return₂.mpr ⟨a, h c List.mem_cons_self a ha, others,
      ih (fun d hd => h d (List.mem_cons_of_mem _ hd)) hothers, rfl⟩

/-- What is made of a node that may be missing. -/
theorem onChild_keeps {α : Type} {o : Option Bracketing} {missing : Option α}
    {run : Tree → Option α} (h : ∀ c, o = some c → Keeps run c) {a : α}
    (ha : (match o.map full with | none => missing | some c => run c) = some a) :
    (match o.map plain with | none => missing | some c => run c) = some a := by
  cases o with
  | none => exact ha
  | some c => exact h c rfl a ha

/-- The same where another part, which may be missing too, goes in with it. -/
theorem onChild_keeps₂ {f : Lower} {o : Option Bracketing} {missing first second : Option Node}
    {make : Node → Node → Node} (h : ∀ c, o = some c → Keeps f c)
    (hsecond : ∀ k, first = some k → second = some k) {n : Node}
    (hn : (match o.map full with
      | none => missing
      | some c => do return make (← f c) (← first)) = some n) :
    (match o.map plain with
      | none => missing
      | some c => do return make (← f c) (← second)) = some n := by
  cases o with
  | none => exact hn
  | some c =>
    obtain ⟨m, hm, k, hk, rfl⟩ := bind_return₂.mp hn
    exact bind_return₂.mpr ⟨m, h c rfl m hm, k, hsecond k hk, rfl⟩

/-- A key is no place for parentheses, and neither is what stands in its brackets. -/
theorem key_full {o : Option Bracketing} (h : ∀ c, o = some c → c.Admissible ∧ c.IsNode) :
    key (o.map full) = key (o.map plain) := by
  cases o with
  | none => rfl
  | some c =>
    obtain ⟨hc, hnode⟩ := h c rfl
    simp only [Option.map_some, key, kind_full hnode, kind_plain]
    split
    case h_1 hkind | h_2 hkind | h_3 hkind => rw [hc.text_full hnode (by rw [hkind]; rfl)]
    case h_4 hkind =>
      rw [hc.operand?_full hnode, operand?_plain hnode]
      cases hinner : c.operand? with
      | none => rfl
      | some inner =>
        have hmem : inner ∈ c.children :=
          (List.mem_filter.mp (List.mem_of_mem_head? hinner)).1
        have hplace : inner.IsNode := by
          apply hc.isNode_of_mem hmem
          rw [hkind]
          cases inner.field with
          | none => rfl
          | some name => simp [holdsOperand, operandKinds, operandFields]
        simp only [Option.map_some, kind_full hplace, kind_plain]
        split
        · rename_i hidentifier
          rw [(hc.of_operand? hinner).text_full hplace (by rw [hidentifier]; rfl)]
        · rfl
    case h_5 => rfl

section

variable {f : Lower} (hf : ∀ r : Bracketing, r.Admissible → Keeps f r)
include hf

theorem value_keeps {o : Option Bracketing} (h : ∀ c, o = some c → c.Admissible) {n : Node}
    (hn : value f (o.map full) = some n) : value f (o.map plain) = some n :=
  onChild_keeps (fun c hc => hf c (h c hc)) hn

theorem optional_keeps {o : Option Bracketing} (h : ∀ c, o = some c → c.Admissible) {n : Node}
    (hn : optional f (o.map full) = some n) : optional f (o.map plain) = some n :=
  onChild_keeps (fun c hc => hf c (h c hc)) hn

theorem arguments_keeps {o : Option Bracketing}
    (h : ∀ c, o = some c → c.Admissible ∧ c.IsNode) {list : List Node}
    (hlist : arguments f (o.map full) = some list) : arguments f (o.map plain) = some list := by
  cases o with
  | none => exact hlist
  | some c =>
    obtain ⟨hc, hnode⟩ := h c rfl
    simp only [Option.map_some, arguments, kind_full hnode, kind_plain, hc.operands_full hnode,
      operands_plain hnode] at hlist ⊢
    split
    · rename_i hkind
      rw [if_pos hkind] at hlist
      exact mapM_keeps (fun d hd => hf d (hc.of_mem_operands hd)) hlist
    · rename_i hkind
      rwa [if_neg hkind] at hlist

theorem handler_keeps {o : Option Bracketing} (h : ∀ c, o = some c → c.Admissible ∧ c.IsNode)
    {n : Node} (hn : handler f (o.map full) = some n) : handler f (o.map plain) = some n := by
  cases o with
  | none => exact hn
  | some c =>
    obtain ⟨hc, hnode⟩ := h c rfl
    simp only [Option.map_some, handler, child?_full hnode, child?_plain hnode] at hn ⊢
    exact onChild_keeps (fun d hd => (hf d (hc.of_child? hd)).make Node.catchClause) hn

variable {r : Bracketing} (h : r.Admissible) (hnode : r.IsNode)
include h hnode

theorem wrap_keeps (make : Node → Node) : Keeps (wrap f · make) r := by
  intro n hn
  simp only [wrap, h.operand?_full hnode, kind_full hnode] at hn
  simp only [wrap, operand?_plain hnode, kind_plain]
  exact onChild_keeps (fun c hc => (hf c (h.of_operand? hc)).make make) hn

theorem access_keeps (field : String) : Keeps (access f · field) r := by
  intro n hn
  simp only [access, child?_full hnode, child?_plain hnode, kind_full hnode, kind_plain] at hn ⊢
  cases hreceiver : r.child? "object" with
  | none => simpa [hreceiver] using hn
  | some receiver =>
    cases hname : r.child? field with
    | none => simpa [hreceiver, hname] using hn
    | some name =>
      simp only [hreceiver, hname, Option.map_some] at hn ⊢
      obtain ⟨m, hm, k, hk, rfl⟩ := bind_return₂.mp hn
      exact bind_return₂.mpr ⟨m, hf receiver (h.of_child? hreceiver) m hm, k,
        hf name (h.of_child? hname) k hk, rfl⟩

theorem function_keeps : Keeps (function f) r := by
  intro n hn
  simp only [function, child?_full hnode, child?_plain hnode, kind_full hnode, kind_plain] at hn ⊢
  exact onChild_keeps (fun c hc => (hf c (h.of_child? hc)).make Node.function) hn

theorem catchClause_keeps : Keeps (catchClause f) r := by
  intro n hn
  simp only [catchClause, child?_full hnode, child?_plain hnode, kind_full hnode,
    kind_plain] at hn ⊢
  exact onChild_keeps (fun c hc => (hf c (h.of_child? hc)).make Node.catchClause) hn

theorem call_keeps (hform : Form.ofKind r.kind = .call) : Keeps (call f) r := by
  have hlist : ∀ c, r.child? "arguments" = some c → c.Admissible ∧ c.IsNode := fun c hc =>
    ⟨h.of_child? hc, h.isNode_of_child? hc (holdsOperand_arguments hform)⟩
  have htag : ((r.child? "arguments").map full).any (·.kind == "template_string") =
      ((r.child? "arguments").map plain).any (·.kind == "template_string") := by
    cases hc : r.child? "arguments" with
    | none => rfl
    | some c => simp [kind_full (hlist c hc).2, kind_plain]
  intro n hn
  simp only [call, child?_full hnode, child?_plain hnode, kind_full hnode, kind_plain, htag,
    span_full hnode] at hn ⊢
  cases hcallee : r.child? "function" with
  | none => simpa [hcallee] using hn
  | some callee =>
    simp only [hcallee, Option.map_some] at hn ⊢
    split
    · rename_i htemplate
      rwa [if_pos htemplate] at hn
    · rename_i htemplate
      rw [if_neg htemplate] at hn
      obtain ⟨m, hm, list, hlower, rfl⟩ := bind_return₂.mp hn
      exact bind_return₂.mpr ⟨m, hf callee (h.of_child? hcallee) m hm, list,
        arguments_keeps hf hlist hlower, rfl⟩

omit hf in
/-- What stands after `else` is the same statement in both trees. -/
theorem alternative_full (hform : Form.ofKind r.kind = .conditional) :
    ∃ o : Option Bracketing, (∀ c, o = some c → c.Admissible) ∧
      alternative r.full = o.map full ∧ alternative r.plain = o.map plain := by
  simp only [alternative, child?_full hnode, child?_plain hnode]
  cases hc : r.child? "alternative" with
  | none => exact ⟨none, by simp, rfl, rfl⟩
  | some c =>
    have hclause := h.of_child? hc
    have hplace : c.IsNode := by
      apply h.isNode_of_child? hc
      exact holdsOperand_of_readsKinds (by rw [hform]; rfl) _
    by_cases hkind : c.kind = "else_clause"
    · refine ⟨c.operand?, fun d => hclause.of_operand?, ?_, ?_⟩
      · simp [kind_full hplace, hkind, hclause.operand?_full hplace]
      · simp [kind_plain, hkind, operand?_plain hplace]
    · refine ⟨some c, fun d hd => Option.some.inj hd ▸ hclause, ?_, ?_⟩
      · simp [kind_full hplace, hkind]
      · simp [kind_plain, hkind]

theorem conditional_keeps (hform : Form.ofKind r.kind = .conditional) :
    Keeps (conditional f) r := by
  obtain ⟨o, hadmissible, hfull, hplain⟩ := alternative_full h hnode hform
  intro n hn
  simp only [conditional, child?_full hnode, child?_plain hnode, kind_full hnode, kind_plain, hfull,
    hplain] at hn ⊢
  exact onChild_keeps₂ (fun c hc => hf c (h.of_child? hc))
    (fun k hk => optional_keeps hf hadmissible hk) hn

theorem tryCatch_keeps (hform : Form.ofKind r.kind = .tryCatch) : Keeps (tryCatch f) r := by
  have hhandler : ∀ c, r.child? "handler" = some c → c.Admissible ∧ c.IsNode := fun c hc =>
    ⟨h.of_child? hc, h.isNode_of_child? hc (holdsOperand_of_readsKinds (by rw [hform]; rfl) _)⟩
  intro n hn
  simp only [tryCatch, child?_full hnode, child?_plain hnode, kind_full hnode, kind_plain] at hn ⊢
  exact onChild_keeps₂ (fun c hc => hf c (h.of_child? hc))
    (fun k hk => handler_keeps hf hhandler hk) hn

theorem declarator_keeps : Keeps (declarator f) r := by
  intro n hn
  simp only [declarator, child?_full hnode, child?_plain hnode, kind_full hnode,
    kind_plain] at hn ⊢
  exact onChild_keeps₂ (fun c hc => hf c (h.of_child? hc))
    (fun k hk => optional_keeps hf (fun v hv => h.of_child? hv) hk) hn

theorem declaration_keeps (hform : Form.ofKind r.kind = .declaration) :
    Keeps (declaration f) r := by
  have hnodes : ∀ c ∈ r.operands, c.IsNode := fun c =>
    h.isNode_of_mem_operands (by rw [hform]; rfl)
  have htest : ∀ c ∈ r.operands, (isDeclarator ∘ full) c = (isDeclarator ∘ plain) c := by
    intro c hc
    simp [isDeclarator, kind_full (hnodes c hc), kind_plain, child?_full (hnodes c hc),
      child?_plain (hnodes c hc)]
  intro n hn
  rw [declaration, h.operands_full hnode, List.filter_map, List.filter_congr htest] at hn
  rw [declaration, operands_plain hnode, List.filter_map]
  obtain ⟨list, hlist, rfl⟩ := bind_return.mp hn
  refine bind_return.mpr ⟨list, mapM_keeps (fun c hc => ?_) hlist, rfl⟩
  have hmem := (List.mem_filter.mp hc).1
  exact declarator_keeps hf (h.of_mem_operands hmem) (hnodes c hmem)

omit hf hnode in
theorem key_child_full {field : String} (hno : holdsOperand r.kind (some field) = false) :
    key ((r.child? field).map full) = key ((r.child? field).map plain) :=
  key_full fun _ hc => ⟨h.of_child? hc, h.isNode_of_child? hc hno⟩

theorem patternEntry_keeps : Keeps (patternEntry f) r := by
  intro n hn
  simp only [patternEntry, kind_full hnode, kind_plain, child?_full hnode,
    child?_plain hnode] at hn ⊢
  split at hn
  · rename_i hkind
    rwa [h.text_full hnode (by rw [hkind]; rfl)] at hn
  · rename_i hkind
    rw [key_child_full h (by rw [hkind]; rfl)] at hn
    obtain ⟨v, hv, rfl⟩ := bind_return.mp hn
    exact bind_return.mpr ⟨v, value_keeps hf (fun c hc => h.of_child? hc) hv, rfl⟩
  · rename_i hkind
    rwa [key_child_full h (by rw [hkind]; rfl)] at hn
  · exact hn

theorem objectEntry_keeps : Keeps (objectEntry f) r := by
  intro n hn
  simp only [objectEntry, kind_full hnode, kind_plain, child?_full hnode, child?_plain hnode,
    span_full hnode] at hn ⊢
  split at hn
  · rename_i hkind
    rw [key_child_full h (by rw [hkind]; rfl)] at hn
    obtain ⟨v, hv, rfl⟩ := bind_return.mp hn
    exact bind_return.mpr ⟨v, value_keeps hf (fun c hc => h.of_child? hc) hv, rfl⟩
  · rename_i hkind
    rwa [h.text_full hnode (by rw [hkind]; rfl)] at hn
  · rename_i hkind
    rw [key_child_full h (by rw [hkind]; rfl)] at hn
    obtain ⟨v, hv, rfl⟩ := bind_return.mp hn
    exact bind_return.mpr ⟨v, function_keeps hf h hnode v hv, rfl⟩
  · exact hn

omit hf in
theorem entries_keeps {entry : Tree → Option (Option Node)} (hentry : ∀ c ∈ r.operands, Keeps entry c) :
    Keeps (entries entry) r := by
  intro list hlist
  rw [entries, h.operands_full hnode] at hlist
  rw [entries, operands_plain hnode]
  obtain ⟨found, hfound, rfl⟩ := bind_return.mp hlist
  exact bind_return.mpr ⟨found, mapM_keeps hentry hfound, rfl⟩

/-- One level of lowering keeps what it reads if the next one does. -/
theorem level_keeps : Keeps (level f) r := by
  have hnodes : (Form.ofKind r.kind).readsKinds = true → ∀ c ∈ r.operands, c.IsNode :=
    fun hreads c => h.isNode_of_mem_operands hreads
  intro n hn
  simp only [level, h.inOptionalChain_full hnode, Tree.form, kind_full hnode, kind_plain] at hn ⊢
  split
  · rename_i hchain
    rwa [if_pos hchain] at hn
  rename_i hchain
  rw [if_neg hchain] at hn
  cases hform : Form.ofKind r.kind <;> simp only [hform] at hn ⊢
  case identifier => rwa [h.text_full hnode hform] at hn
  case parenthesized => exact wrap_keeps hf h hnode id n hn
  case member => exact access_keeps hf h hnode "property" n hn
  case subscript => exact access_keeps hf h hnode "index" n hn
  case call => exact call_keeps hf h hnode hform n hn
  case await => exact wrap_keeps hf h hnode .await n hn
  case block =>
    rw [h.operands_full hnode] at hn
    rw [operands_plain hnode]
    obtain ⟨body, hbody, rfl⟩ := bind_return.mp hn
    exact bind_return.mpr
      ⟨body, mapM_keeps (fun c hc => hf c (h.of_mem_operands hc)) hbody, rfl⟩
  case expressionStatement => exact wrap_keeps hf h hnode .expressionStatement n hn
  case conditional => exact conditional_keeps hf h hnode hform n hn
  case tryCatch => exact tryCatch_keeps hf h hnode hform n hn
  case catchClause => exact catchClause_keeps hf h hnode n hn
  case declaration => exact declaration_keeps hf h hnode hform n hn
  case declarator => exact declarator_keeps hf h hnode n hn
  case objectPattern =>
    have hentry : ∀ c ∈ r.operands, Keeps (patternEntry f) c := fun c hc =>
      patternEntry_keeps hf (h.of_mem_operands hc) (hnodes (by rw [hform]; rfl) c hc)
    exact (entries_keeps h hnode hentry).make .objectPattern n hn
  case object =>
    have hentry : ∀ c ∈ r.operands, Keeps (objectEntry f) c := fun c hc =>
      objectEntry_keeps hf (h.of_mem_operands hc) (hnodes (by rw [hform]; rfl) c hc)
    exact (entries_keeps h hnode hentry).make .object n hn
  case function => exact function_keeps hf h hnode n hn
  case other => exact hn

end
end Lowering

namespace Bracketing.Admissible

variable {r : Bracketing} (h : r.Admissible)
include h

/-- What the tree with the parentheses is lowered to, the tree without them is lowered to within the
same limit. -/
theorem lower_plain {limit : Nat} {n : Node} (hn : r.full.lower limit = some n) :
    r.plain.lower limit = some n := by
  induction limit generalizing r n with
  | zero => cases hn
  | succ limit ih =>
    cases h with
    | node htext hbelow hplaces hspine =>
      exact Lowering.level_keeps (fun s hs m hm => ih hs hm)
        (.node htext hbelow hplaces hspine) trivial n hn
    | @enclosed parens inner hclean hexpression hinner =>
      have hoperand : inner.full.isOperand = true := by
        rw [hinner.isOperand_full, ← isOperand_plain, hexpression.1]
      have hbelow := (Parens.lower_around hclean hoperand limit).symm.trans hn
      exact Tree.lower_mono (Nat.le_succ limit) (ih hinner hbelow)

/-- Both trees have one and the same model. -/
theorem exists_model : ∃ n, (∃ limit, r.plain.lower limit = some n ∧ r.full.lower limit = some n) ∧
    ∀ limit m, r.plain.lower limit = some m ∨ r.full.lower limit = some m → m = n := by
  obtain ⟨n, hn⟩ := Tree.lower_of_size_le (Nat.le_refl r.full.size)
  have hplain := h.lower_plain hn
  refine ⟨n, ⟨r.full.size, hplain, hn⟩, fun limit m hm => ?_⟩
  have hm : r.plain.lower limit = some m := hm.elim id h.lower_plain
  have hsame := (Tree.lower_mono (Nat.le_max_left limit r.full.size) hm).symm.trans
    (Tree.lower_mono (Nat.le_max_right limit r.full.size) hplain)
  exact Option.some.inj hsame

end Bracketing.Admissible

/-! Chains with an optional link in parentheses -/

section

variable {list : List Parens} {t : Tree} (hlist : ∀ p ∈ list, p.Clean) (ht : t.isOperand = true)
  (hmark : ∃ link ∈ t.spine, link.hasOptionalMark = true)
include hlist ht hmark

theorem Parens.lower_enclose_chain {limit : Nat} (h : list.length < limit) :
    (enclose list t).lower limit = some (.sealed "chain_expression") := by
  have hlink : t.IsLink := by
    by_contra hno
    simp [Tree.spine_of_not_isLink hno] at hmark
  obtain ⟨below, rfl⟩ : ∃ below, limit = below + 1 + list.length := ⟨limit - 1 - list.length, by omega⟩
  rw [lower_enclose hlist ht]
  exact (Tree.lower_eq_chain_iff hlink below).mpr hmark

theorem Parens.eq_chain_of_lower_enclose {limit : Nat} {n : Node}
    (h : (enclose list t).lower limit = some n) : n = .sealed "chain_expression" := by
  have hhigh := Tree.lower_mono (Nat.le_add_right limit (list.length + 1)) h
  have hchain := lower_enclose_chain hlist ht hmark (by omega : list.length < limit + (list.length + 1))
  exact Option.some.inj (hhigh.symm.trans hchain)

end

/-- Parentheses end the chain that goes on in them. -/
theorem Tree.inOptionalChain_of_enclosed {above inner : Tree} {list : List Parens} (hne : list ≠ [])
    (hnext : above.next? = some (Parens.enclose list inner))
    (hmark : above.hasOptionalMark = false) : above.inOptionalChain = false := by
  obtain ⟨field, hfield, hchild⟩ := Option.bind_eq_some_iff.mp hnext
  obtain ⟨p, rest, rfl⟩ := List.exists_cons_of_ne_nil hne
  rw [inOptionalChain_eq, hfield]
  simp only [hmark, hchild, Bool.false_or, Option.any_some]
  rfl

/-- Parentheses do not show in the models of a tree. Whatever operands they are put around, however
often and with whatever comments, every node is lowered to what it was lowered to without them, as long
as no chain goes on in an optional chain that is enclosed. If one does, the enclosed chain is sealed by
itself and the link above it is an ordinary access or call of something sealed. -/
theorem parentheses_do_not_show :
    (∀ r : Bracketing, r.Admissible → ∀ s : Bracketing, s.PartOf r →
      (∃ limit n, s.plain.lower limit = some n ∧ s.full.lower limit = some n) ∧
      ∀ limit limit' n n', s.plain.lower limit = some n → s.full.lower limit' = some n' → n' = n) ∧
    ∀ (list : List Parens) (t : Tree), list ≠ [] → (∀ p ∈ list, p.Clean) → t.isOperand = true →
      (∃ link ∈ t.spine, link.hasOptionalMark = true) →
      (∀ limit, list.length < limit →
        (Parens.enclose list t).lower limit = some (.sealed "chain_expression")) ∧
      ∀ above : Tree, above.next? = some (Parens.enclose list t) → above.hasOptionalMark = false →
        (∃ limit n, above.lower limit = some n) ∧
        (∀ field name, Lowering.accessField? above.form = some field →
          above.child? field = some name → ∀ limit n, above.lower (limit + 1) = some n →
          ∃ m, name.lower limit = some m ∧ n = .member (.sealed "chain_expression") m) ∧
        (above.kind = "call_expression" →
          (∀ arguments, above.child? "arguments" = some arguments →
            arguments.kind ≠ "template_string") →
          ∀ limit n, above.lower (limit + 1) = some n → ∃ arguments,
            Lowering.arguments (Tree.lower limit) (above.child? "arguments") = some arguments ∧
            n = .call (.sealed "chain_expression") arguments above.span) := by
  refine ⟨fun r hr s hs => ?_, fun list t hne hlist ht hmark => ⟨fun limit hlimit => ?_,
    fun above hnext hopen => ⟨?_, fun field name hfield hname limit n hn => ?_,
      fun hkind huntagged limit n hn => ?_⟩⟩⟩
  · obtain ⟨n, ⟨limit, hplain, hfull⟩, hone⟩ := (hr.part hs).exists_model
    refine ⟨⟨limit, n, hplain, hfull⟩, fun limit limit' m m' hm hm' => ?_⟩
    rw [hone limit m (Or.inl hm), hone limit' m' (Or.inr hm')]
  · exact Parens.lower_enclose_chain hlist ht hmark hlimit
  · obtain ⟨n, hn⟩ := Tree.lower_of_size_le (Nat.le_refl above.size)
    exact ⟨_, n, hn⟩
  · have hchain := Tree.inOptionalChain_of_enclosed hne hnext hopen
    have hreceiver : above.child? "object" = some (Parens.enclose list t) := by
      cases hform : above.form <;> simp_all [Lowering.accessField?, Tree.next?, Form.spineField?]
    have haccess : Lowering.access (Tree.lower limit) above field = some n := by
      rw [← hn, Tree.lower, Lowering.level, hchain]
      cases hform : above.form <;> simp_all [Lowering.accessField?]
    simp only [Lowering.access, hreceiver, hname] at haccess
    obtain ⟨m, hm, k, hk, rfl⟩ := bind_return₂.mp haccess
    obtain rfl := Parens.eq_chain_of_lower_enclose hlist ht hmark hm
    exact ⟨k, hk, rfl⟩
  · have hchain := Tree.inOptionalChain_of_enclosed hne hnext hopen
    have hcallee : above.child? "function" = some (Parens.enclose list t) := by
      rwa [Tree.next?, Lowering.form_of_kind hkind rfl] at hnext
    have hcall := (Lowering.level_of_call hkind hchain).symm.trans hn
    obtain ⟨m, hm, arguments, harguments, rfl⟩ :=
      (Lowering.call_eq_some_iff hcallee huntagged).mp hcall
    obtain rfl := Parens.eq_chain_of_lower_enclose hlist ht hmark hm
    exact ⟨arguments, harguments, rfl⟩

/-- Parentheses with a comment in them. -/
def remarked : Parens where
  range := default
  text := ""
  before := [.node ⟨"(", none, false, default, "("⟩ [], .piece "comment" none "/* */" []]
  after := [.node ⟨")", none, false, default, ")"⟩ []]

/-- A named node, with its text in both trees. -/
def Bracketing.piece (kind : String) (field : Option String) (plain full : String)
    (children : List Bracketing) : Bracketing :=
  .node ⟨kind, field, true, default, plain⟩ full children

/-- `q.refresh()` and `(((q)).refresh)()` -/
def bracketedCall : Bracketing :=
  .piece "call_expression" none "q.refresh()" "(((q)).refresh)()"
    [.enclosed remarked (.piece "member_expression" (some "function") "q.refresh" "((q)).refresh"
      [.enclosed remarked (.enclosed remarked (.piece "identifier" (some "object") "q" "q" [])),
        .piece "property_identifier" (some "property") "refresh" "refresh" []]),
    .piece "arguments" (some "arguments") "()" "()" []]

/-- `((a?.b)).c` -/
def openedAbove : Tree :=
  .piece "member_expression" none ""
    [Parens.enclose [remarked, remarked] markedReceiver,
      .piece "property_identifier" (some "property") "c" []]

theorem remarked_clean : remarked.Clean := by
  decide

theorem Bracketing.admissible_piece {kind plain full : String} {field : Option String}
    {children : List Bracketing} (htext : Form.ofKind kind = .identifier → full = plain)
    (h : ∀ c ∈ children, c.Admissible ∧
      (¬ c.IsNode → holdsOperand kind c.field = true ∧ c.plain.inOptionalChain = false)) :
    (piece kind field plain full children).Admissible :=
  .node htext (fun c hc => (h c hc).1) (fun c hc hno => ((h c hc).2 hno).1)
    fun c hc hno _ _ _ => Tree.unmarked_iff.mpr ((h c hc).2 hno).2

theorem bracketedCall_admissible : bracketedCall.Admissible := by
  have hleaf (kind field text) : (Bracketing.piece kind field text text []).Admissible :=
    Bracketing.admissible_piece (fun _ => rfl) (by simp)
  have hname : (Bracketing.piece "identifier" (some "object") "q" "q" []).plain.IsExpression := by
    decide
  refine Bracketing.admissible_piece (by decide) ?_
  simp only [List.forall_mem_cons, List.not_mem_nil, false_implies, implies_true, and_true]
  refine ⟨⟨.enclosed remarked_clean (by decide) (Bracketing.admissible_piece (by decide) ?_),
    fun _ => ⟨rfl, rfl⟩⟩, hleaf _ _ _, fun hno => absurd trivial hno⟩
  simp only [List.forall_mem_cons, List.not_mem_nil, false_implies, implies_true, and_true]
  exact ⟨⟨.enclosed remarked_clean hname (.enclosed remarked_clean hname (hleaf _ _ _)),
    fun _ => ⟨rfl, rfl⟩⟩, hleaf _ _ _, fun hno => absurd trivial hno⟩

/-- Enclosed over and over, the call is the same call; and an optional chain in parentheses leaves the
access above it open. -/
theorem enclosed_callee_lowers_alike :
    bracketedCall.Admissible ∧
    (∀ limit n, bracketedCall.full.lower limit = some n →
      n = .call (.member (.identifier "q") (.identifier "refresh")) [] bracketedCall.plain.span) ∧
    (∃ link ∈ markedReceiver.spine, link.hasOptionalMark = true) ∧
    (∃ limit n, openedAbove.lower limit = some n) ∧
    ∀ limit n, openedAbove.lower (limit + 1) = some n →
      n = .member (.sealed "chain_expression") (.identifier "c") := by
  have hmark : ∃ link ∈ markedReceiver.spine, link.hasOptionalMark = true :=
    Tree.inOptionalChain_iff.mp rfl
  obtain ⟨hsame, hexcepted⟩ := parentheses_do_not_show
  obtain ⟨-, habove⟩ := hexcepted [remarked, remarked] markedReceiver (by simp)
    (by simp [remarked_clean]) rfl hmark
  obtain ⟨hmodel, haccess, -⟩ := habove openedAbove rfl rfl
  refine ⟨bracketedCall_admissible, fun limit n hn => ?_, hmark, hmodel, fun limit n hn => ?_⟩
  · exact (hsame _ bracketedCall_admissible _ .here).2 4 limit _ n rfl hn
  · obtain ⟨m, hm, rfl⟩ := haccess "property" _ rfl rfl limit n hn
    cases limit with
    | zero => cases hm
    | succ limit =>
      obtain rfl := Option.some.inj hm
      rfl

end StaleQuery
