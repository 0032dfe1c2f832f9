import StaleQuery.Proofs.Model.Depth

/-!
# Optional chains

The chain that ends at a node runs down through receivers and callees, not through parentheses. A
mark on one link seals that link and all links above it, and nothing below the lowest mark: a chain
that is lowered to an access or a call has no sealed link on its way down. A call that is looked at
directly stays a call, and at most what is called is sealed.
-/
namespace StaleQuery

namespace Tree

def linkKinds : List String :=
  ["member_expression", "subscript_expression", "call_expression"]

/-- A member access, a subscript or a call. -/
def IsLink (t : Tree) : Prop :=
  t.kind ∈ linkKinds

instance (t : Tree) : Decidable t.IsLink :=
  inferInstanceAs (Decidable (t.kind ∈ linkKinds))

/-- Where a chain goes on below a link: the receiver of an access, or what is called. -/
def next? (t : Tree) : Option Tree :=
  t.form.spineField?.bind t.child?

theorem size_lt_of_next? {t next : Tree} (h : t.next? = some next) : next.size < t.size := by
  obtain ⟨field, -, hchild⟩ := Option.bind_eq_some_iff.mp h
  exact size_lt_of_child? hchild

/-- The links of the chain that ends at a node, from the node down. Only a link has any. -/
def spine (t : Tree) : List Tree :=
  if t.IsLink then
    match _h : t.next? with
    | some next => t :: next.spine
    | none => [t]
  else []
termination_by t.size
decreasing_by exact size_lt_of_next? _h

theorem isLink_iff {t : Tree} : t.IsLink ↔ ∃ field, t.form.spineField? = some field := by
  unfold IsLink form Form.ofKind
  split <;> simp_all [Form.spineField?, linkKinds]

theorem IsLink.kind_ne {t : Tree} (h : t.IsLink) {kind : String} (hkind : kind ∉ linkKinds) :
    t.kind ≠ kind := by
  rintro rfl
  exact hkind h

theorem spine_of_not_isLink {t : Tree} (h : ¬ t.IsLink) : t.spine = [] := by
  rw [spine, if_neg h]

theorem spine_of_isLink {t : Tree} (h : t.IsLink) : t.spine = t :: t.next?.elim [] spine := by
  rw [spine, if_pos h]
  split <;> simp_all

theorem isLink_of_mem_spine {t link : Tree} (h : link ∈ t.spine) : link.IsLink := by
  fun_induction spine t with
  | case1 t hlink next hnext ih =>
    rcases List.mem_cons.mp h with rfl | h
    · exact hlink
    · exact ih h
  | case2 t hlink hnone =>
    obtain rfl := List.mem_singleton.mp h
    exact hlink
  | case3 => cases h

/-- The chain from one of its links on is the chain that ends at that link. -/
theorem spine_of_getElem? {t link : Tree} {i : Nat} (h : t.spine[i]? = some link) :
    link.spine = t.spine.drop i := by
  induction i generalizing t with
  | zero =>
    by_cases hlink : t.IsLink
    · rw [spine_of_isLink hlink, List.getElem?_cons_zero] at h
      obtain rfl := Option.some.inj h
      rw [List.drop_zero]
    · simp [spine_of_not_isLink hlink] at h
  | succ i ih =>
    by_cases hlink : t.IsLink
    · rw [spine_of_isLink hlink, List.getElem?_cons_succ] at h
      rw [spine_of_isLink hlink, List.drop_succ_cons]
      cases hnext : t.next? with
      | none => simp [hnext] at h
      | some next =>
        rw [hnext] at h
        exact ih h
    · simp [spine_of_not_isLink hlink] at h

theorem spineInOptionalChain_eq_any (field : String) (list : List Tree) :
    spineInOptionalChain field list =
      (list.find? (·.field == some field)).any inOptionalChain := by
  induction list with
  | nil => rfl
  | cons c rest ih =>
    rw [spineInOptionalChain, ih]
    by_cases h : c.field = some field
    · simp [h]
    · have hno : (c.field == some field) = false := by simpa using h
      simp [hno]

theorem inOptionalChain_eq (t : Tree) : t.inOptionalChain = match t.form.spineField? with
    | none => false
    | some field => t.hasOptionalMark || (t.child? field).any inOptionalChain := by
  obtain ⟨label, children⟩ := t
  rw [inOptionalChain]
  simp only [spineInOptionalChain_eq_any]
  rfl

/-- What the scan of a chain finds out. -/
theorem inOptionalChain_iff {t : Tree} :
    t.inOptionalChain = true ↔ ∃ link ∈ t.spine, link.hasOptionalMark = true := by
  fun_induction spine t with
  | case1 t hlink next hnext ih =>
    obtain ⟨field, hfield, hchild⟩ := Option.bind_eq_some_iff.mp hnext
    rw [inOptionalChain_eq, hfield]
    simp [hchild, ih]
  | case2 t hlink hnone =>
    obtain ⟨field, hfield⟩ := isLink_iff.mp hlink
    have hchild : t.child? field = none := by simpa [next?, hfield] using hnone
    rw [inOptionalChain_eq, hfield]
    simp [hchild]
  | case3 t hlink =>
    rw [inOptionalChain_eq]
    cases hfield : t.form.spineField? with
    | none => simp
    | some field => exact absurd (isLink_iff.mpr ⟨field, hfield⟩) hlink

theorem inOptionalChain_of_getElem? {t link : Tree} {i : Nat} (h : t.spine[i]? = some link) :
    link.inOptionalChain = true ↔
      ∃ j other, i ≤ j ∧ t.spine[j]? = some other ∧ other.hasOptionalMark = true := by
  rw [inOptionalChain_iff, spine_of_getElem? h]
  constructor
  · rintro ⟨other, hmem, hmark⟩
    obtain ⟨k, hk⟩ := List.mem_iff_getElem?.mp hmem
    rw [List.getElem?_drop] at hk
    exact ⟨i + k, other, Nat.le_add_right i k, hk, hmark⟩
  · rintro ⟨j, other, hle, hj, hmark⟩
    refine ⟨other, List.mem_iff_getElem?.mpr ⟨j - i, ?_⟩, hmark⟩
    rw [List.getElem?_drop, Nat.add_sub_cancel' hle, hj]

end Tree

namespace Lowering

variable {lower : Lower} {t : Tree}

/-- Fields that are missing seal a node under its own kind. -/
theorem access_ne_sealed {field kind : String} (h : t.kind ≠ kind) :
    access lower t field ≠ some (.sealed kind) := by
  intro haccess
  unfold access at haccess
  split at haccess
  · obtain ⟨_, -, _, -, hn⟩ := bind_return₂.mp haccess
    cases hn
  · exact h (Node.sealed.inj (Option.some.inj haccess))

theorem call_ne_sealed {kind : String} (h : t.kind ≠ kind)
    (htag : "tagged_template_expression" ≠ kind) : call lower t ≠ some (.sealed kind) := by
  intro hcall
  unfold call at hcall
  split at hcall
  · exact h (Node.sealed.inj (Option.some.inj hcall))
  · dsimp only at hcall
    split at hcall
    · exact htag (Node.sealed.inj (Option.some.inj hcall))
    · obtain ⟨_, -, _, -, hn⟩ := bind_return₂.mp hcall
      cases hn

theorem level_eq_chain_iff (h : t.IsLink) :
    level lower t = some (.sealed "chain_expression") ↔ t.inOptionalChain = true := by
  have hkind : t.kind ≠ "chain_expression" := h.kind_ne (by decide)
  constructor
  · intro hlevel
    by_contra hchain
    obtain ⟨field, hfield⟩ := Tree.isLink_iff.mp h
    unfold level at hlevel
    rw [if_neg hchain] at hlevel
    cases hform : t.form <;> simp only [hform, Form.spineField?, reduceCtorEq] at hfield hlevel
    case member => exact access_ne_sealed hkind hlevel
    case subscript => exact access_ne_sealed hkind hlevel
    case call => exact call_ne_sealed hkind (by decide) hlevel
  · intro hchain
    simp only [level, hchain, if_true]

theorem level_of_call (h : t.kind = "call_expression") (hchain : t.inOptionalChain = false) :
    level lower t = call lower t := by
  have hform : t.form = .call := form_of_kind h rfl
  simp only [level, hchain, hform]
  rfl

theorem call_eq_some_iff {callee : Tree} {n : Node} (hcallee : t.child? "function" = some callee)
    (huntagged : ∀ list, t.child? "arguments" = some list → list.kind ≠ "template_string") :
    call lower t = some n ↔ ∃ m, lower callee = some m ∧
      ∃ list, arguments lower (t.child? "arguments") = some list ∧ .call m list t.span = n := by
  have htag : (t.child? "arguments").any (·.kind == "template_string") = false := by
    cases hlist : t.child? "arguments" with
    | none => rfl
    | some list => simpa using huntagged list hlist
  simp only [call, hcallee, htag]
  exact bind_return₂

end Lowering

namespace Tree

variable {t : Tree}

theorem lower_eq_chain_iff (h : t.IsLink) (limit : Nat) :
    t.lower (limit + 1) = some (.sealed "chain_expression") ↔
      ∃ link ∈ t.spine, link.hasOptionalMark = true := by
  rw [← inOptionalChain_iff]
  exact Lowering.level_eq_chain_iff h

/-- A link within the limit is sealed, or no link from it down has a mark. -/
theorem eq_chain_iff_of_lower (h : t.IsLink) {limit : Nat} {n : Node}
    (hlower : t.lower limit = some n) :
    n = .sealed "chain_expression" ↔ ∃ link ∈ t.spine, link.hasOptionalMark = true := by
  cases limit with
  | zero => cases hlower
  | succ limit =>
    rw [← lower_eq_chain_iff h limit, hlower]
    exact Option.some.injEq _ _ ▸ Iff.rfl

theorem lowerCallSite_eq_lower (h : t.kind = "call_expression")
    (hmarks : ∀ link ∈ t.spine, link.hasOptionalMark = false) (limit : Nat) :
    t.lowerCallSite limit = t.lower (limit + 1) := by
  have hchain : t.inOptionalChain = false := by
    apply Bool.eq_false_iff.mpr
    intro hchain
    obtain ⟨link, hlink, hmark⟩ := inOptionalChain_iff.mp hchain
    rw [hmarks link hlink] at hmark
    cases hmark
  exact (Lowering.level_of_call h hchain).symm

/-! Chains beside a chain -/

/-- A named node with this text. -/
def piece (kind : String) (field : Option String) (text : String) (children : List Tree) : Tree :=
  .node ⟨kind, field, true, default, text⟩ children

/-- `f(t)` -/
def asArgument (t : Tree) : Tree :=
  piece "call_expression" none ""
    [piece "identifier" (some "function") "f" [], piece "arguments" (some "arguments") "" [t]]

/-- `a[t]` -/
def asIndex (t : Tree) : Tree :=
  piece "subscript_expression" none ""
    [piece "identifier" (some "object") "a" [], t.under "index"]

/-- `(t).p` -/
def asReceiver (t : Tree) : Tree :=
  piece "member_expression" none ""
    [piece "parenthesized_expression" (some "object") "" [t],
      piece "property_identifier" (some "property") "p" []]

theorem operands_singleton (hlink : t.IsLink) (hnamed : t.named = true) {kind : String}
    {field : Option String} {text : String} : (piece kind field text [t]).operands = [t] := by
  have hcomment : t.kind ≠ "comment" := hlink.kind_ne (by decide)
  simp [operands, namedChildren, piece, children, hnamed, hcomment]

section

variable (hlink : t.IsLink) (hnamed : t.named = true)
  (hmark : ∃ link ∈ t.spine, link.hasOptionalMark = true) (limit : Nat)
include hlink hnamed hmark

theorem lower_asArgument : t.asArgument.lower (limit + 2) =
    some (.call (.identifier "f") [.sealed "chain_expression"] t.asArgument.span) := by
  have hsealed := (lower_eq_chain_iff hlink limit).mpr hmark
  have hlevel : t.asArgument.lower (limit + 2) = Lowering.call (lower (limit + 1)) t.asArgument :=
    Lowering.level_of_call rfl rfl
  have hcallee : t.asArgument.child? "function" =
      some (piece "identifier" (some "function") "f" []) := rfl
  rw [hlevel, Lowering.call_eq_some_iff hcallee]
  · refine ⟨.identifier "f", rfl, [.sealed "chain_expression"], ?_, rfl⟩
    have hlist : t.asArgument.child? "arguments" =
        some (piece "arguments" (some "arguments") "" [t]) := rfl
    have harguments : (piece "arguments" (some "arguments") "" [t]).kind = "arguments" := rfl
    rw [hlist, Lowering.arguments, if_pos harguments, operands_singleton hlink hnamed]
    simp [hsealed]
  · intro list hlist
    obtain rfl := Option.some.inj hlist
    exact (by decide : "arguments" ≠ "template_string")

theorem lower_asReceiver : t.asReceiver.lower (limit + 3) =
    some (.member (.sealed "chain_expression") (.identifier "p")) := by
  have hsealed := (lower_eq_chain_iff hlink limit).mpr hmark
  have hinner : (piece "parenthesized_expression" (some "object") "" [t]).lower (limit + 2) =
      some (.sealed "chain_expression") := by
    have hwrap : (piece "parenthesized_expression" (some "object") "" [t]).lower (limit + 2) =
        Lowering.wrap (lower (limit + 1))
          (piece "parenthesized_expression" (some "object") "" [t]) id := rfl
    rw [hwrap, Lowering.wrap, operand?, operands_singleton hlink hnamed]
    simp [hsealed]
  have haccess : t.asReceiver.lower (limit + 3) =
      Lowering.access (lower (limit + 2)) t.asReceiver "property" := rfl
  have hname : (piece "property_identifier" (some "property") "p" []).lower (limit + 2) =
      some (.identifier "p") := rfl
  have hobject : t.asReceiver.child? "object" =
      some (piece "parenthesized_expression" (some "object") "" [t]) := rfl
  have hproperty : t.asReceiver.child? "property" =
      some (piece "property_identifier" (some "property") "p" []) := rfl
  rw [haccess, Lowering.access, hobject, hproperty]
  simp [hinner, hname]

omit hnamed in
theorem lower_asIndex : t.asIndex.lower (limit + 2) =
    some (.member (.identifier "a") (.sealed "chain_expression")) := by
  have hsealed : (t.under "index").lower (limit + 1) = some (.sealed "chain_expression") := by
    have hscan : (t.under "index").inOptionalChain = t.inOptionalChain := by
      cases t
      rfl
    exact (Lowering.level_eq_chain_iff (t := t.under "index") hlink).mpr
      (hscan.trans (inOptionalChain_iff.mpr hmark))
  have hchain : t.asIndex.inOptionalChain = false := by
    have hkind : (t.under "index").kind ≠ "optional_chain" := hlink.kind_ne (by decide)
    have hscan : t.asIndex.inOptionalChain = (t.asIndex.hasOptionalMark || false) := by
      rw [inOptionalChain_eq]
      rfl
    have hmarks : t.asIndex.hasOptionalMark =
        ("identifier" == "optional_chain" || ((t.under "index").kind == "optional_chain" || false)) :=
      rfl
    simp [hscan, hmarks, hkind]
  have hlevel : t.asIndex.lower (limit + 2) =
      Lowering.access (lower (limit + 1)) t.asIndex "index" := by
    simp only [lower, Lowering.level, hchain]
    rfl
  have hobject : t.asIndex.child? "object" =
      some (piece "identifier" (some "object") "a" []) := rfl
  have hindex : t.asIndex.child? "index" = some (t.under "index") := rfl
  have hname : (piece "identifier" (some "object") "a" []).lower (limit + 1) =
      some (.identifier "a") := rfl
  rw [hlevel, Lowering.access, hobject, hindex]
  simp [hname, hsealed]

end

end Tree

/-- Whether a node is lowered as a link. -/
def Node.IsOpenLink : Node → Prop
  | .member .. | .call .. => True
  | _ => False

/-- A chain is sealed from its lowest mark up. So a chain that is open at its end is open all the way
down, though a chain beside it, in an argument, an index or parentheses, may be sealed. A call that is
looked at directly is the call that it is otherwise lowered to, if no link has a mark; and whether or
not one has, it is a call, with a sealed callee if the mark stands further down. -/
theorem chain_sealed_as_a_whole (limit : Nat) (t : Tree) :
    (∀ (i : Nat) (link : Tree), t.spine[i]? = some link →
      (link.lower (limit + 1) = some (.sealed "chain_expression") ↔
        ∃ (j : Nat) (other : Tree), i ≤ j ∧ t.spine[j]? = some other ∧
          other.hasOptionalMark = true)) ∧
    (∀ n, t.lower limit = some n → n.IsOpenLink → ∀ link ∈ t.spine, ∀ depth,
      link.lower depth ≠ some (.sealed "chain_expression")) ∧
    (t.named = true → (∃ link ∈ t.spine, link.hasOptionalMark = true) →
      t.asArgument.lower (limit + 2) =
        some (.call (.identifier "f") [.sealed "chain_expression"] t.asArgument.span) ∧
      t.asIndex.lower (limit + 2) =
        some (.member (.identifier "a") (.sealed "chain_expression")) ∧
      t.asReceiver.lower (limit + 3) =
        some (.member (.sealed "chain_expression") (.identifier "p"))) ∧
    (t.kind = "call_expression" →
      ((∀ link ∈ t.spine, link.hasOptionalMark = false) →
        t.lowerCallSite limit = t.lower (limit + 1)) ∧
      ∀ callee, t.child? "function" = some callee →
        (∀ list, t.child? "arguments" = some list → list.kind ≠ "template_string") →
        (t.size ≤ limit → ∃ n, t.lowerCallSite limit = some n) ∧
        ∀ n, t.lowerCallSite limit = some n → ∃ m arguments, n = .call m arguments t.span ∧
          (callee.IsLink → (m = .sealed "chain_expression" ↔
            ∃ link ∈ t.spine.tail, link.hasOptionalMark = true))) := by
  refine ⟨fun i link hi => ?_, fun n hn hopen link hmem depth hlower => ?_, fun hnamed hmark => ?_,
    fun hkind => ⟨fun hmarks => Tree.lowerCallSite_eq_lower hkind hmarks limit,
      fun callee hcallee huntagged =>
        ⟨Tree.lowerCallSite_of_size_le, fun n hn => ?_⟩⟩⟩
  · have hlink := Tree.isLink_of_mem_spine (List.mem_of_getElem? hi)
    rw [Tree.lower_eq_chain_iff hlink, ← Tree.inOptionalChain_iff]
    exact Tree.inOptionalChain_of_getElem? hi
  · -- a mark from this link down is a mark of the whole chain, which is not sealed
    have hlink := Tree.isLink_of_mem_spine hmem
    obtain ⟨i, hi⟩ := List.mem_iff_getElem?.mp hmem
    obtain ⟨other, hother, hmark⟩ := (Tree.eq_chain_iff_of_lower hlink hlower).mp rfl
    rw [Tree.spine_of_getElem? hi] at hother
    have hend : t.IsLink := by
      by_contra hno
      simp [Tree.spine_of_not_isLink hno] at hmem
    have hsealed := (Tree.eq_chain_iff_of_lower hend hn).mpr
      ⟨other, List.mem_of_mem_drop hother, hmark⟩
    rw [hsealed] at hopen
    exact hopen
  · have hlink : t.IsLink := by
      by_contra hno
      simp [Tree.spine_of_not_isLink hno] at hmark
    exact ⟨Tree.lower_asArgument hlink hnamed hmark limit, Tree.lower_asIndex hlink hmark limit,
      Tree.lower_asReceiver hlink hnamed hmark limit⟩
  · obtain ⟨m, hm, list, -, rfl⟩ := (Lowering.call_eq_some_iff hcallee huntagged).mp hn
    refine ⟨m, list, rfl, fun hlink => ?_⟩
    have hform : t.form = .call := Lowering.form_of_kind hkind rfl
    have hnext : t.next? = some callee := by
      rw [Tree.next?, hform]
      exact hcallee
    have htail : t.spine.tail = callee.spine := by
      rw [Tree.spine_of_isLink (Tree.isLink_iff.mpr ⟨"function", by rw [hform]; rfl⟩), hnext]
      rfl
    rw [htail]
    exact Tree.eq_chain_iff_of_lower hlink hm

/-- `a?.b` -/
def markedReceiver : Tree :=
  .piece "member_expression" (some "object") ""
    [.piece "identifier" (some "object") "a" [], .piece "optional_chain" none "?." [],
      .piece "property_identifier" (some "property") "b" []]

/-- `a?.b.c` -/
def markedCallee : Tree :=
  .piece "member_expression" (some "function") ""
    [markedReceiver, .piece "property_identifier" (some "property") "c" []]

/-- `a?.b.c()` -/
def markedCall : Tree :=
  .piece "call_expression" none ""
    [markedCallee, .piece "arguments" (some "arguments") "" []]

theorem spine_markedCall : markedCall.spine = [markedCall, markedCallee, markedReceiver] := by
  have hlast : markedReceiver.next? = some (.piece "identifier" (some "object") "a" []) := rfl
  have hmiddle : markedCallee.next? = some markedReceiver := rfl
  have hfirst : markedCall.next? = some markedCallee := rfl
  rw [Tree.spine_of_isLink (by decide), hfirst, Option.elim_some, Tree.spine_of_isLink (by decide),
    hmiddle, Option.elim_some, Tree.spine_of_isLink (by decide), hlast, Option.elim_some,
    Tree.spine_of_not_isLink (by decide)]

/-- The mark on the last link seals the callee; in parentheses the chain can be a receiver. -/
theorem mark_two_links_down :
    markedCall.spine[1]? = some markedCallee ∧
    markedCallee.lower 401 = some (.sealed "chain_expression") ∧
    (∃ arguments, markedCall.lowerCallSite 400 =
      some (.call (.sealed "chain_expression") arguments markedCall.span)) ∧
    markedCall.asReceiver.lower 403 =
      some (.member (.sealed "chain_expression") (.identifier "p")) ∧
    ∀ link ∈ markedCall.asReceiver.spine, ∀ depth,
      link.lower depth ≠ some (.sealed "chain_expression") := by
  have hmark : ∃ link ∈ markedCall.spine, link.hasOptionalMark = true := by
    rw [spine_markedCall]
    exact ⟨markedReceiver, by simp, rfl⟩
  have hsecond : markedCall.spine[1]? = some markedCallee := by
    rw [spine_markedCall]
    rfl
  obtain ⟨hlinks, -, hbeside, hsite⟩ := chain_sealed_as_a_whole 400 markedCall
  obtain ⟨-, hopen, -, -⟩ := chain_sealed_as_a_whole 403 markedCall.asReceiver
  have hreceiver := (hbeside rfl hmark).2.2
  refine ⟨hsecond, (hlinks 1 _ hsecond).mpr ⟨2, markedReceiver, by decide, ?_, rfl⟩, ?_, hreceiver,
    hopen _ hreceiver trivial⟩
  · rw [spine_markedCall]
    rfl
  · obtain ⟨hcall, hsealed⟩ := (hsite rfl).2 markedCallee rfl (by
      intro list hlist
      obtain rfl := Option.some.inj hlist
      decide)
    obtain ⟨n, hn⟩ := hcall (by decide)
    obtain ⟨m, arguments, rfl, hcallee⟩ := hsealed n hn
    have hm := (hcallee (by decide)).mpr
      ⟨markedReceiver, by rw [spine_markedCall]; simp, rfl⟩
    exact ⟨arguments, hm ▸ hn⟩

end StaleQuery
