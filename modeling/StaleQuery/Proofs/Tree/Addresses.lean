import StaleQuery.Proofs.Model.Provenance
import StaleQuery.Proofs.Tree.Walk

/-!
# Addresses of nodes

The same subtree may stand at several places of a tree, so a node is told from all others by its
address, the positions among all children that lead to it. A walk over named children alone comes to
every address by one way only. An address on which no call is met below its start has that start for
the nearest call above its end, and where every range lies in that of the parent, so does it in the
range of every node above.
-/
namespace StaleQuery

def Range.Within (inner outer : Range) : Prop :=
  outer.start.NotAfter inner.start ∧ inner.stop.NotAfter outer.stop

instance (inner outer : Range) : Decidable (inner.Within outer) :=
  inferInstanceAs (Decidable (_ ∧ _))

theorem Range.Within.refl (r : Range) : r.Within r := ⟨.refl _, .refl _⟩

theorem Range.Within.trans {r s t : Range} (h : r.Within s) (k : s.Within t) : r.Within t :=
  ⟨k.1.trans h.1, h.2.trans k.2⟩

namespace Tree

variable {s t c : Tree} {a b p q : List Nat}

/-- The node at an address. -/
def reach? : List Nat → Tree → Option Tree
  | [], t => some t
  | i :: rest, t => t.children[i]?.bind (reach? rest)

theorem reach?_cons_eq_some_iff {i : Nat} :
    t.reach? (i :: a) = some s ↔ ∃ c, t.children[i]? = some c ∧ c.reach? a = some s :=
  Option.bind_eq_some_iff

theorem reach?_append (h : t.reach? a = some s) (b : List Nat) : t.reach? (a ++ b) = s.reach? b := by
  induction a generalizing t with
  | nil =>
    obtain rfl := Option.some.inj h
    rfl
  | cons i rest ih =>
    obtain ⟨c, hc, hs⟩ := reach?_cons_eq_some_iff.mp h
    rw [List.cons_append, reach?, hc, Option.bind_some]
    exact ih hs

theorem below_of_reach? (h : t.reach? a = some s) : s.Below t := by
  induction a generalizing t with
  | nil =>
    obtain rfl := Option.some.inj h
    exact .here
  | cons i rest ih =>
    obtain ⟨c, hc, hs⟩ := reach?_cons_eq_some_iff.mp h
    exact .inside (List.mem_of_getElem? hc) (ih hs)

/-- The named children, each with its position among all children. -/
def namedAt (t : Tree) : List (Tree × Nat) :=
  t.children.zipIdx.filter (·.1.named)

theorem map_fst_namedAt (t : Tree) : t.namedAt.map Prod.fst = t.namedChildren := by
  rw [namedAt, namedChildren, ← List.zipIdx_map_fst 0 t.children, List.filter_map,
    List.zipIdx_map_fst]
  rfl

theorem nodup_namedAt (t : Tree) : (t.namedAt.map Prod.snd).Nodup := by
  have hidx : (t.children.zipIdx.map Prod.snd).Nodup := by
    simpa using List.nodup_range' (s := 0) (n := t.children.length)
  exact hidx.sublist (List.filter_sublist.map _)

/-- The address of a place that is given by positions among named children. -/
def address? : List Nat → Tree → Option (List Nat)
  | [], _ => some []
  | i :: rest, t => t.namedAt[i]?.bind fun c => (c.1.address? rest).map (c.2 :: ·)

theorem address?_cons_eq_some_iff {i : Nat} : t.address? (i :: p) = some a ↔
    ∃ c j rest, t.namedAt[i]? = some (c, j) ∧ c.address? p = some rest ∧ a = j :: rest := by
  simp only [address?, Option.bind_eq_some_iff, Option.map_eq_some_iff, Prod.exists]
  constructor
  · rintro ⟨c, j, hc, rest, hrest, rfl⟩
    exact ⟨c, j, rest, hc, hrest, rfl⟩
  · rintro ⟨c, j, rest, hc, hrest, rfl⟩
    exact ⟨c, j, hc, rest, hrest, rfl⟩

theorem exists_address (h : t.at? p = some s) : ∃ a, t.address? p = some a ∧ t.reach? a = some s := by
  induction p generalizing t with
  | nil => exact ⟨[], rfl, h⟩
  | cons i rest ih =>
    obtain ⟨c, hc, hs⟩ := Option.bind_eq_some_iff.mp h
    obtain ⟨a, ha, hreach⟩ := ih hs
    rw [← map_fst_namedAt, List.getElem?_map] at hc
    obtain ⟨⟨c, j⟩, hj, rfl⟩ := Option.map_eq_some_iff.mp hc
    have hchild : t.children[j]? = some c :=
      List.mem_zipIdx_iff_getElem?.mp (List.mem_filter.mp (List.mem_of_getElem? hj)).1
    exact ⟨j :: a, address?_cons_eq_some_iff.mpr ⟨c, j, a, hj, ha, rfl⟩,
      reach?_cons_eq_some_iff.mpr ⟨c, hchild, hreach⟩⟩

/-- Different places of the walk have different addresses. -/
theorem address?_injective (hp : t.address? p = some a) (hq : t.address? q = some a) : p = q := by
  induction p generalizing t q a with
  | nil =>
    obtain rfl := Option.some.inj hp
    cases q with
    | nil => rfl
    | cons i rest =>
      obtain ⟨_, _, _, _, _, h⟩ := address?_cons_eq_some_iff.mp hq
      cases h
  | cons i rest ih =>
    obtain ⟨c, j, inner, hc, hinner, rfl⟩ := address?_cons_eq_some_iff.mp hp
    cases q with
    | nil => cases hq
    | cons k others =>
      obtain ⟨d, _, _, hd, hother, h⟩ := address?_cons_eq_some_iff.mp hq
      obtain ⟨rfl, rfl⟩ := List.cons.inj h
      have hik : i = k := by
        have hlt : i < (t.namedAt.map Prod.snd).length := by
          rw [List.length_map]
          exact (List.getElem?_eq_some_iff.mp hc).1
        apply (List.getElem?_inj hlt t.nodup_namedAt).mp
        simp [hc, hd]
      subst hik
      obtain ⟨rfl, -⟩ := Prod.mk.inj (Option.some.inj (hc.symm.trans hd))
      rw [ih hinner hother]

/-- No node of the kind is met on the way to an address, its start apart. -/
def Avoids (kind : String) : List Nat → Tree → Prop
  | [], _ => True
  | i :: rest, t => ∀ c, t.children[i]? = some c → c.kind ≠ kind ∧ c.Avoids kind rest

theorem avoids_cons {kind : String} {i : Nat} (hc : t.children[i]? = some c) (hkind : c.kind ≠ kind)
    (h : c.Avoids kind a) : t.Avoids kind (i :: a) := by
  intro d hd
  obtain rfl := Option.some.inj (hc.symm.trans hd)
  exact ⟨hkind, h⟩

theorem Avoids.append {kind : String} (h : t.Avoids kind a) (hs : t.reach? a = some s)
    (hb : s.Avoids kind b) : t.Avoids kind (a ++ b) := by
  induction a generalizing t with
  | nil =>
    obtain rfl := Option.some.inj hs
    exact hb
  | cons i rest ih =>
    obtain ⟨c, hc, hs⟩ := reach?_cons_eq_some_iff.mp hs
    obtain ⟨hkind, hrest⟩ := h c hc
    exact avoids_cons hc hkind (ih hrest hs)

theorem Avoids.kind_ne {kind : String} (h : t.Avoids kind (a ++ b)) (hs : t.reach? a = some s)
    (ha : a ≠ []) : s.kind ≠ kind := by
  induction a generalizing t with
  | nil => exact absurd rfl ha
  | cons i rest ih =>
    obtain ⟨c, hc, hs⟩ := reach?_cons_eq_some_iff.mp hs
    obtain ⟨hkind, hrest⟩ := h c hc
    by_cases hnil : rest = []
    · subst hnil
      obtain rfl := Option.some.inj hs
      exact hkind
    · exact ih hrest hs hnil

/-- The start of a way that avoids its own kind can be read off the end: of two such starts with the
same end, neither can lie on the way from the other. -/
theorem eq_of_avoids {kind : String} {u : Tree} {r r' : List Nat} (hs : t.reach? a = some s)
    (hu : t.reach? b = some u) (hskind : s.kind = kind) (hukind : u.kind = kind)
    (hr : s.Avoids kind r) (hr' : u.Avoids kind r') (h : a ++ r = b ++ r') : a = b := by
  rcases List.append_eq_append_iff.mp h with ⟨m, rfl, rfl⟩ | ⟨m, rfl, rfl⟩
  · by_cases hm : m = []
    · simp [hm]
    · rw [reach?_append hs] at hu
      exact absurd hukind (hr.kind_ne hu hm)
  · by_cases hm : m = []
    · simp [hm]
    · rw [reach?_append hu] at hs
      exact absurd hskind (hr'.kind_ne hs hm)

/-- The first child that passes a test, with its position among all children. -/
def seek? (test : Tree → Bool) (t : Tree) : Option (Tree × Nat) :=
  t.children.zipIdx.find? fun c => test c.1

theorem map_fst_seek? (test : Tree → Bool) (t : Tree) :
    (t.seek? test).map Prod.fst = t.children.find? test := by
  rw [seek?, ← List.zipIdx_map_fst 0 t.children, List.find?_map, List.zipIdx_map_fst]
  rfl

theorem exists_seek? {test : Tree → Bool} (h : t.children.find? test = some c) :
    ∃ i, t.seek? test = some (c, i) := by
  rw [← map_fst_seek?] at h
  obtain ⟨⟨_, i⟩, hi, rfl⟩ := Option.map_eq_some_iff.mp h
  exact ⟨i, hi⟩

theorem find?_of_seek? {test : Tree → Bool} {i : Nat} (h : t.seek? test = some (c, i)) :
    t.children.find? test = some c := by
  rw [← map_fst_seek?, h]
  rfl

theorem getElem?_of_seek? {test : Tree → Bool} {i : Nat} (h : t.seek? test = some (c, i)) :
    t.children[i]? = some c :=
  List.mem_zipIdx_iff_getElem?.mp (List.mem_of_find?_eq_some h)

/-- Every node lies in the range of its parent. -/
def Nested (t : Tree) : Prop :=
  ∀ s : Tree, s.Below t → ∀ c ∈ s.children, c.range.Within s.range

theorem nested_iff : t.Nested ↔ ∀ c ∈ t.children, c.range.Within t.range ∧ c.Nested := by
  constructor
  · intro h c hc
    exact ⟨h t .here c hc, fun s hs => h s (.inside hc hs)⟩
  · intro h s hs
    cases hs with
    | here => exact fun c hc => (h c hc).1
    | inside hc hs => exact (h _ hc).2 s hs

theorem Nested.below (h : t.Nested) (hs : s.Below t) : s.Nested :=
  fun r hr => h r (hr.trans hs)

theorem Nested.within (h : t.Nested) (hs : s.Below t) : s.range.Within t.range := by
  induction hs with
  | here => exact .refl _
  | @inside t c hc _ ih =>
    obtain ⟨hrange, hnested⟩ := nested_iff.mp h c hc
    exact (ih hnested).trans hrange

end Tree
end StaleQuery
