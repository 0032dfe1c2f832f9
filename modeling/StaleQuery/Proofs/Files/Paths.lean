import StaleQuery.Files.Basic

/-!
# Paths and their spelling

A path is rooted if it is absolute and holds no part that reading would drop. These are the paths
that reading an absolute text gives, and each of them is read back from its own spelling; so no two
have one spelling.
-/
namespace StaleQuery

namespace Text

theorem splitAt_ne_nil (mark : Char) (cs : List Char) : splitAt mark cs ≠ [] := by
  cases cs with
  | nil => exact List.cons_ne_nil _ _
  | cons c rest =>
    rw [splitAt]
    split
    · exact List.cons_ne_nil _ _
    · split <;> exact List.cons_ne_nil _ _

theorem splitAt_cons_of_ne {mark c : Char} (h : c ≠ mark) {rest piece : List Char}
    {pieces : List (List Char)} (hrest : splitAt mark rest = piece :: pieces) :
    splitAt mark (c :: rest) = (c :: piece) :: pieces := by
  rw [splitAt, if_neg h, hrest]

theorem mark_notMem_of_mem_splitAt {mark : Char} {cs piece : List Char}
    (h : piece ∈ splitAt mark cs) : mark ∉ piece := by
  induction cs generalizing piece with
  | nil =>
    obtain rfl := List.mem_singleton.mp h
    exact List.not_mem_nil
  | cons c rest ih =>
    by_cases hc : c = mark
    · rw [splitAt, if_pos hc] at h
      rcases List.mem_cons.mp h with rfl | h
      · exact List.not_mem_nil
      · exact ih h
    · obtain ⟨first, others, hrest⟩ := List.exists_cons_of_ne_nil (splitAt_ne_nil mark rest)
      rw [splitAt_cons_of_ne hc hrest] at h
      rcases List.mem_cons.mp h with rfl | h
      · rw [List.mem_cons, not_or]
        exact ⟨Ne.symm hc, ih (hrest ▸ List.mem_cons_self)⟩
      · exact ih (hrest ▸ List.mem_cons_of_mem _ h)

theorem splitAt_of_notMem {mark : Char} {cs : List Char} (h : mark ∉ cs) :
    splitAt mark cs = [cs] := by
  induction cs with
  | nil => rfl
  | cons c rest ih =>
    obtain ⟨hc, hrest⟩ := not_or.mp (mt List.mem_cons.mpr h)
    exact splitAt_cons_of_ne (Ne.symm hc) (ih hrest)

theorem splitAt_append {mark : Char} {piece : List Char} (h : mark ∉ piece) (rest : List Char) :
    splitAt mark (piece ++ mark :: rest) = piece :: splitAt mark rest := by
  induction piece with
  | nil => rw [List.nil_append, splitAt, if_pos rfl]
  | cons c piece ih =>
    obtain ⟨hc, hpiece⟩ := not_or.mp (mt List.mem_cons.mpr h)
    exact splitAt_cons_of_ne (Ne.symm hc) (ih hpiece)

theorem splitAt_intercalate {mark : Char} {pieces : List (List Char)} (hne : pieces ≠ [])
    (h : ∀ piece ∈ pieces, mark ∉ piece) : splitAt mark ([mark].intercalate pieces) = pieces := by
  induction pieces with
  | nil => exact absurd rfl hne
  | cons piece rest ih =>
    have hpiece := h piece List.mem_cons_self
    cases rest with
    | nil => rw [List.intercalate_singleton, splitAt_of_notMem hpiece]
    | cons next rest =>
      rw [List.intercalate_cons_cons, List.append_assoc, List.singleton_append,
        splitAt_append hpiece, ih (List.cons_ne_nil _ _) fun q hq => h q (List.mem_cons_of_mem _ hq)]

end Text

namespace Path

/-- What reading a path keeps as a part of it. -/
def IsPart (s : String) : Prop :=
  s ≠ "" ∧ s ≠ "." ∧ '/' ∉ s.toList

/-- A part that leads down. -/
def IsName (s : String) : Prop :=
  IsPart s ∧ s ≠ ".."

instance (s : String) : Decidable (IsPart s) :=
  inferInstanceAs (Decidable (_ ∧ _ ∧ _))

instance (s : String) : Decidable (IsName s) :=
  inferInstanceAs (Decidable (_ ∧ _))

structure Rooted (p : Path) : Prop where
  anchor : p.anchor = "/" ∨ p.anchor = "//"
  parts : ∀ part ∈ p.parts, IsPart part

variable {p : Path}

theorem Rooted.isAbsolute (h : p.Rooted) : p.isAbsolute = true := by
  rcases h.anchor with ha | ha <;> simp [Path.isAbsolute, ha]

theorem isPart_of_mem_ofString {s part : String} (h : part ∈ (ofString s).parts) : IsPart part := by
  obtain ⟨hsplit, hkept⟩ := List.mem_filter.mp h
  obtain ⟨piece, hpiece, rfl⟩ := List.mem_map.mp hsplit
  obtain ⟨hempty, hdot⟩ : String.ofList piece ≠ "" ∧ String.ofList piece ≠ "." := by
    simpa using hkept
  refine ⟨hempty, hdot, ?_⟩
  rw [String.toList_ofList]
  exact Text.mark_notMem_of_mem_splitAt hpiece

theorem rooted_ofString {s : String} (h : (ofString s).isAbsolute = true) : (ofString s).Rooted where
  anchor := by
    have hanchor : anchorOf s.toList ≠ "" := by simpa [Path.isAbsolute, ofString] using h
    change anchorOf s.toList = "/" ∨ anchorOf s.toList = "//"
    unfold anchorOf at hanchor ⊢
    split <;> simp_all
  parts _ := isPart_of_mem_ofString

theorem Rooted.parent (h : p.Rooted) : p.parent.Rooted where
  anchor := h.anchor
  parts part hpart := h.parts part (List.dropLast_subset _ hpart)

theorem Rooted.append (h : p.Rooted) {rest : List String} (hrest : ∀ part ∈ rest, IsPart part) :
    Rooted ⟨p.anchor, p.parts ++ rest⟩ where
  anchor := h.anchor
  parts part hpart := (List.mem_append.mp hpart).elim (h.parts part) (hrest part)

theorem Rooted.join_ofString (h : p.Rooted) (s : String) : (p.join (ofString s)).Rooted := by
  unfold join
  split
  · exact rooted_ofString ‹_›
  · exact h.append fun _ => isPart_of_mem_ofString

/-! Spelling -/

theorem takeWhile_slash {cs : List Char} (h : ∀ c ∈ cs.head?, c ≠ '/') :
    cs.takeWhile (· == '/') = [] := by
  cases cs with
  | nil => rfl
  | cons c rest =>
    have hc := h c rfl
    exact List.takeWhile_cons_of_neg (by simpa using hc)

theorem head_intercalate {parts : List String} (h : ∀ part ∈ parts, IsPart part) :
    ∀ c ∈ (['/'].intercalate (parts.map String.toList)).head?, c ≠ '/' := by
  intro c hc
  cases parts with
  | nil => cases hc
  | cons part rest =>
    obtain ⟨hempty, -, hslash⟩ := h part List.mem_cons_self
    obtain ⟨d, tail, hpart⟩ := List.exists_cons_of_ne_nil
      (fun hnil => hempty (String.toList_eq_nil_iff.mp hnil) : part.toList ≠ [])
    have hhead : (['/'].intercalate ((part :: rest).map String.toList)).head? = some d := by
      cases rest with
      | nil => simp [hpart]
      | cons next rest => simp [hpart]
    obtain rfl : d = c := Option.some.inj (hhead.symm.trans hc)
    rintro rfl
    exact hslash (hpart ▸ List.mem_cons_self)

theorem split_intercalate {parts : List String} (h : ∀ part ∈ parts, IsPart part) :
    ((Text.splitAt '/' (['/'].intercalate (parts.map String.toList))).map String.ofList).filter
      (fun part => part ≠ "" ∧ part ≠ ".") = parts := by
  cases hparts : parts with
  | nil => rfl
  | cons part rest =>
    rw [← hparts, Text.splitAt_intercalate (by simp [hparts])]
    · rw [List.map_map, List.filter_eq_self.mpr]
      · simp [Function.comp_def]
      · intro q hq
        obtain ⟨r, hr, rfl⟩ := List.mem_map.mp hq
        obtain ⟨hempty, hdot, -⟩ := h r hr
        simpa using ⟨hempty, hdot⟩
    · intro piece hpiece
      obtain ⟨r, hr, rfl⟩ := List.mem_map.mp hpiece
      exact (h r hr).2.2

/-- A rooted path is read back from its spelling. -/
theorem Rooted.ofString_toString (h : p.Rooted) : ofString p.toString = p := by
  have htext : p.toString.toList =
      p.anchor.toList ++ ['/'].intercalate (p.parts.map String.toList) := by
    have hanchor : p.anchor ≠ "" := by rcases h.anchor with ha | ha <;> simp [ha]
    rw [Path.toString, if_neg fun he => hanchor he.1, String.toList_append, String.toList_intercalate]
    rfl
  have hsplit := split_intercalate h.parts
  have hstop := takeWhile_slash (head_intercalate h.parts)
  obtain ⟨anchor, parts⟩ := p
  simp only [ofString, Text.split, htext]
  rcases h.anchor with rfl | rfl
  · have hslash : "/".toList = ['/'] := rfl
    rw [hslash, List.singleton_append, anchorOf, Text.splitAt, if_pos rfl, List.map_cons,
      List.filter_cons_of_neg (by simp), hsplit, List.takeWhile_cons_of_pos rfl, hstop]
    rfl
  · have hslash : "//".toList = ['/', '/'] := rfl
    rw [hslash, List.cons_append, List.singleton_append, anchorOf, Text.splitAt, if_pos rfl,
      Text.splitAt, if_pos rfl, List.map_cons, List.filter_cons_of_neg (by simp), List.map_cons,
      List.filter_cons_of_neg (by simp), hsplit, List.takeWhile_cons_of_pos rfl,
      List.takeWhile_cons_of_pos rfl, hstop]
    rfl

theorem Rooted.eq_of_toString {q : Path} (hp : p.Rooted) (hq : q.Rooted)
    (h : p.toString = q.toString) : p = q := by
  rw [← hp.ofString_toString, h, hq.ofString_toString]

end Path
end StaleQuery
