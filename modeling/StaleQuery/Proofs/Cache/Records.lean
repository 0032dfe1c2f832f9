import StaleQuery.Cache.Lint
import StaleQuery.Proofs.Json.RoundTrip
import StaleQuery.Proofs.Rule.Anchors

/-!
# Reports as text

A report names its place by four numbers. They are rows and columns of nodes, counted from one, and a
parser counts with 32 bits, so ten digits are enough for each of them. A list of reports is a list of
flat objects; every reader has room for it, and reads back what was written.
-/
namespace StaleQuery

namespace Tree

variable {s t : Tree}

theorem Narrow.start_stop (h : t.Narrow) : t.range.start.Narrow ∧ t.range.stop.Narrow := by
  cases h with
  | node hstart hstop _ => exact ⟨hstart, hstop⟩

theorem Narrow.of_below (h : t.Narrow) (hs : s.Below t) : s.Narrow := by
  induction hs with
  | here => exact h
  | inside hc _ ih =>
    cases h with
    | node _ _ hchildren => exact ih (hchildren _ hc)

end Tree

/-- A place whose numbers have ten digits at most. -/
structure Span.Short (s : Span) : Prop where
  startLine : (Nat.toDigits 10 s.startLine).length ≤ 10
  startColumn : (Nat.toDigits 10 s.startColumn).length ≤ 10
  endLine : (Nat.toDigits 10 s.endLine).length ≤ 10
  endColumn : (Nat.toDigits 10 s.endColumn).length ≤ 10

theorem Tree.Narrow.short_span {t : Tree} (h : t.Narrow) : t.span.Short := by
  obtain ⟨⟨hrow, hcolumn⟩, hrow', hcolumn'⟩ := h.start_stop
  have hdigits : ∀ n, n < UInt32.size → (Nat.toDigits 10 (n + 1)).length ≤ 10 := by
    intro n hn
    refine (Nat.length_toDigits_le_iff (by decide) (by decide)).mpr ?_
    have hsize : UInt32.size < 10 ^ 10 := by decide
    omega
  exact ⟨hdigits _ hrow, hdigits _ hcolumn, hdigits _ hrow', hdigits _ hcolumn'⟩

namespace Rule

variable {rule : Rule} {limit : Nat} {filePath : String} {s t : Tree} {d : Diagnostic}

/-- A report points at a node of its call. -/
theorem Anchored.exists_below (h : Anchored rule limit filePath s d) :
    ∃ c : Tree, c.Below s ∧ d.span = c.span := by
  cases h with
  | missingOptions | missingCallback | tooDeep => exact ⟨s, .here, rfl⟩
  | callback _ _ hproperty =>
    obtain ⟨a, -, hreach⟩ := Tree.exists_anchor (p := []) rfl hproperty
    exact ⟨_, Tree.below_of_reach? hreach, rfl⟩

theorem short_of_mem_reports (ht : t.Narrow) (h : d ∈ rule.reports limit filePath t) :
    d.span.Short := by
  rw [reports, checkTree_eq_ok, listing, Tree.gather_eq_occurrences] at h
  obtain ⟨⟨p, s⟩, hp, hd⟩ := List.mem_flatMap.mp h
  obtain ⟨a, -, hreach⟩ := Tree.exists_address (Tree.mem_occurrences.mp hp)
  obtain ⟨c, hc, hspan⟩ := (anchored_of_mem_own hd).exists_below
  rw [hspan]
  exact (ht.of_below (hc.trans (Tree.below_of_reach? hreach))).short_span

end Rule

/-! Records as text -/

namespace Record

theorem ofJson_toJson (r : Record) : ofJson r.toJson = .ok r := rfl

theorem listOfJson_listToJson (records : List Record) :
    listOfJson (listToJson records) = .ok records := by
  have hall : ∀ r ∈ records, (fun r => ofJson (toJson r)) r = .ok (id r) := fun r _ => ofJson_toJson r
  have hmap := Rule.mapM_ok hall
  rw [List.map_id] at hmap
  simp only [listOfJson, listToJson, elements, bind, Except.bind, List.mapM_map]
  exact hmap

end Record

namespace Diagnostic

theorem plain_record (d : Diagnostic) : d.record.toJson.Plain := by
  refine .obj (fun m hm => ?_) (by simp)
  simp only [List.mem_cons, List.not_mem_nil, or_false] at hm
  rcases hm with rfl | rfl | rfl | rfl | rfl | rfl | rfl | rfl | rfl
  all_goals first | exact .str _ | exact .int _

theorem within_record {d : Diagnostic} (h : d.span.Short) : Json.Within 10 1 d.record.toJson := by
  refine .obj fun m hm => ?_
  simp only [List.mem_cons, List.not_mem_nil, or_false] at hm
  rcases hm with rfl | rfl | rfl | rfl | rfl | rfl | rfl | rfl | rfl
  · exact .str _
  · exact .int h.startLine
  · exact .int h.startColumn
  · exact .int h.endLine
  · exact .int h.endColumn
  all_goals exact .str _

end Diagnostic

/-- Reports are read back by every reader. -/
theorem parse_records (limits : Json.Limits) {reports : List Diagnostic}
    (hshort : ∀ d ∈ reports, d.span.Short) :
    Json.parse limits (Record.listToJson (reports.map Diagnostic.record)).line =
      .ok (Record.listToJson (reports.map Diagnostic.record)) := by
  refine Json.parse_line (.arr fun v hv => ?_) ?_
  · obtain ⟨r, hr, rfl⟩ := List.mem_map.mp hv
    obtain ⟨d, -, rfl⟩ := List.mem_map.mp hr
    exact d.plain_record
  · refine Json.Within.mono (.arr fun v hv => ?_) limits.ten_le_digits limits.two_le_depth
    obtain ⟨r, hr, rfl⟩ := List.mem_map.mp hv
    obtain ⟨d, hd, rfl⟩ := List.mem_map.mp hr
    exact Diagnostic.within_record (hshort d hd)

end StaleQuery
