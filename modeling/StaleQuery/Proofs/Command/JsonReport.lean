import StaleQuery.Command.Run
import StaleQuery.Proofs.Cache.Lookup
import StaleQuery.Proofs.Json.Indented
import StaleQuery.Proofs.Text.Icons

/-!
# Reports as JSON

A report in JSON is ASCII, so no icon is spelled out in it and every character set takes it that has
all of ASCII; code page 864 has no percent sign. Whatever the paths in it hold, the report is read
back as the records that it was made of.
-/
namespace StaleQuery

/-! Terminals and ASCII -/

theorem Icon.spellOut_of_ascii {text : String} (h : Json.Ascii text.toList) :
    spellOut text = text := by
  rw [← String.toList_inj, toList_spellOut]
  apply flatMap_spelled_of_notMem
  intro c hc
  exact not_isIcon_of_ascii (h c hc)

theorem Console.sanitize_of_ascii {text : String} (h : Json.Ascii text.toList) (encoding : String) :
    sanitize encoding text = text := by
  unfold sanitize
  split
  · rfl
  · exact Icon.spellOut_of_ascii h

namespace Charset

/-- One character of ASCII is missing from one character set. -/
theorem canWrite_of_ascii (charset : Charset) {c : Char} (h : c.toNat < 128) :
    charset.canWrite c = true ↔ ¬ (charset = .cp864 ∧ c = '%') := by
  cases charset with
  | ascii => simp [canWrite, h]
  | latin1 =>
    have hlow : c.toNat < 0x100 := by omega
    simp [canWrite, hlow]
  | cp1252 => simp [canWrite, h]
  | cp864 =>
    by_cases hpercent : c = '%'
    · subst hpercent
      decide
    · simp [canWrite, h, hpercent]
  | unicode => simp [canWrite]

theorem canWriteAll_of_ascii (charset : Charset) {text : String} (h : Json.Ascii text.toList) :
    charset.canWriteAll text = true ↔ ¬ (charset = .cp864 ∧ '%' ∈ text.toList) := by
  rw [canWriteAll, List.all_eq_true]
  constructor
  · rintro hall ⟨hcharset, hmem⟩
    exact (charset.canWrite_of_ascii (h _ hmem)).mp (hall _ hmem) ⟨hcharset, rfl⟩
  · intro hno c hc
    refine (charset.canWrite_of_ascii (h c hc)).mpr ?_
    rintro ⟨hcharset, rfl⟩
    exact hno ⟨hcharset, hc⟩

end Charset

/-! Records in a report -/

/-- Places are whole numbers, and all other values are texts. -/
structure Record.Typed (r : Record) : Prop where
  filePath : ∃ s, r.filePath = .str s
  line : ∃ n, r.line = .int n
  column : ∃ n, r.column = .int n
  endLine : ∃ n, r.endLine = .int n
  endColumn : ∃ n, r.endColumn = .int n
  rule : ∃ s, r.rule = .str s
  messageId : ∃ s, r.messageId = .str s
  message : ∃ s, r.message = .str s
  reason : ∃ s, r.reason = .str s

theorem Diagnostic.typed_record (d : Diagnostic) : d.record.Typed where
  filePath := ⟨_, rfl⟩
  line := ⟨_, rfl⟩
  column := ⟨_, rfl⟩
  endLine := ⟨_, rfl⟩
  endColumn := ⟨_, rfl⟩
  rule := ⟨_, rfl⟩
  messageId := ⟨_, rfl⟩
  message := ⟨_, rfl⟩
  reason := ⟨_, rfl⟩

theorem Json.whole_of_str {v : Json} (h : ∃ s, v = .str s) : v.Whole := by
  obtain ⟨s, rfl⟩ := h
  exact .str s

theorem Json.whole_of_int {v : Json} (h : ∃ n, v = .int n) : v.Whole := by
  obtain ⟨n, rfl⟩ := h
  exact .int n

theorem Record.Typed.whole {r : Record} (h : r.Typed) : r.toJson.Whole := by
  refine .obj (fun m hm => ?_) (by simp)
  simp only [List.mem_cons, List.not_mem_nil, or_false] at hm
  rcases hm with rfl | rfl | rfl | rfl | rfl | rfl | rfl | rfl | rfl
  · exact Json.whole_of_str h.filePath
  · exact Json.whole_of_int h.line
  · exact Json.whole_of_int h.column
  · exact Json.whole_of_int h.endLine
  · exact Json.whole_of_int h.endColumn
  · exact Json.whole_of_str h.rule
  · exact Json.whole_of_str h.messageId
  · exact Json.whole_of_str h.message
  · exact Json.whole_of_str h.reason

theorem Record.whole_listToJson {records : List Record} (h : ∀ r ∈ records, r.Typed) :
    (listToJson records).Whole := by
  refine .arr fun v hv => ?_
  obtain ⟨r, hr, rfl⟩ := List.mem_map.mp hv
  exact (h r hr).whole

namespace Report

variable {records : List Record} (h : ∀ r ∈ records, r.Typed)
include h

theorem ascii_json : Json.Ascii (json records).toList := by
  rw [json, Json.indented, String.toList_ofList]
  exact (Record.whole_listToJson h).ascii 0 Json.ascii_nil

theorem parse?_json : Json.parse? (json records ++ "\n") = some (Record.listToJson records) := by
  refine Json.parse?_indented (Record.whole_listToJson h) ?_ ?_
  · rintro c ⟨⟩
    exact Or.inr (Or.inr (Or.inr rfl))
  · intro c hc
    obtain rfl := List.mem_singleton.mp hc
    rfl

end Report

namespace Command

theorem reportLint_json {records : List Record} (h : ∀ r ∈ records, r.Typed) (session : Session)
    (w : Workspace) (quiet : Bool) (checked : Nat) :
    reportLint session w .json quiet checked records =
      if Charset.ofName session.terminal.encoding = .cp864 ∧ '%' ∈ (Report.json records).toList then
        .error (.report (.print .unwritable))
      else
        .ok { exit := if records.isEmpty then 0 else 1, out := Report.json records ++ "\n" } := by
  have hascii := Report.ascii_json h
  have hline : Json.Ascii (Report.json records ++ "\n").toList := by
    rw [String.toList_append, Json.ascii_append]
    exact ⟨hascii, by simp⟩
  have hpercent : '%' ∈ (Report.json records ++ "\n").toList ↔
      '%' ∈ (Report.json records).toList := by
    rw [String.toList_append, List.mem_append, or_iff_left (by decide)]
  have hwritten := (Charset.ofName session.terminal.encoding).canWriteAll_of_ascii hline
  rw [hpercent] at hwritten
  simp only [reportLint, Console.sanitize_of_ascii hascii, Console.Terminal.send]
  by_cases hlost : Charset.ofName session.terminal.encoding = .cp864 ∧
      '%' ∈ (Report.json records).toList
  · rw [if_neg fun hall => hwritten.mp hall hlost, if_pos hlost]
    rfl
  · rw [if_pos (hwritten.mpr hlost), if_neg hlost]
    rfl

end Command

open Command in
/-- A report in JSON loses nothing. It is ASCII, no encoding makes the terminal change it, it is read
back as the records in their order, and each record is made anew from what was read. It is printed as
it is, except to code page 864 with a percent sign in it, which is not printed at all. -/
theorem json_report_lossless (session : Session) (w : Workspace) (quiet : Bool) (checked : Nat)
    (records : List Record) (h : ∀ r ∈ records, r.Typed) :
    (∀ c ∈ (Report.json records).toList, c.toNat < 128) ∧
    (∀ encoding, Console.sanitize encoding (Report.json records) = Report.json records) ∧
    Json.parse? (Report.json records ++ "\n") = some (.arr (records.map Record.toJson)) ∧
    (records.map Record.toJson).map Record.ofJson = records.map .ok ∧
    reportLint session w .json quiet checked records =
      if Charset.ofName session.terminal.encoding = .cp864 ∧ '%' ∈ (Report.json records).toList then
        .error (.report (.print .unwritable))
      else
        .ok { exit := if records.isEmpty then 0 else 1, out := Report.json records ++ "\n" } := by
  have hascii := Report.ascii_json h
  refine ⟨hascii, Console.sanitize_of_ascii hascii, Report.parse?_json h, ?_,
    reportLint_json h session w quiet checked⟩
  rw [List.map_map]
  exact List.map_congr_left fun r _ => r.ofJson_toJson

/-- A run on a terminal of this encoding, in an empty place. -/
def printed (encoding : String) (records : List Record) : Except RunFault Transcript :=
  Command.reportLint ⟨.attached encoding 80, "0.00"⟩ ⟨⟨[], 0⟩, [], Report.version, .standard⟩ .json
    false 1 records

/-- A report on a file with an icon, a quote, a backslash, a line feed and a character beyond sixteen
bits in its name. -/
def oddlyNamed : Record :=
  (⟨"✓\"\\\n😀.js", ⟨1, 1, 1, 14⟩, .missingOptions⟩ : Diagnostic).record

theorem odd_name_survives_ascii :
    printed "ascii" [oddlyNamed] = .ok { exit := 1, out := Report.json [oddlyNamed] ++ "\n" } ∧
    Json.parse? (Report.json [oddlyNamed] ++ "\n") = some (.arr [oddlyNamed.toJson]) := by
  have htyped : ∀ r ∈ [oddlyNamed], r.Typed := by
    intro r hr
    obtain rfl := List.mem_singleton.mp hr
    exact Diagnostic.typed_record _
  have hcharset : Charset.ofName (Console.Terminal.attached "ascii" 80).encoding ≠ .cp864 := by
    decide +kernel
  obtain ⟨-, -, hparse, -, hprint⟩ := json_report_lossless ⟨.attached "ascii" 80, "0.00"⟩
    ⟨⟨[], 0⟩, [], Report.version, .standard⟩ false 1 _ htyped
  rw [if_neg fun hlost => hcharset hlost.1] at hprint
  exact ⟨hprint, hparse⟩

def percentNamed : Record :=
  (⟨"/50%.js", ⟨1, 1, 1, 14⟩, .missingOptions⟩ : Diagnostic).record

/-- Not every character set has a percent sign. -/
theorem percent_unprintable_in_cp864 :
    printed "cp864" [percentNamed] = .error (.report (.print .unwritable)) := by
  have htyped : ∀ r ∈ [percentNamed], r.Typed := by
    intro r hr
    obtain rfl := List.mem_singleton.mp hr
    exact Diagnostic.typed_record _
  have hcharset : Charset.ofName (Console.Terminal.attached "cp864" 80).encoding = .cp864 := by
    decide +kernel
  have hpercent : '%' ∈ (Report.json [percentNamed]).toList := by
    rw [Report.json, Json.indented, String.toList_ofList]
    decide +kernel
  rw [printed, Command.reportLint_json htyped, if_pos ⟨hcharset, hpercent⟩]

end StaleQuery
