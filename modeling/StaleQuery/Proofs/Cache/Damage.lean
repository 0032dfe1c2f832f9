import StaleQuery.Proofs.Cache.Histories

/-!
# Damaged entries

A cache may have any text for a file under its key. Reports that the text spells are given as they
are, and a text that is no JSON, or null, counts as nothing stored. But a value of any other shape is
taken for a list of reports all the same: checking the file breaks off, or finds no reports in it. And
a text for which the reader has no room is not taken for one that is no JSON: it breaks checking off
as well.
-/
namespace StaleQuery

namespace Record

/-- The parts of a report under their names. -/
def parts (r : Record) : List (String × Json) :=
  [("file_path", r.filePath), ("line", r.line), ("column", r.column), ("end_line", r.endLine),
    ("end_column", r.endColumn), ("rule", r.rule), ("message_id", r.messageId),
    ("message", r.message), ("reason", r.reason)]

/-- What stands for the parts that may be left out. -/
def defaults : List (String × Json) :=
  [("rule", .str Rule.name), ("message_id", .str Rule.messageId), ("message", .str Rule.message),
    ("reason", .str "")]

/-- Members that make up a report: each goes by the name of a part, and every part is there, or is
left out and has its default. -/
structure Describes (members : List (String × Json)) (r : Record) : Prop where
  named : ∀ m ∈ members, m.1 ∈ r.parts.map Prod.fst
  given : ∀ part ∈ r.parts, Json.get? part.1 members = some part.2 ∨
    (Json.get? part.1 members = none ∧ part ∈ defaults)

/-- The text spells a list of reports, and a reader has room for it. -/
def Spelled (limits : Json.Limits) (text : String) (records : List Record) : Prop :=
  ∃ items, Json.parse limits text = .ok (.arr items) ∧
    List.Forall₂ (fun item r => ∃ members, item = .obj members ∧ Describes members r) items records

/-! Reading reports -/

theorem parts_names (r : Record) : r.parts.map Prod.fst = requiredKeys ++ optionalKeys := rfl

theorem badKey?_eq_none_iff {members : List (String × Json)} :
    badKey? members = none ↔ ∀ m ∈ members, m.1 ∈ requiredKeys ++ optionalKeys := by
  have hreserved : reservedKey ∉ requiredKeys ++ optionalKeys := by decide
  induction members with
  | nil => simp [badKey?]
  | cons m rest ih =>
    obtain ⟨key, value⟩ := m
    rw [badKey?, List.forall_mem_cons]
    by_cases hkey : key = reservedKey
    · subst hkey
      simp [hreserved]
    · by_cases hknown : key ∈ requiredKeys ++ optionalKeys
      · have hcontains : (requiredKeys.contains key || optionalKeys.contains key) = true := by
          simpa using hknown
        rw [if_neg hkey, if_pos hcontains]
        exact ih.trans (and_iff_right hknown).symm
      · have hcontains : ¬ (requiredKeys.contains key || optionalKeys.contains key) = true := by
          simpa using hknown
        rw [if_neg hkey, if_neg hcontains]
        exact iff_of_false (by simp) fun hall => hknown hall.1

theorem defaults_unique {key : String} {v w : Json} (hv : (key, v) ∈ defaults)
    (hw : (key, w) ∈ defaults) : v = w := by
  have hnodup : (defaults.map Prod.fst).Nodup := by decide
  have hget := Ledger.get?_of_mem hnodup hv
  rw [Ledger.get?_of_mem hnodup hw] at hget
  exact (Option.some.inj hget).symm

theorem required_notMem_defaults {key : String} (h : key ∈ requiredKeys) (v : Json) :
    (key, v) ∉ defaults := by
  intro hmem
  have hkey : key ∈ defaults.map Prod.fst := List.mem_map.mpr ⟨_, hmem, rfl⟩
  have hdisjoint : ∀ name ∈ requiredKeys, name ∉ defaults.map Prod.fst := by decide
  exact hdisjoint key h hkey

theorem Describes.of_ofMembers {members : List (String × Json)} {r : Record}
    (h : ofMembers members = .ok r) : Describes members r := by
  unfold ofMembers at h
  split at h
  · cases h
  · rename_i hbad
    split at h
    · rename_i hmissing
      have hrequired : ∀ key ∈ requiredKeys, ∀ d,
          Json.get? key members = some ((Json.get? key members).getD d) := by
        intro key hkey d
        have hthere := List.filter_eq_nil_iff.mp hmissing key hkey
        cases hget : Json.get? key members with
        | none => simp [hget] at hthere
        | some value => rfl
      have hoptional : ∀ key d, (key, d) ∈ defaults →
          Json.get? key members = some ((Json.get? key members).getD d) ∨
            (Json.get? key members = none ∧ (key, (Json.get? key members).getD d) ∈ defaults) := by
        intro key d hd
        cases hget : Json.get? key members with
        | none => exact Or.inr ⟨rfl, hd⟩
        | some value => exact Or.inl rfl
      obtain rfl := Except.ok.inj h
      refine ⟨badKey?_eq_none_iff.mp hbad, fun part hpart => ?_⟩
      simp only [parts, List.mem_cons, List.not_mem_nil, or_false] at hpart
      rcases hpart with rfl | rfl | rfl | rfl | rfl | rfl | rfl | rfl | rfl
      · exact Or.inl (hrequired "file_path" (by decide) _)
      · exact Or.inl (hrequired "line" (by decide) _)
      · exact Or.inl (hrequired "column" (by decide) _)
      · exact Or.inl (hrequired "end_line" (by decide) _)
      · exact Or.inl (hrequired "end_column" (by decide) _)
      · exact hoptional _ _ (by simp [defaults])
      · exact hoptional _ _ (by simp [defaults])
      · exact hoptional _ _ (by simp [defaults])
      · exact hoptional _ _ (by simp [defaults])
    · cases h

theorem Describes.ofMembers_eq {members : List (String × Json)} {r : Record}
    (h : Describes members r) : ofMembers members = .ok r := by
  have hbad : badKey? members = none := badKey?_eq_none_iff.mpr h.named
  have hrequired : ∀ key v, (key, v) ∈ r.parts → key ∈ requiredKeys →
      Json.get? key members = some v := by
    intro key v hpart hkey
    rcases h.given (key, v) hpart with hget | ⟨-, hdefault⟩
    · exact hget
    · exact absurd hdefault (required_notMem_defaults hkey v)
  have hoptional : ∀ key v d, (key, v) ∈ r.parts → (key, d) ∈ defaults →
      (Json.get? key members).getD d = v := by
    intro key v d hpart hd
    rcases h.given (key, v) hpart with hget | ⟨hget, hdefault⟩
    · rw [hget, Option.getD_some]
    · rw [hget, Option.getD_none, defaults_unique hd hdefault]
  have hmissing : (requiredKeys.filter fun key => (Json.get? key members).isNone) = [] := by
    rw [List.filter_eq_nil_iff]
    intro key hkey
    have hname : key ∈ r.parts.map Prod.fst := by
      rw [parts_names]
      exact List.mem_append_left _ hkey
    obtain ⟨⟨_, v⟩, hpart, rfl⟩ := List.mem_map.mp hname
    simp [hrequired _ v hpart hkey]
  unfold ofMembers
  simp only [hbad, hmissing]
  obtain ⟨filePath, line, column, endLine, endColumn, rule, messageId, message, reason⟩ := r
  rw [hrequired "file_path" filePath (by simp [parts]) (by decide),
    hrequired "line" line (by simp [parts]) (by decide),
    hrequired "column" column (by simp [parts]) (by decide),
    hrequired "end_line" endLine (by simp [parts]) (by decide),
    hrequired "end_column" endColumn (by simp [parts]) (by decide),
    hoptional "rule" rule _ (by simp [parts]) (by simp [defaults]),
    hoptional "message_id" messageId _ (by simp [parts]) (by simp [defaults]),
    hoptional "message" message _ (by simp [parts]) (by simp [defaults]),
    hoptional "reason" reason _ (by simp [parts]) (by simp [defaults])]
  rfl

theorem ofJson_eq_ok_iff {v : Json} {r : Record} :
    ofJson v = .ok r ↔ ∃ members, v = .obj members ∧ Describes members r := by
  cases v with
  | obj members =>
    simp only [ofJson, Json.obj.injEq, exists_eq_left']
    exact ⟨Describes.of_ofMembers, Describes.ofMembers_eq⟩
  | null | bool | int | decimal | str | arr => simp [ofJson]

theorem mapM_ofJson_eq_ok_iff {items : List Json} {records : List Record} :
    items.mapM ofJson = .ok records ↔ List.Forall₂ (fun v r => ofJson v = .ok r) items records := by
  induction items generalizing records with
  | nil =>
    rw [List.forall₂_nil_left_iff]
    exact ⟨fun h => (Except.ok.inj h).symm, fun h => h ▸ rfl⟩
  | cons v rest ih =>
    rw [List.mapM_cons, List.forall₂_cons_left_iff]
    simp only [← ih]
    cases ofJson v with
    | error fault => simp [bind, Except.bind]
    | ok r =>
      cases List.mapM ofJson rest with
      | error fault => simp [bind, Except.bind]
      | ok others => simp [bind, Except.bind, pure, Except.pure, eq_comm]

/-- A value in which there is nothing to be gone through. -/
def IsVoid (v : Json) : Prop :=
  v = .str "" ∨ v = .obj []

theorem listOfJson_arr {items : List Json} {records : List Record} :
    listOfJson (.arr items) = .ok records ↔
      List.Forall₂ (fun item r => ∃ members, item = .obj members ∧ Describes members r)
        items records := by
  have hmap : listOfJson (.arr items) = items.mapM ofJson := rfl
  simp only [hmap, mapM_ofJson_eq_ok_iff, ofJson_eq_ok_iff]

/-- Characters and names are no reports. -/
theorem mapM_ofJson_strs {α : Type} (f : α → String) (texts : List α) :
    (texts.map fun a => Json.str (f a)).mapM ofJson =
      match texts with
      | [] => .ok []
      | a :: _ => .error (.notMembers (.str (f a))) := by
  cases texts with
  | nil => rfl
  | cons a rest => rfl

/-- What is not an array of reports has no reports in it, or is refused. -/
theorem listOfJson_of_not_arr {v : Json} (h : ∀ items, v ≠ .arr items) :
    (IsVoid v ∧ listOfJson v = .ok []) ∨ (¬ IsVoid v ∧ ∃ fault, listOfJson v = .error fault) := by
  cases v with
  | arr items => exact absurd rfl (h items)
  | null | bool | int | decimal => exact Or.inr ⟨by simp [IsVoid], _, rfl⟩
  | str s =>
    have hmap : listOfJson (.str s) =
        (s.toList.map fun c => Json.str (String.singleton c)).mapM ofJson := rfl
    rw [hmap, mapM_ofJson_strs]
    cases hs : s.toList with
    | nil =>
      have hempty : s = "" := by simpa using hs
      exact Or.inl ⟨Or.inl (hempty ▸ rfl), rfl⟩
    | cons c rest =>
      refine Or.inr ⟨?_, _, rfl⟩
      rintro (hvoid | hvoid)
      · obtain rfl := Json.str.inj hvoid
        simp at hs
      · cases hvoid
  | obj members =>
    have hmap : listOfJson (.obj members) =
        (members.map fun m => Json.str m.1).mapM ofJson := rfl
    rw [hmap, mapM_ofJson_strs]
    cases members with
    | nil => exact Or.inl ⟨Or.inr rfl, rfl⟩
    | cons m rest => exact Or.inr ⟨by simp [IsVoid], _, rfl⟩

end Record

namespace Workspace

/-- Checking a file makes good what is stored for it: reports that the text spells are given as they
are, and in place of any other text the result of checking the file is given and stored. -/
structure MakesGood (w : Workspace) (handle : Handle) (path : Path) (rows : Store)
    (key text : String) : Prop where
  spelled : ∀ records, Record.Spelled w.tools.limits text records →
    w.lintCached (some handle) path = (.ok records, w)
  damaged : (∀ records, ¬ Record.Spelled w.tools.limits text records) → ∃ after found,
    w.lintCached (some handle) path =
      (.ok ((w.lintFile true path).map Diagnostic.record), after) ∧
    after.files.rows handle = .ok found ∧
    Ledger.get? path.toString found =
      some ⟨key, (Record.listToJson ((w.lintFile true path).map Diagnostic.record)).line⟩ ∧
    ∀ other, other ≠ path.toString → Ledger.get? other found = Ledger.get? other rows

/-- The text counts as nothing stored. -/
def Unread (limits : Json.Limits) (text : String) : Prop :=
  Json.parse limits text = .error .malformed ∨ Json.parse limits text = .ok .null

/-- What checking stores spells the reports that it gave. -/
theorem spelled_lintFile (w : Workspace) (path : Path) (limits : Json.Limits) :
    Record.Spelled limits (Record.listToJson ((w.lintFile true path).map Diagnostic.record)).line
      ((w.lintFile true path).map Diagnostic.record) := by
  obtain ⟨holding, hfile⟩ := w.exists_verdict path
  rw [hfile]
  exact ⟨_, w.tools.parse_verdict limits path holding,
    Record.listOfJson_arr.mp (Record.listOfJson_listToJson _)⟩

section

variable {w : Workspace} {handle : Handle} {path : Path} {rows : Store} {key text : String}
  (hkey : w.cacheKey? path = some key) (hrows : w.files.rows handle = .ok rows)
  (hrow : Ledger.get? path.toString rows = some ⟨key, text⟩)
include hkey hrows hrow

theorem lintCached_of_value {v : Json} (hparse : Json.parse w.tools.limits text = .ok v)
    (hnull : v ≠ .null) :
    w.lintCached (some handle) path = ((Record.listOfJson v).mapError .record, w) := by
  have hstored : w.stored? handle path = .ok (some v) := by
    simp only [stored?, hkey, hrows, bind, Except.bind, Store.lookup, hrow, if_true, hparse]
    cases v with
    | null => exact absurd rfl hnull
    | bool | int | decimal | str | arr | obj => rfl
  simp only [lintCached, hstored]
  cases Record.listOfJson v with
  | error fault => rfl
  | ok records => rfl

theorem lintCached_of_spelled {records : List Record}
    (h : Record.Spelled w.tools.limits text records) :
    w.lintCached (some handle) path = (.ok records, w) := by
  obtain ⟨items, hparse, hitems⟩ := h
  rw [lintCached_of_value hkey hrows hrow hparse (by simp), Record.listOfJson_arr.mpr hitems]
  rfl

theorem lintCached_of_unread (h : Unread w.tools.limits text) :
    w.lintCached (some handle) path = w.lintAndStore handle path := by
  have hstored : w.stored? handle path = .ok none := by
    simp only [stored?, hkey, hrows, bind, Except.bind, Store.lookup, hrow, if_true]
    rcases h with hparse | hparse
    · simp only [hparse]
      rfl
    · simp only [hparse]
      rfl
  simp only [lintCached, hstored]

/-- A text for which there is no room does not count as nothing stored. -/
theorem lintCached_of_unreadable {fault : Json.ReadFault}
    (hparse : Json.parse w.tools.limits text = .error fault) (hroom : fault ≠ .malformed) :
    w.lintCached (some handle) path = (.error (.cache (.unreadable fault)), w) := by
  have hstored : w.stored? handle path = .error (.unreadable fault) := by
    simp only [stored?, hkey, hrows, bind, Except.bind, Store.lookup, hrow, if_true, hparse]
  simp only [lintCached, hstored]

/-- A value that is no list of reports is refused, unless there is nothing in it. -/
theorem lintCached_of_misshapen {v : Json} (hparse : Json.parse w.tools.limits text = .ok v)
    (hnull : v ≠ .null) (hdamaged : ∀ records, ¬ Record.Spelled w.tools.limits text records) :
    (Record.IsVoid v ∧ w.lintCached (some handle) path = (.ok [], w)) ∨
      (¬ Record.IsVoid v ∧ ∃ fault,
        w.lintCached (some handle) path = (.error (.record fault), w)) := by
  rw [lintCached_of_value hkey hrows hrow hparse hnull]
  by_cases harr : ∃ items, v = .arr items
  · obtain ⟨items, rfl⟩ := harr
    refine Or.inr ⟨by simp [Record.IsVoid], ?_⟩
    cases hread : Record.listOfJson (.arr items) with
    | error fault => exact ⟨fault, rfl⟩
    | ok records => exact absurd ⟨items, hparse, Record.listOfJson_arr.mp hread⟩ (hdamaged records)
  · have hother : ∀ items, v ≠ .arr items := fun items heq => harr ⟨items, heq⟩
    rcases Record.listOfJson_of_not_arr hother with ⟨hvoid, hread⟩ | ⟨hfull, fault, hread⟩
    · exact Or.inl ⟨hvoid, by rw [hread]; rfl⟩
    · exact Or.inr ⟨hfull, fault, by rw [hread]; rfl⟩

theorem makesGood_of_unread {cache : Location} (hlive : handle = .live cache)
    (h : Unread w.tools.limits text) :
    w.MakesGood handle path rows key text where
  spelled _ hspelled := lintCached_of_spelled hkey hrows hrow hspelled
  damaged _ := by
    subst hlive
    obtain ⟨t, hget⟩ := Files.exists_of_rows_live hrows
    rw [lintCached_of_unread hkey hrows hrow h]
    simp only [lintAndStore, store, hkey, hrows, Files.setRows_of_live hget, bind, Except.bind]
    refine ⟨_, _, rfl, Files.rows_of_live (Files.get?_put_file _ _ _ _), ?_, ?_⟩
    · exact Ledger.get?_put_self _ _ _
    · intro other hother
      exact Ledger.get?_put_of_ne hother _ _

/-- If nothing has changed, what was stored is what checking stores. -/
theorem MakesGood.spelled_of_unchanged (h : w.MakesGood handle path rows key text)
    (hsame : (w.lintCached (some handle) path).2 = w) :
    ∃ records, Record.Spelled w.tools.limits text records := by
  by_contra hnone
  have hdamaged : ∀ records, ¬ Record.Spelled w.tools.limits text records :=
    fun records hspelled => hnone ⟨records, hspelled⟩
  obtain ⟨after, found, hlint, hfound, hnew, -⟩ := h.damaged hdamaged
  obtain rfl : after = w := by
    rw [hlint] at hsame
    exact hsame
  obtain rfl := Except.ok.inj (hrows.symm.trans hfound)
  have htext : text = _ := congrArg Row.text (Option.some.inj (hrow.symm.trans hnew))
  apply hdamaged
  rw [htext]
  exact spelled_lintFile _ path _

end

theorem lintAndStore_of_detached {w : Workspace} {path : Path} {key : String} {found : Store}
    (hkey : w.cacheKey? path = some key) :
    w.lintAndStore (.detached found) path = (.error (.cache .readOnly), w) := by
  simp only [lintAndStore, store, hkey, Files.rows, Files.setRows, bind, Except.bind]

end Workspace

open Workspace in
/-- Whatever text a cache has for a file under its key, checking the file makes it good exactly if the
text spells a list of reports, or is no JSON or null and the cache can be written. A value of any other
shape stays where it is: it gives no reports if there is nothing in it, and else checking the file
breaks off. So does a text for which the reader has no room, whether or not it is JSON. -/
theorem damaged_entry_made_good_iff (w : Workspace) (handle : Handle) (path : Path) (rows : Store)
    (key text : String) (hkey : w.cacheKey? path = some key)
    (hrows : w.files.rows handle = .ok rows)
    (hrow : Ledger.get? path.toString rows = some ⟨key, text⟩) :
    (w.MakesGood handle path rows key text ↔
      (∃ records, Record.Spelled w.tools.limits text records) ∨
        (Unread w.tools.limits text ∧ ∃ cache, handle = .live cache)) ∧
    (∀ v, Json.parse w.tools.limits text = .ok v → v ≠ .null →
      (∀ records, ¬ Record.Spelled w.tools.limits text records) →
      (Record.IsVoid v ∧ w.lintCached (some handle) path = (.ok [], w)) ∨
        (¬ Record.IsVoid v ∧ ∃ fault,
          w.lintCached (some handle) path = (.error (.record fault), w))) ∧
    (∀ fault, Json.parse w.tools.limits text = .error fault → fault ≠ .malformed →
      w.lintCached (some handle) path = (.error (.cache (.unreadable fault)), w)) ∧
    (Unread w.tools.limits text → ∀ found, handle = .detached found →
      w.lintCached (some handle) path = (.error (.cache .readOnly), w)) := by
  have hmisshapen := fun v hparse hnull hdamaged =>
    @lintCached_of_misshapen w handle path rows key text hkey hrows hrow v hparse hnull hdamaged
  have hunreadable := fun fault hparse hroom =>
    @lintCached_of_unreadable w handle path rows key text hkey hrows hrow fault hparse hroom
  have hdetached : Unread w.tools.limits text → ∀ found, handle = .detached found →
      w.lintCached (some handle) path = (.error (.cache .readOnly), w) := by
    rintro hunread found rfl
    rw [lintCached_of_unread hkey hrows hrow hunread, lintAndStore_of_detached hkey]
  refine ⟨⟨fun hgood => ?_, ?_⟩, hmisshapen, hunreadable, hdetached⟩
  · by_contra hneither
    obtain ⟨hdamaged, hunwritable⟩ := not_or.mp hneither
    -- in every other case nothing changes, so the text would be one that checking stores
    apply hdamaged
    apply hgood.spelled_of_unchanged hkey hrows hrow
    by_cases hunread : Unread w.tools.limits text
    · cases handle with
      | closed => cases hrows
      | live cache => exact absurd ⟨hunread, cache, rfl⟩ hunwritable
      | detached found => rw [hdetached hunread found rfl]
    · obtain ⟨hjson, hnull⟩ := not_or.mp hunread
      cases hparse : Json.parse w.tools.limits text with
      | error fault =>
        have hroom : fault ≠ .malformed := fun heq => hjson (heq ▸ hparse)
        rw [hunreadable fault hparse hroom]
      | ok v =>
        have hne : v ≠ .null := fun heq => hnull (heq ▸ hparse)
        rcases hmisshapen v hparse hne fun records hspelled => hdamaged ⟨records, hspelled⟩ with
          ⟨-, hlint⟩ | ⟨-, fault, hlint⟩
        · rw [hlint]
        · rw [hlint]
  · rintro (⟨records, hspelled⟩ | ⟨hunread, cache, hlive⟩)
    · exact ⟨fun _ => lintCached_of_spelled hkey hrows hrow,
        fun hdamaged => absurd hspelled (hdamaged records)⟩
    · exact makesGood_of_unread hkey hrows hrow hlive hunread

/-! Brackets without room -/

namespace Json

variable {digits depth n : Nat}

theorem readLevel_openings {read : Read} {rest : List Char} {fault : ReadFault}
    (h : read ('[' :: rest) = .error fault) :
    readLevel digits (some read) ('[' :: '[' :: rest) = .error fault := by
  have hitems : readItems read (('[' :: rest).length + 1) [] ('[' :: rest) = .error fault := by
    have hskip : skipBlanks ('[' :: rest) = '[' :: rest := rfl
    rw [readItems, hskip, h]
    rfl
  change (readItems read (('[' :: rest).length + 1) [] ('[' :: rest)).bind _ = _
  rw [hitems]
  rfl

theorem read_openings (h : depth < n) :
    read digits depth (List.replicate n '[') = .error (.tooDeep true) := by
  induction depth generalizing n with
  | zero =>
    obtain ⟨m, rfl⟩ : ∃ m, n = m + 1 := ⟨n - 1, by omega⟩
    rfl
  | succ depth ih =>
    obtain ⟨m, rfl⟩ : ∃ m, n = m + 2 := ⟨n - 2, by omega⟩
    have hinner : read digits depth (List.replicate (m + 1) '[') = .error (.tooDeep true) :=
      ih (Nat.lt_of_succ_lt_succ h)
    exact readLevel_openings hinner

theorem parse_openings {limits : Limits} (h : limits.depth < n) :
    parse limits (String.ofList (List.replicate n '[')) = .error (.tooDeep true) := by
  obtain ⟨m, rfl⟩ : ∃ m, n = m + 1 := ⟨n - 1, by omega⟩
  have hskip : skipBlanks (List.replicate (m + 1) '[') = List.replicate (m + 1) '[' := rfl
  rw [parse, String.toList_ofList, parseChars, hskip, read_openings h]
  rfl

end Json

/-- Brackets that are opened and not closed are no JSON, but if they are too many for the reader they
do not count as nothing stored. -/
theorem Workspace.openings_break_off {w : Workspace} {handle : Handle} {path : Path} {rows : Store}
    {key : String} {n : Nat} (hkey : w.cacheKey? path = some key)
    (hrows : w.files.rows handle = .ok rows)
    (hrow : Ledger.get? path.toString rows = some ⟨key, String.ofList (List.replicate n '[')⟩)
    (hroom : w.tools.limits.depth < n) :
    w.lintCached (some handle) path = (.error (.cache (.unreadable (.tooDeep true))), w) :=
  lintCached_of_unreadable hkey hrows hrow (Json.parse_openings hroom) nofun

namespace Project

/-- A file that has a row in a cache. -/
def keeping : List Operation :=
  [.openAt ⟨"/", ["c"]⟩, .write source (ByteArray.mk #[97]) ⟨0⟩, .store source (.arr [])]

end Project

open Project in
theorem unclosed_brace_made_good : ∃ q key rows,
    (vacant.afterAll keeping).cacheReplace source "\x7bnope" = .ok q ∧
    q.workspace.cacheKey? source = some key ∧
    q.workspace.files.rows (.live ["c", "lint.db"]) = .ok rows ∧
    Ledger.get? source.toString rows = some ⟨key, "\x7bnope"⟩ ∧
    q.workspace.MakesGood (.live ["c", "lint.db"]) source rows key "\x7bnope" := by
  refine ⟨_, _, _, rfl, rfl, rfl, rfl, ?_⟩
  exact (damaged_entry_made_good_iff _ _ _ _ _ _ rfl rfl rfl).1.mpr (Or.inr ⟨Or.inl rfl, _, rfl⟩)

open Project in
/-- A list of something else breaks the check of the file off. -/
theorem misshapen_entry_breaks_off :
    (∀ records, ¬ Record.Spelled .standard "[1]" records) ∧
    ∃ q, (vacant.afterAll keeping).cacheReplace source "[1]" = .ok q ∧
      q.handle = some (.live ["c", "lint.db"]) ∧
      q.lintCached source = (.error (.record (.notMembers (.int 1))), q) := by
  refine ⟨?_, _, rfl, rfl, rfl⟩
  rintro records ⟨items, hparse, hitems⟩
  have hone : Json.parse .standard "[1]" = .ok (.arr [.int 1]) := rfl
  obtain rfl := Json.arr.inj (Except.ok.inj (hone.symm.trans hparse))
  obtain ⟨_, _, ⟨members, hmembers, -⟩, -⟩ := List.forall₂_cons_left_iff.mp hitems
  cases hmembers

end StaleQuery
