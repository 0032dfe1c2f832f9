import Mathlib.Data.List.Lex
import Mathlib.Data.List.Sort
import Mathlib.Data.String.Basic
import StaleQuery.Proofs.Files.Support

/-!
# Lists of targets

Targets are made canonical before anything is looked for, and what is found is sorted by components
and freed of repetitions. So the list of files depends on the set of targets only, and it is strictly
increasing however the targets overlap. From this follow what a run prints and in which order.
-/
namespace StaleQuery

namespace Path

/-! The order of components -/

theorem precedes_iff (as bs : List String) : precedes as bs = true ↔ as < bs := by
  fun_induction precedes as bs with
  | case1 => simp
  | case2 => simp
  | case3 => simp
  | case4 a as b bs ih => simp [List.cons_lt_cons_iff, ih]

theorem before_iff {p q : Path} : p.before q = true ↔ p.components < q.components :=
  precedes_iff _ _

theorem not_before_iff {p q : Path} : (!q.before p) = true ↔ p.components ≤ q.components := by
  rw [Bool.not_eq_true', ← Bool.not_eq_true, before_iff, not_lt]

theorem components_of_isAbsolute {p : Path} (h : p.isAbsolute = true) :
    p.components = p.anchor :: p.parts :=
  if_pos h

theorem eq_of_components {p q : Path} (hp : p.isAbsolute = true) (hq : q.isAbsolute = true)
    (h : p.components = q.components) : p = q := by
  rw [components_of_isAbsolute hp, components_of_isAbsolute hq] at h
  obtain ⟨hanchor, hparts⟩ := List.cons.inj h
  cases p
  cases q
  simp_all

/-- The one spelling of a place: from the root, and nothing in it that leads up. -/
structure Canonical (p : Path) : Prop where
  anchor : p.anchor = "/"
  names : ∀ part ∈ p.parts, IsName part

variable {p : Path}

theorem Canonical.rooted (h : p.Canonical) : p.Rooted where
  anchor := Or.inl h.anchor
  parts part hpart := (h.names part hpart).1

theorem Canonical.path_parts (h : p.Canonical) : Location.path p.parts = p := by
  rw [Location.path, ← h.anchor]

theorem Canonical.no_parent (h : p.Canonical) : ".." ∉ p.parts :=
  fun hup => (h.names _ hup).2 rfl

end Path

theorem Location.components_path (place : Location) : place.path.components = "/" :: place :=
  Path.components_of_isAbsolute rfl

theorem Location.components_lt_iff {place other : Location} :
    place.path.components < other.path.components ↔ place < other := by
  simp [components_path]

theorem Location.components_le_iff {place other : Location} :
    place.path.components ≤ other.path.components ↔ place ≤ other := by
  rw [← not_lt, components_lt_iff, not_lt]

namespace Files

open StaleQuery.Path

variable {files : Files} {cwd : Location} {excluded : List String} {paths : List Path}

/-! What is found -/

theorem sorted_mergeSort (list : List Path) :
    (list.mergeSort fun p q => !q.before p).Pairwise fun p q => p.components ≤ q.components := by
  have htrans : ∀ p q r : Path, (!q.before p) = true → (!r.before q) = true →
      (!r.before p) = true := by
    simp only [not_before_iff]
    exact fun p q r => le_trans
  have htotal : ∀ p q : Path, (!q.before p || !p.before q) = true := by
    simp only [Bool.or_eq_true, not_before_iff]
    exact fun p q => le_total _ _
  exact (List.pairwise_mergeSort htrans htotal list).imp not_before_iff.mp

/-- Where equal components are equal paths, repetitions stand side by side. -/
theorem strict_dropRepeats {list : List Path}
    (hinj : ∀ p ∈ list, ∀ q ∈ list, p.components = q.components → p = q)
    (h : list.Pairwise fun p q => p.components ≤ q.components) :
    (dropRepeats list).Pairwise fun p q => p.components < q.components := by
  fun_induction dropRepeats list with
  | case1 => exact .nil
  | case2 p => exact List.pairwise_singleton _ _
  | case3 q rest ih =>
    exact ih (fun r hr s hs => hinj r (List.mem_cons_of_mem _ hr) s (List.mem_cons_of_mem _ hs)) h.tail
  | case4 p q rest hne ih =>
    refine List.pairwise_cons.mpr ⟨fun r hr => ?_, ih (fun r hr s hs =>
      hinj r (List.mem_cons_of_mem _ hr) s (List.mem_cons_of_mem _ hs)) h.tail⟩
    have hpq : p.components < q.components := by
      refine lt_of_le_of_ne (List.rel_of_pairwise_cons h List.mem_cons_self) fun heq => hne ?_
      exact hinj p (by simp) q (by simp) heq
    rcases List.mem_cons.mp (mem_dropRepeats.mp hr) with rfl | hr
    · exact hpq
    · exact hpq.trans_le (List.rel_of_pairwise_cons h.tail hr)

theorem Sound.canonical_of_mem_sourcesAt (hs : files.Sound) {path p : Path} (hpath : path.Canonical)
    (h : p ∈ files.sourcesAt cwd excluded path) : p.Canonical := by
  unfold sourcesAt at h
  split at h
  · split at h
    · obtain rfl := List.mem_singleton.mp h
      exact hpath
    · cases h
  · split at h
    · cases h
    · obtain ⟨rest, hrest, rfl⟩ := List.mem_map.mp h
      obtain ⟨content, t, hmem, -, -⟩ := mem_sourcesBelow hrest
      have hplace := Ledger.get?_of_mem hs.once hmem
      refine ⟨hpath.anchor, fun part hpart => ?_⟩
      rcases List.mem_append.mp hpart with hpart | hpart
      · exact hpath.names part hpart
      · exact hs.names hplace part (List.mem_append_right _ hpart)

theorem Sound.canonical_of_mem_discover (hs : files.Sound) (hpaths : ∀ path ∈ paths, path.Canonical)
    {p : Path} (h : p ∈ files.discover cwd excluded paths) : p.Canonical := by
  obtain ⟨path, hpath, hp⟩ := mem_discover.mp h
  exact hs.canonical_of_mem_sourcesAt (hpaths path hpath) hp

/-- What is found below canonical targets is a strictly increasing list of places. -/
theorem Sound.places_of_discover (hs : files.Sound) (cwd : Location) (excluded : List String)
    (hpaths : ∀ path ∈ paths, path.Canonical) :
    ∃ places : List Location, files.discover cwd excluded paths = places.map Location.path ∧
      places.Pairwise (· < ·) := by
  have hcanonical : ∀ p ∈ files.discover cwd excluded paths, p.Canonical :=
    fun p hp => hs.canonical_of_mem_discover hpaths hp
  have hplaces : files.discover cwd excluded paths =
      ((files.discover cwd excluded paths).map Path.parts).map Location.path := by
    have hparts : (files.discover cwd excluded paths).map (Location.path ∘ Path.parts) =
        (files.discover cwd excluded paths).map id :=
      List.map_congr_left fun p hp => (hcanonical p hp).path_parts
    rw [List.map_map, hparts, List.map_id]
  refine ⟨_, hplaces, ?_⟩
  have hstrict : (files.discover cwd excluded paths).Pairwise
      fun p q => p.components < q.components := by
    refine strict_dropRepeats (fun p hp q hq => ?_) (sorted_mergeSort _)
    exact eq_of_components (hcanonical p (mem_dropRepeats.mpr hp)).rooted.isAbsolute
      (hcanonical q (mem_dropRepeats.mpr hq)).rooted.isAbsolute
  rw [hplaces, List.pairwise_map] at hstrict
  exact hstrict.imp Location.components_lt_iff.mp

/-- The order of the targets and how often each is given do not matter. -/
theorem Sound.discover_congr (hs : files.Sound) {others : List Path}
    (hpaths : ∀ path ∈ paths, path.Canonical) (hsame : ∀ path, path ∈ paths ↔ path ∈ others) :
    files.discover cwd excluded paths = files.discover cwd excluded others := by
  obtain ⟨places, hplaces, hsorted⟩ := hs.places_of_discover cwd excluded hpaths
  obtain ⟨places', hplaces', hsorted'⟩ := hs.places_of_discover cwd excluded fun path hpath =>
    hpaths path ((hsame path).mpr hpath)
  have hmem : ∀ p, p ∈ files.discover cwd excluded paths ↔ p ∈ files.discover cwd excluded others := by
    intro p
    rw [mem_discover, mem_discover]
    simp only [hsame]
  have hinj : Function.Injective Location.path := fun place other h => congrArg Path.parts h
  rw [hplaces, hplaces']
  congr 1
  refine hsorted.eq_of_mem_iff hsorted' fun place => ?_
  rw [← List.mem_map_of_injective hinj, ← hplaces, hmem, hplaces', List.mem_map_of_injective hinj]

theorem file_of_canonical {p : Path} (hp : p.Canonical) (h : files.Regular cwd p) :
    ∃ content t, files.get? p.parts = some (.file content t) := by
  obtain ⟨place, content, t, hlocate, hplace, -⟩ := h
  rw [locate_of_rooted hp.rooted] at hlocate
  obtain rfl := walk_down hp.no_parent hlocate
  exact ⟨content, t, hplace⟩

end Files

theorem Rule.filePath_of_mem_reports {rule : Rule} {limit : Nat} {filePath : String} {t : Tree}
    {d : Diagnostic} (h : d ∈ rule.reports limit filePath t) : d.filePath = filePath := by
  unfold reports checkTree at h
  dsimp only at h
  cases hsites : (t.calls.filter rule.namesHook).mapM (rule.checkCallSite limit) with
  | error fault =>
    rw [hsites] at h
    cases h
  | ok findings =>
    rw [hsites] at h
    obtain ⟨found, -, rfl⟩ := List.mem_map.mp h
    rfl

namespace Workspace

variable {w : Workspace}

theorem filePath_of_mem_lintFile {readable : Bool} {path : Path} {d : Diagnostic}
    (h : d ∈ w.lintFile readable path) : d.filePath = path.toString := by
  unfold lintFile at h
  split at h
  · split at h
    · exact Rule.filePath_of_mem_reports h
    · cases h
  · cases h

/-- Two reports in the order of the paths that they name. -/
def InOrder (r s : Record) : Prop :=
  ∃ first second, r.filePath = .str first ∧ s.filePath = .str second ∧
    (Path.ofString first).components ≤ (Path.ofString second).components

theorem inOrder_reports {places : List Location} (hsorted : places.Pairwise (· < ·))
    (hnames : ∀ place ∈ places, place.path.Canonical) :
    (w.reports (places.map Location.path)).Pairwise InOrder := by
  have hpath : ∀ place ∈ places, ∀ r ∈ (w.lintFile true place.path).map Diagnostic.record,
      ∃ text, r.filePath = .str text ∧ Path.ofString text = place.path := by
    intro place hplace r hr
    obtain ⟨d, hd, rfl⟩ := List.mem_map.mp hr
    refine ⟨d.filePath, rfl, ?_⟩
    rw [filePath_of_mem_lintFile hd]
    exact (hnames place hplace).rooted.ofString_toString
  have hle : ∀ place ∈ places, ∀ other ∈ places, place ≤ other →
      ∀ r ∈ (w.lintFile true place.path).map Diagnostic.record,
      ∀ s ∈ (w.lintFile true other.path).map Diagnostic.record, InOrder r s := by
    intro place hplace other hother hle r hr s hs
    obtain ⟨first, hfirst, hplace⟩ := hpath place hplace r hr
    obtain ⟨second, hsecond, hother⟩ := hpath other hother s hs
    refine ⟨first, second, hfirst, hsecond, ?_⟩
    rw [hplace, hother, Location.components_le_iff]
    exact hle
  rw [reports, List.flatMap_map, List.pairwise_flatMap]
  constructor
  · intro place hplace
    exact List.pairwise_of_forall_mem_list (hle place hplace place hplace (le_refl _))
  · exact hsorted.imp_of_mem fun hplace hother hlt => hle _ hplace _ hother (le_of_lt hlt)

end Workspace

namespace Command

variable {session : Session} {w : Workspace} {environment : Environment}

theorem canonical_resolve (hcwd : ∀ name ∈ w.cwd, Path.IsName name) (text : String) :
    (resolve w text).Canonical where
  anchor := rfl
  names := by
    refine Files.isName_of_mem_resolveParts (fun name hname => ?_) fun _ =>
      Path.isPart_of_mem_ofString
    split at hname
    · cases hname
    · exact hcwd name hname

/-- A run that prints its reports as JSON and uses no cache. -/
def jsonLint (paths exclude : List String) (quiet : Bool) : Command :=
  .lint { paths, format := some "json", noCache := true, exclude, quiet }

theorem run_jsonLint {texts : List String} (exclude : List String) (quiet : Bool) (hne : texts ≠ [])
    (hthere : ∀ text ∈ texts, w.files.has w.cwd (resolve w text) = true) {settled : Environment}
    (hload : loadSettings w environment = .ok settled) :
    run session w environment (jsonLint texts exclude quiet) =
      (reportLint session w .json quiet
        (w.discover (Settings.excluded settled ++ exclude) (texts.map (resolve w))).length
        (w.reports (w.discover (Settings.excluded settled ++ exclude) (texts.map (resolve w)))), w) := by
  have htargets : targets w { paths := texts, format := some "json", noCache := true, exclude, quiet } =
      texts.map (resolve w) := by
    cases texts with
    | nil => exact absurd rfl hne
    | cons text rest => rfl
  have hpresent : (texts.map (resolve w)).find? (fun target => !w.files.has w.cwd target) = none := by
    rw [List.find?_eq_none]
    intro target htarget
    obtain ⟨text, htext, rfl⟩ := List.mem_map.mp htarget
    simp [hthere text htext]
  have hformat : chooseFormat settled (some "json") = .ok .json := by
    have hword : Format.ofName? (Text.lower "json") = some .json := by decide +kernel
    unfold chooseFormat
    split <;> simp_all
  simp only [run, jsonLint, hload]
  rw [runLint_of_present _ hformat (htargets ▸ hpresent), htargets, if_neg (by simp), lintFiles,
    Workspace.lintAll_none]

end Command

open Command in
/-- Two lists of targets that resolve to the same places give the same run. The files that are
checked are the files of the tree at a strictly increasing list of places, so that each of them is
checked once, and the reports come in the order of the paths that they name. -/
theorem targets_denote_a_set (session : Session) {w : Workspace} (environment : Environment)
    (exclude : List String) (quiet : Bool) {texts others : List String} (hs : w.files.Sound)
    (hcwd : ∀ name ∈ w.cwd, Path.IsName name) (hne : texts ≠ [])
    (hthere : ∀ text ∈ texts, w.files.has w.cwd (resolve w text) = true)
    (hsame : ∀ path, path ∈ texts.map (resolve w) ↔ path ∈ others.map (resolve w)) :
    run session w environment (jsonLint others exclude quiet) =
      run session w environment (jsonLint texts exclude quiet) ∧
    ∀ settled, loadSettings w environment = .ok settled → ∃ places : List Location,
      places.Pairwise (· < ·) ∧
      (∀ place ∈ places, ∃ content t, w.files.get? place = some (.file content t)) ∧
      w.discover (Settings.excluded settled ++ exclude) (texts.map (resolve w)) =
        places.map Location.path ∧
      run session w environment (jsonLint texts exclude quiet) =
        (reportLint session w .json quiet places.length (w.reports (places.map Location.path)), w) ∧
      (w.reports (places.map Location.path)).Pairwise Workspace.InOrder := by
  have hcanonical : ∀ path ∈ texts.map (resolve w), path.Canonical := by
    intro path hpath
    obtain ⟨text, -, rfl⟩ := List.mem_map.mp hpath
    exact canonical_resolve hcwd text
  constructor
  · have hne' : others ≠ [] := by
      rintro rfl
      obtain ⟨text, rest, rfl⟩ := List.exists_cons_of_ne_nil hne
      exact List.not_mem_nil ((hsame _).mp List.mem_cons_self)
    have hthere' : ∀ text ∈ others, w.files.has w.cwd (resolve w text) = true := by
      intro text htext
      obtain ⟨spelled, hspelled, heq⟩ :=
        List.mem_map.mp ((hsame _).mpr (List.mem_map_of_mem htext))
      rw [← heq]
      exact hthere spelled hspelled
    cases hload : loadSettings w environment with
    | error fault => simp only [run, jsonLint, hload]
    | ok settled =>
      rw [run_jsonLint exclude quiet hne hthere hload, run_jsonLint exclude quiet hne' hthere' hload,
        Workspace.discover, Workspace.discover, hs.discover_congr hcanonical hsame]
  · intro settled hload
    obtain ⟨places, hplaces, hsorted⟩ :=
      hs.places_of_discover w.cwd (Settings.excluded settled ++ exclude) hcanonical
    have hfound : ∀ place ∈ places, place.path ∈
        w.files.discover w.cwd (Settings.excluded settled ++ exclude) (texts.map (resolve w)) := by
      intro place hplace
      rw [hplaces]
      exact List.mem_map_of_mem hplace
    have hnames : ∀ place ∈ places, place.path.Canonical := fun place hplace =>
      hs.canonical_of_mem_discover hcanonical (hfound place hplace)
    refine ⟨places, hsorted, fun place hplace => ?_, hplaces, ?_,
      Workspace.inOrder_reports hsorted hnames⟩
    · exact Files.file_of_canonical (hnames place hplace) (hs.regular_of_mem_discover
        (fun path hpath => (hcanonical path hpath).rooted) (hfound place hplace)).2
    · rw [run_jsonLint exclude quiet hne hthere hload, Workspace.discover, hplaces, List.length_map]

/-- A directory with one below it, seen from the upper one. -/
def twoLevels : Workspace where
  files := ((Files.empty 0).write [] ⟨"/", ["d", "e", "f.js"]⟩ "useMutation()".toUTF8 ⟨0⟩).2
  cwd := ["d"]
  version := ""

theorem twoLevels_sound : twoLevels.files.Sound :=
  (Files.write_grows [] (Files.sound_empty 0) ⟨Or.inl rfl, by decide⟩ _ _).sound
    (Files.sound_empty 0)

open Command in
theorem respelled_targets_same_run : twoLevels.files.Sound ∧ ∀ session,
    run session twoLevels [] (jsonLint ["e/f.js", "../d/./e/..", ".", "/d//e"] [] false) =
      run session twoLevels [] (jsonLint ["/d", "e", "e/../e/f.js"] [] false) := by
  have hfirst : ["/d", "e", "e/../e/f.js"].map (resolve twoLevels) =
      [⟨"/", ["d"]⟩, ⟨"/", ["d", "e"]⟩, ⟨"/", ["d", "e", "f.js"]⟩] := by decide +kernel
  have hsecond : ["e/f.js", "../d/./e/..", ".", "/d//e"].map (resolve twoLevels) =
      [⟨"/", ["d", "e", "f.js"]⟩, ⟨"/", ["d"]⟩, ⟨"/", ["d"]⟩, ⟨"/", ["d", "e"]⟩] := by decide +kernel
  refine ⟨twoLevels_sound, fun session => (targets_denote_a_set session [] [] false twoLevels_sound
    (by decide) (by decide) (by decide +kernel) fun path => ?_).1⟩
  rw [hfirst, hsecond]
  simp only [List.mem_cons, List.not_mem_nil, or_false]
  tauto

end StaleQuery
