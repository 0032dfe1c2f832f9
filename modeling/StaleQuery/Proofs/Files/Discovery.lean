import StaleQuery.Proofs.Files.Targets

/-!
# What is discovered

Discovery gathers what each path stands for, sorts it and drops what repeats. Paths that were read
from a text differ in their components if they differ at all, so the result is strictly increasing and
is given by its members. These are the named files with a dialect and the files below the other paths
whose names end as sources and which no excluded directory hides. Whatever else is to be known of the
result, that it is the union over the paths or that exclusions can only shrink it, is read off the
members.
-/
namespace StaleQuery

namespace Path

variable {p q : Path}

/-- What reading a text can give, and whatever stands below it. -/
structure Proper (p : Path) : Prop where
  anchor : p.anchor = "" ∨ p.anchor = "/" ∨ p.anchor = "//"
  parts : ∀ part ∈ p.parts, IsPart part

theorem proper_ofString (text : String) : (ofString text).Proper where
  anchor := by
    change anchorOf text.toList = _ ∨ anchorOf text.toList = _ ∨ anchorOf text.toList = _
    unfold anchorOf
    split <;> simp
  parts _ := isPart_of_mem_ofString

theorem Proper.descend (h : p.Proper) {rest : List String} (hrest : ∀ part ∈ rest, IsPart part) :
    (p.descend rest).Proper where
  anchor := h.anchor
  parts part hpart := (List.mem_append.mp hpart).elim (h.parts part) (hrest part)

/-- No part of a path is an anchor. -/
theorem Proper.components_ne (hp : p.Proper) (hq : q.Proper) (hpa : p.isAbsolute = true)
    (hqa : q.isAbsolute = false) : p.components ≠ q.components := by
  intro h
  rw [components, if_pos hpa, components, if_neg (by simp [hqa])] at h
  have hpart : IsPart p.anchor := hq.parts p.anchor (h ▸ List.mem_cons_self)
  rcases hp.anchor with ha | ha | ha
  · simp [isAbsolute, ha] at hpa
  · exact absurd (ha ▸ hpart) (by decide)
  · exact absurd (ha ▸ hpart) (by decide)

theorem Proper.eq_of_components (hp : p.Proper) (hq : q.Proper) (h : p.components = q.components) :
    p = q := by
  by_cases hpa : p.isAbsolute = true
  · by_cases hqa : q.isAbsolute = true
    · exact Path.eq_of_components hpa hqa h
    · exact absurd h (hp.components_ne hq hpa (by simpa using hqa))
  · by_cases hqa : q.isAbsolute = true
    · exact absurd h.symm (hq.components_ne hp hqa (by simpa using hpa))
    · have hanchor : p.anchor = q.anchor := by simp_all [isAbsolute]
      rw [components, if_neg hpa, components, if_neg hqa] at h
      cases p
      cases q
      simp_all

/-- The order of discovery: component by component. -/
def Earlier (p q : Path) : Prop :=
  p.components < q.components

instance : Std.Irrefl Earlier := ⟨fun p => lt_irrefl p.components⟩

instance : Std.Antisymm Earlier := ⟨fun _ _ h k => absurd k (lt_asymm h)⟩

end Path

namespace Files

variable {files : Files} {cwd : Location} {excluded : List String} {root p : Path}
  {rest : List String}

theorem endsAsSource_iff {name : String} : endsAsSource name = true ↔
    ∃ extension ∈ Source.extensions, extension.toList <:+ name.toList := by
  simp [endsAsSource, Source.extensions]

theorem admits_iff : admits excluded rest = true ↔
    endsAsSource (rest.getLast?.getD "") = true ∧ ∀ part ∈ rest.dropLast, part ∉ excluded := by
  simp [admits]

theorem admits_of_mem_sourcesBelow {place : Location} (h : rest ∈ files.sourcesBelow excluded place) :
    admits excluded rest = true := by
  obtain ⟨⟨other, e⟩, -, hrest⟩ := List.mem_filterMap.mp h
  dsimp only at hrest
  split at hrest
  · split at hrest
    · rename_i hadmits
      obtain rfl := Option.some.inj hrest
      exact (Bool.and_eq_true_iff.mp hadmits).2
    · cases hrest
  · cases hrest

/-- A path leads down to a file if there is one as far below the place that the path leads to. -/
theorem Sound.isFile_descend_iff (hs : files.Sound) :
    files.isFile cwd (root.descend rest) = true ∧ ".." ∉ rest ↔
      ∃ place content t, files.locate cwd root = .ok place ∧
        files.get? (place ++ rest) = some (.file content t) := by
  have hsplit : files.locate cwd (root.descend rest) =
      (files.locate cwd root).bind fun middle => files.walk middle rest :=
    walk_append files _ root.parts rest
  constructor
  · rintro ⟨hfile, hdown⟩
    obtain ⟨content, t, hentry⟩ := entry_of_isFile hfile
    obtain ⟨target, htarget, hcontent⟩ := locate_of_entry hentry
    rw [hsplit] at htarget
    cases hlocate : files.locate cwd root with
    | error fault =>
      rw [hlocate] at htarget
      cases htarget
    | ok place =>
      rw [hlocate] at htarget
      obtain rfl := walk_down hdown htarget
      exact ⟨place, content, t, rfl, hcontent⟩
  · rintro ⟨place, content, t, hlocate, hplace⟩
    constructor
    · have htarget : files.locate cwd (root.descend rest) = .ok (place ++ rest) := by
        rw [hsplit, hlocate]
        exact hs.walk hplace
      simp [isFile, entry, htarget, hplace, bind, Except.bind, pure, Except.pure, Entry.isDirectory]
    · intro hup
      exact (hs.names hplace ".." (List.mem_append_right _ hup)).2 rfl

/-- The names lead from a path down to a file that is found there: it ends as a source, and no
directory on the way is excluded. -/
structure SourceBelow (files : Files) (cwd : Location) (excluded : List String) (root : Path)
    (rest : List String) : Prop where
  down : ".." ∉ rest
  file : files.isFile cwd (root.descend rest) = true
  source : ∃ extension ∈ Source.extensions, extension.toList <:+ (root.descend rest).name.toList
  clear : ∀ part ∈ rest.dropLast, part ∉ defaultExcluded ++ excluded

theorem SourceBelow.ne_nil (h : files.SourceBelow cwd excluded root rest)
    (hroot : files.isFile cwd root = false) : rest ≠ [] := by
  rintro rfl
  have hfile := h.file
  rw [Path.descend, List.append_nil, hroot] at hfile
  cases hfile

theorem Sound.mem_sourcesAt_iff (hs : files.Sound) :
    p ∈ files.sourcesAt cwd (defaultExcluded ++ excluded) root ↔
      (p = root ∧ files.isFile cwd root = true ∧ root.dialect?.isSome = true) ∨
      (files.isFile cwd root = false ∧
        ∃ rest, p = root.descend rest ∧ files.SourceBelow cwd excluded root rest) := by
  unfold sourcesAt
  by_cases hroot : files.isFile cwd root = true
  · simp only [hroot, if_true, Bool.true_eq_false, false_and, or_false, true_and]
    split
    · rename_i hdialect
      simp [hdialect]
    · rename_i hdialect
      simp [hdialect]
  · have hroot : files.isFile cwd root = false := by simpa using hroot
    simp only [hroot, Bool.false_eq_true, if_false, false_and, and_false, false_or, true_and]
    constructor
    · intro h
      split at h
      · cases h
      · rename_i place hlocate
        obtain ⟨rest, hrest, rfl⟩ := List.mem_map.mp h
        obtain ⟨content, t, hmem, hne, -⟩ := mem_sourcesBelow hrest
        have hplace := Ledger.get?_of_mem hs.once hmem
        obtain ⟨hfile, hdown⟩ := hs.isFile_descend_iff.mpr ⟨place, content, t, hlocate, hplace⟩
        obtain ⟨hends, hclear⟩ := admits_iff.mp (admits_of_mem_sourcesBelow hrest)
        rw [← Path.name_descend (p := root) hne] at hends
        exact ⟨rest, rfl, hdown, hfile, endsAsSource_iff.mp hends, hclear⟩
    · rintro ⟨rest, rfl, hbelow⟩
      have hne := hbelow.ne_nil hroot
      obtain ⟨place, content, t, hlocate, hplace⟩ :=
        hs.isFile_descend_iff.mp ⟨hbelow.file, hbelow.down⟩
      have hends := endsAsSource_iff.mpr hbelow.source
      rw [Path.name_descend hne] at hends
      simp only [hlocate]
      apply List.mem_map_of_mem
      exact mem_sourcesBelow_of_file hplace hne (admits_iff.mpr ⟨hends, hbelow.clear⟩)

variable {paths : List Path}

theorem Sound.proper_of_mem_discover (hs : files.Sound) (hpaths : ∀ path ∈ paths, path.Proper)
    (h : p ∈ files.discover cwd excluded paths) : p.Proper := by
  obtain ⟨path, hpath, hp⟩ := mem_discover.mp h
  rcases hs.mem_sourcesAt_iff.mp hp with ⟨rfl, -⟩ | ⟨-, rest, rfl, hbelow⟩
  · exact hpaths p hpath
  · obtain ⟨place, content, t, -, hplace⟩ := hs.isFile_descend_iff.mp ⟨hbelow.file, hbelow.down⟩
    apply (hpaths path hpath).descend
    intro part hpart
    exact (hs.names hplace part (List.mem_append_right _ hpart)).1

theorem Sound.discover_increasing (hs : files.Sound) (cwd : Location) (excluded : List String)
    (hpaths : ∀ path ∈ paths, path.Proper) :
    (files.discover cwd excluded paths).Pairwise Path.Earlier := by
  have hproper : ∀ p ∈ files.discover cwd excluded paths, p.Proper := by
    intro p hp
    exact hs.proper_of_mem_discover hpaths hp
  refine strict_dropRepeats (fun p hp q hq => ?_) (sorted_mergeSort _)
  exact (hproper p (mem_dropRepeats.mpr hp)).eq_of_components (hproper q (mem_dropRepeats.mpr hq))

/-- The members say which list it is. -/
theorem Sound.eq_discover_iff (hs : files.Sound) (hpaths : ∀ path ∈ paths, path.Proper)
    {list : List Path} (hlist : list.Pairwise Path.Earlier) :
    list = files.discover cwd excluded paths ↔
      ∀ p, p ∈ list ↔ p ∈ files.discover cwd excluded paths := by
  constructor
  · rintro rfl p
    exact Iff.rfl
  · exact hlist.eq_of_mem_iff (hs.discover_increasing cwd excluded hpaths)

theorem SourceBelow.mono {more : List String} (h : files.SourceBelow cwd more root rest)
    (hsub : ∀ name ∈ excluded, name ∈ more) : files.SourceBelow cwd excluded root rest where
  down := h.down
  file := h.file
  source := h.source
  clear part hpart hname := by
    refine h.clear part hpart (List.mem_append.mpr ?_)
    exact (List.mem_append.mp hname).imp_right (hsub part)

/-- Fewer exclusions hide less. -/
theorem Sound.discover_mono (hs : files.Sound) {more : List String}
    (hsub : ∀ name ∈ excluded, name ∈ more) (h : p ∈ files.discover cwd more paths) :
    p ∈ files.discover cwd excluded paths := by
  obtain ⟨path, hpath, hp⟩ := mem_discover.mp h
  refine mem_discover.mpr ⟨path, hpath, hs.mem_sourcesAt_iff.mpr ?_⟩
  rcases hs.mem_sourcesAt_iff.mp hp with hnamed | ⟨hroot, rest, hrest, hbelow⟩
  · exact Or.inl hnamed
  · exact Or.inr ⟨hroot, rest, hrest, hbelow.mono hsub⟩

/-- Below a path that is no file only the way down matters. -/
theorem Sound.mem_discover_descend_iff (hs : files.Sound) (hroot : files.isFile cwd root = false) :
    root.descend rest ∈ files.discover cwd excluded [root] ↔
      files.SourceBelow cwd excluded root rest := by
  rw [mem_discover]
  simp only [List.mem_singleton, exists_eq_left, hs.mem_sourcesAt_iff, hroot, Bool.false_eq_true,
    false_and, and_false, false_or, true_and]
  constructor
  · rintro ⟨other, hother, hbelow⟩
    obtain rfl : rest = other := List.append_cancel_left (congrArg Path.parts hother)
    exact hbelow
  · intro hbelow
    exact ⟨rest, rfl, hbelow⟩

theorem SourceBelow.transfer {others : Files} {elsewhere : Location} {other : Path}
    (hroot : files.isFile cwd root = false)
    (hsame : files.isFile cwd (root.descend rest) = others.isFile elsewhere (other.descend rest))
    (h : files.SourceBelow cwd excluded root rest) :
    others.SourceBelow elsewhere excluded other rest where
  down := h.down
  file := hsame ▸ h.file
  source := by
    have hsource := h.source
    rw [Path.name_descend (h.ne_nil hroot)] at hsource ⊢
    exact hsource
  clear := h.clear

end Files

open Files in
/-- Discovery is exact. From paths that are read from any texts it gives a strictly increasing list;
a path is in it if it is a listed file with a dialect, or a file below a listed path that is none,
with the name of a source and no excluded directory on the way down. So the order and the repetition
of paths and exclusions do not matter, the list is the sorted union of those for the single paths,
more exclusions only shrink it, and what is found below a path depends on nothing but what is below
it. -/
theorem discovery_exact {files : Files} (hs : files.Sound) (cwd : Location) (excluded : List String)
    (texts : List String) :
    (files.discover cwd excluded (texts.map Path.ofString)).Pairwise Path.Earlier ∧
    (∀ p, p ∈ files.discover cwd excluded (texts.map Path.ofString) ↔
      (p ∈ texts.map Path.ofString ∧ files.isFile cwd p = true ∧ p.dialect?.isSome = true) ∨
      ∃ root ∈ texts.map Path.ofString, files.isFile cwd root = false ∧
        ∃ rest, p = root.descend rest ∧ files.SourceBelow cwd excluded root rest) ∧
    (∀ others more : List String,
      (∀ path, path ∈ texts.map Path.ofString ↔ path ∈ others.map Path.ofString) →
      (∀ name, name ∈ excluded ↔ name ∈ more) →
      files.discover cwd excluded (texts.map Path.ofString) =
        files.discover cwd more (others.map Path.ofString)) ∧
    (∀ list : List Path, list.Pairwise Path.Earlier →
      (list = files.discover cwd excluded (texts.map Path.ofString) ↔
        ∀ p, p ∈ list ↔ ∃ text ∈ texts, p ∈ files.discover cwd excluded [Path.ofString text])) ∧
    (∀ more, (∀ name ∈ excluded, name ∈ more) →
      (files.discover cwd more (texts.map Path.ofString)).Sublist
        (files.discover cwd excluded (texts.map Path.ofString))) ∧
    ∀ others : Files, others.Sound → ∀ elsewhere root other, files.isFile cwd root = false →
      others.isFile elsewhere other = false →
      (∀ rest, ".." ∉ rest →
        files.isFile cwd (root.descend rest) = others.isFile elsewhere (other.descend rest)) →
      ∀ rest, root.descend rest ∈ files.discover cwd excluded [root] ↔
        other.descend rest ∈ others.discover elsewhere excluded [other] := by
  have hproper : ∀ (list : List String), ∀ path ∈ list.map Path.ofString, path.Proper := by
    intro list path hpath
    obtain ⟨text, -, rfl⟩ := List.mem_map.mp hpath
    exact Path.proper_ofString text
  have hincreasing := hs.discover_increasing cwd excluded (hproper texts)
  refine ⟨hincreasing, fun p => ?_, fun others more hpaths hnames => ?_, fun list hlist => ?_,
    fun more hsub => ?_, fun others hothers elsewhere root other hroot hother hsame rest => ?_⟩
  · rw [mem_discover]
    simp only [hs.mem_sourcesAt_iff]
    constructor
    · rintro ⟨path, hpath, ⟨rfl, hnamed⟩ | hbelow⟩
      · exact Or.inl ⟨hpath, hnamed⟩
      · exact Or.inr ⟨path, hpath, hbelow⟩
    · rintro (⟨hpath, hnamed⟩ | ⟨path, hpath, hbelow⟩)
      · exact ⟨p, hpath, Or.inl ⟨rfl, hnamed⟩⟩
      · exact ⟨path, hpath, Or.inr hbelow⟩
  · refine (hs.eq_discover_iff (hproper others) hincreasing).mpr fun p => ?_
    have hlists : p ∈ files.discover cwd excluded (texts.map Path.ofString) ↔
        p ∈ files.discover cwd excluded (others.map Path.ofString) := by
      rw [mem_discover, mem_discover]
      simp only [hpaths]
    rw [hlists]
    constructor
    · exact hs.discover_mono fun name => (hnames name).mpr
    · exact hs.discover_mono fun name => (hnames name).mp
  · rw [hs.eq_discover_iff (hproper texts) hlist]
    simp [mem_discover]
  · have hfiltered : (files.discover cwd excluded (texts.map Path.ofString)).filter
        (· ∈ files.discover cwd more (texts.map Path.ofString)) =
          files.discover cwd more (texts.map Path.ofString) := by
      refine (hs.eq_discover_iff (hproper texts) (hincreasing.filter _)).mpr fun p => ?_
      simp only [List.mem_filter, decide_eq_true_eq, and_iff_right_iff_imp]
      exact hs.discover_mono hsub
    rw [← hfiltered]
    exact List.filter_sublist
  · rw [hs.mem_discover_descend_iff hroot, hothers.mem_discover_descend_iff hother]
    constructor
    · intro hbelow
      exact hbelow.transfer hroot (hsame rest hbelow.down)
    · intro hbelow
      exact hbelow.transfer hother (hsame rest hbelow.down).symm

/-- A source in a directory below an excluded one. -/
def vendored : Files :=
  ((Files.empty 0).write [] ⟨"/", ["vendor", "lib", "a.js"]⟩ "useMutation()".toUTF8 ⟨0⟩).2

theorem vendored_sound : vendored.Sound :=
  (Files.write_grows [] (Files.sound_empty 0) ⟨Or.inl rfl, by decide⟩ _ _).sound
    (Files.sound_empty 0)

theorem vendored_source_found_from_inside : vendored.Sound ∧
    (⟨"/", ["vendor", "lib", "a.js"]⟩ : Path) ∈
      vendored.discover [] [] (["/vendor/lib"].map Path.ofString) ∧
    (⟨"/", ["vendor", "lib", "a.js"]⟩ : Path) ∉ vendored.discover [] [] (["/"].map Path.ofString) ∧
    vendored.discover [] ["lib", "x", "lib"] (["/vendor", "/vendor/lib"].map Path.ofString) =
      vendored.discover [] ["x", "lib"]
        (["/vendor/lib", "/vendor", "/vendor//lib"].map Path.ofString) := by
  have hinside : ["/vendor/lib"].map Path.ofString = [⟨"/", ["vendor", "lib"]⟩] := by decide +kernel
  have hroot : ["/"].map Path.ofString = [⟨"/", []⟩] := by decide +kernel
  obtain ⟨-, hfound, -⟩ := discovery_exact vendored_sound [] [] ["/vendor/lib"]
  obtain ⟨-, hhidden, -⟩ := discovery_exact vendored_sound [] [] ["/"]
  obtain ⟨-, -, hsame, -⟩ :=
    discovery_exact vendored_sound [] ["lib", "x", "lib"] ["/vendor", "/vendor/lib"]
  refine ⟨vendored_sound, (hfound _).mpr (Or.inr ?_), fun hmem => ?_, hsame _ _ ?_ ?_⟩
  · rw [hinside]
    exact ⟨_, List.mem_singleton.mpr rfl, by decide +kernel, ["a.js"], rfl,
      ⟨by decide, by decide +kernel, ⟨".js", by decide, by decide⟩, by decide⟩⟩
  · rw [hhidden, hroot] at hmem
    rcases hmem with ⟨hlisted, -⟩ | ⟨root, hlisted, -, rest, hrest, hbelow⟩
    · exact absurd hlisted (by decide)
    · obtain rfl := List.mem_singleton.mp hlisted
      obtain rfl : ["vendor", "lib", "a.js"] = rest := congrArg Path.parts hrest
      exact hbelow.clear "vendor" (by decide) (by decide)
  · have hfirst : ["/vendor", "/vendor/lib"].map Path.ofString =
        [⟨"/", ["vendor"]⟩, ⟨"/", ["vendor", "lib"]⟩] := by decide +kernel
    have hsecond : ["/vendor/lib", "/vendor", "/vendor//lib"].map Path.ofString =
        [⟨"/", ["vendor", "lib"]⟩, ⟨"/", ["vendor"]⟩, ⟨"/", ["vendor", "lib"]⟩] := by decide +kernel
    intro path
    rw [hfirst, hsecond]
    simp only [List.mem_cons, List.not_mem_nil, or_false]
    tauto
  · intro name
    simp only [List.mem_cons, List.not_mem_nil, or_false]
    tauto

end StaleQuery
