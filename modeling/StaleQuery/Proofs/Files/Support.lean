import StaleQuery.Proofs.Cache.Commands

/-!
# Which names count as sources

Two tests decide what is checked: a file that is named must have a suffix of some dialect in any
case, and a file that is found must have a name that ends in one letter for letter. The suffix of a
name is its end from the last dot on, but a name that is all extension has no suffix. So the tests
differ on two kinds of names, and only on these.
-/
namespace StaleQuery

/-- The suffixes of all dialects. -/
def Source.extensions : List String :=
  dialects.map Prod.fst

theorem Source.extension_shape : ∀ extension ∈ extensions,
    extension.toList.head? = some '.' ∧ extension.toList.tail ≠ [] ∧
      '.' ∉ extension.toList.tail := by
  decide

theorem Source.lower_extension : ∀ extension ∈ extensions, Text.lower extension = extension := by
  decide +kernel

namespace Path

/-- The path that leads further down. -/
def descend (p : Path) (rest : List String) : Path :=
  ⟨p.anchor, p.parts ++ rest⟩

/-- A name that is nothing but an extension. -/
def IsAllExtension (p : Path) : Prop :=
  p.name ∈ Source.extensions

/-- A name whose suffix becomes an extension in lower case only. -/
def IsRecased (p : Path) : Prop :=
  Text.lower p.suffix ∈ Source.extensions ∧ p.suffix ∉ Source.extensions

instance (p : Path) : Decidable p.IsAllExtension :=
  inferInstanceAs (Decidable (_ ∈ _))

instance (p : Path) : Decidable p.IsRecased :=
  inferInstanceAs (Decidable (_ ∧ _))

theorem suffixOf_isSuffix (name : List Char) : suffixOf name <:+ name := by
  unfold suffixOf
  dsimp only
  split
  · exact List.nil_suffix
  · rename_i hlong
    obtain ⟨-, hlength⟩ := not_or.mp hlong
    -- what stops the search from the end is a dot, since it stops before the name does
    have hcut : name.reverse.takeWhile (fun c => decide (c ≠ '.')) ++
        name.reverse.dropWhile (fun c => decide (c ≠ '.')) = name.reverse :=
      List.takeWhile_append_dropWhile
    generalize hhead : name.reverse.dropWhile (fun c => decide (c ≠ '.')) = front at hcut
    cases front with
    | nil =>
      have hwhole := congrArg List.length hcut
      simp only [List.append_nil, List.length_reverse] at hwhole
      omega
    | cons c front =>
      have hdot : c = '.' := by
        have hstop := List.head?_dropWhile_not (fun c => decide (c ≠ '.')) name.reverse
        rw [hhead] at hstop
        simpa using hstop
      subst hdot
      have hback := congrArg List.reverse hcut
      exact ⟨front.reverse, by simpa using hback⟩

theorem length_suffixOf_lt {name : List Char} (h : suffixOf name ≠ []) :
    (suffixOf name).length < name.length := by
  unfold suffixOf at h ⊢
  dsimp only at h ⊢
  split at h
  · exact absurd rfl h
  · rename_i hlong
    obtain ⟨-, hlength⟩ := not_or.mp hlong
    rw [if_neg hlong, List.length_cons, List.length_reverse]
    omega

theorem suffixOf_append {front tail : List Char} (hfront : front ≠ []) (htail : tail ≠ [])
    (hdot : '.' ∉ tail) : suffixOf (front ++ '.' :: tail) = '.' :: tail := by
  have htake : (front ++ '.' :: tail).reverse.takeWhile (· ≠ '.') = tail.reverse := by
    rw [List.reverse_append, List.reverse_cons, List.append_assoc, List.singleton_append,
      List.takeWhile_append_of_pos]
    · simp
    · intro c hc
      have hne : c ≠ '.' := by
        rintro rfl
        exact hdot (List.mem_reverse.mp hc)
      simpa using hne
  have hlength := List.length_pos_of_ne_nil hfront
  unfold suffixOf
  dsimp only
  rw [htake, if_neg, List.reverse_reverse]
  simp [htail]
  omega

variable {p : Path}

theorem name_descend {rest : List String} (h : rest ≠ []) :
    (p.descend rest).name = rest.getLast?.getD "" := by
  rw [name, descend, List.getLast?_append_of_ne_nil _ h]

theorem suffix_eq_iff {extension : String} (h : extension ∈ Source.extensions) :
    p.suffix = extension ↔ p.name ≠ extension ∧ extension.toList <:+ p.name.toList := by
  obtain ⟨hhead, hne, hdot⟩ := Source.extension_shape extension h
  obtain ⟨tail, htext⟩ : ∃ tail, extension.toList = '.' :: tail := by
    cases htext : extension.toList <;> simp_all
  rw [htext, List.tail_cons] at hne hdot
  have hspelled : p.suffix = extension ↔ suffixOf p.name.toList = '.' :: tail := by
    rw [suffix, ← htext, ← String.toList_inj, String.toList_ofList]
  have hname : p.name = extension ↔ p.name.toList = '.' :: tail := by
    rw [← htext, String.toList_inj]
  rw [hspelled, ne_eq, hname, htext]
  constructor
  · intro hsuffix
    refine ⟨fun hall => ?_, hsuffix ▸ suffixOf_isSuffix _⟩
    have hshort := length_suffixOf_lt (hsuffix ▸ List.cons_ne_nil _ _)
    rw [hsuffix, hall] at hshort
    exact Nat.lt_irrefl _ hshort
  · rintro ⟨hmore, front, hfront⟩
    rw [← hfront]
    refine suffixOf_append ?_ hne hdot
    rintro rfl
    exact hmore hfront.symm

theorem suffix_of_isAllExtension (h : p.IsAllExtension) : p.suffix = "" := by
  have hall : ∀ extension ∈ Source.extensions, suffixOf extension.toList = [] := by decide
  rw [suffix, hall p.name h]

theorem isSome_dialect? : p.dialect?.isSome = true ↔ Text.lower p.suffix ∈ Source.extensions := by
  simp only [dialect?, Option.isSome_map, List.find?_isSome, beq_iff_eq, Source.extensions,
    List.mem_map]

theorem dialect?_of_isAllExtension (h : p.IsAllExtension) : p.dialect? = none := by
  rw [← Option.not_isSome_iff_eq_none, isSome_dialect?, suffix_of_isAllExtension h]
  decide +kernel

theorem isSome_of_suffix (h : p.suffix ∈ Source.extensions) : p.dialect?.isSome = true := by
  rw [isSome_dialect?, Source.lower_extension _ h]
  exact h

end Path

namespace Files

open StaleQuery.Path

/-- A name ends as a source if it is all extension, or if its suffix is one as it stands. -/
theorem endsAsSource_name {p : Path} :
    endsAsSource p.name = true ↔ p.IsAllExtension ∨ p.suffix ∈ Source.extensions := by
  have hends : endsAsSource p.name = true ↔
      ∃ extension ∈ Source.extensions, extension.toList <:+ p.name.toList := by
    simp [endsAsSource, Source.extensions]
  rw [hends]
  constructor
  · rintro ⟨extension, hmem, hsuffix⟩
    by_cases hall : p.name = extension
    · exact Or.inl (show p.name ∈ _ from hall ▸ hmem)
    · have hspelled := (suffix_eq_iff hmem).mpr ⟨hall, hsuffix⟩
      exact Or.inr (hspelled ▸ hmem)
  · rintro (hall | hsuffix)
    · exact ⟨p.name, hall, List.suffix_refl _⟩
    · exact ⟨p.suffix, hsuffix, ((suffix_eq_iff hsuffix).mp rfl).2⟩

/-- The tests agree on a name unless it is all extension or spelled in another case. -/
theorem tests_agree_iff {p : Path} :
    (endsAsSource p.name = true ↔ p.dialect?.isSome = true) ↔
      ¬ p.IsAllExtension ∧ ¬ p.IsRecased := by
  rw [endsAsSource_name, isSome_dialect?, IsRecased]
  by_cases hall : p.IsAllExtension
  · have hnone := dialect?_of_isAllExtension hall
    rw [← Option.not_isSome_iff_eq_none, isSome_dialect?] at hnone
    exact ⟨fun h => absurd (h.mp (Or.inl hall)) hnone, fun h => absurd hall h.1⟩
  · have hlower : p.suffix ∈ Source.extensions → Text.lower p.suffix ∈ Source.extensions :=
      fun h => isSome_dialect?.mp (isSome_of_suffix h)
    rw [or_iff_right hall, and_iff_right hall, not_and_not_right]
    exact ⟨fun h => h.mpr, fun h => ⟨hlower, h⟩⟩

variable {files : Files} {cwd : Location} {excluded : List String}

theorem mem_dropRepeats {list : List Path} {p : Path} : p ∈ dropRepeats list ↔ p ∈ list := by
  refine ⟨mem_of_mem_dropRepeats, fun h => ?_⟩
  fun_induction dropRepeats list with
  | case1 => exact h
  | case2 => exact h
  | case3 q rest ih =>
    rcases List.mem_cons.mp h with rfl | h
    · exact ih List.mem_cons_self
    · exact ih h
  | case4 p' q rest _ ih =>
    rcases List.mem_cons.mp h with rfl | h
    · exact List.mem_cons_self
    · exact List.mem_cons_of_mem _ (ih h)

theorem mem_discover {paths : List Path} {p : Path} : p ∈ files.discover cwd excluded paths ↔
    ∃ path ∈ paths, p ∈ files.sourcesAt cwd (defaultExcluded ++ excluded) path := by
  rw [discover, mem_dropRepeats, List.mem_mergeSort, List.mem_flatMap]

theorem mem_sourcesBelow_of_file {place : Location} {rest : List String} {content : Content}
    {t : Time} (hfile : files.get? (place ++ rest) = some (.file content t)) (hne : rest ≠ [])
    (hadmits : admits excluded rest = true) : rest ∈ files.sourcesBelow excluded place := by
  have hbelow : below? place (place ++ rest) = some rest := by
    simp [below?, List.length_pos_of_ne_nil hne]
  refine List.mem_filterMap.mpr ⟨_, Ledger.mem_of_get? hfile, ?_⟩
  simp [hbelow, Entry.isDirectory, hadmits]

theorem walk_down {place target : Location} {names : List String} (h : ".." ∉ names)
    (hwalk : files.walk place names = .ok target) : target = place ++ names := by
  rw [← walk_eq_resolveParts hwalk]
  clear hwalk
  induction names generalizing place with
  | nil => simp [resolveParts]
  | cons name rest ih =>
    obtain ⟨hname, hrest⟩ := not_or.mp (mt List.mem_cons.mpr h)
    rw [resolveParts, if_neg (Ne.symm hname), ih hrest, List.append_assoc, List.singleton_append]

theorem entry_of_isFile {path : Path} (h : files.isFile cwd path = true) :
    ∃ content t, files.entry cwd path = .ok (.file content t) := by
  unfold isFile at h
  split at h
  · rename_i e hentry
    rcases e with ⟨t⟩ | ⟨content, t⟩
    · cases h
    · exact ⟨content, t, hentry⟩
  · cases h

theorem entry_of_isDirectory {path : Path} (h : files.isDirectory cwd path = true) :
    ∃ t, files.entry cwd path = .ok (.directory t) := by
  unfold isDirectory at h
  split at h
  · rename_i e hentry
    rcases e with ⟨t⟩ | ⟨content, t⟩
    · exact ⟨t, hentry⟩
    · cases h
  · cases h

theorem isFile_eq_false {path : Path} (h : files.isDirectory cwd path = true) :
    files.isFile cwd path = false := by
  obtain ⟨t, hentry⟩ := entry_of_isDirectory h
  simp [isFile, hentry, Entry.isDirectory]

/-- A file that is named is taken by its suffix. -/
theorem mem_discover_self {f : Path} (hfile : files.isFile cwd f = true) :
    f ∈ files.discover cwd excluded [f] ↔ f.dialect?.isSome = true := by
  simp only [mem_discover, List.mem_singleton, exists_eq_left, sourcesAt, hfile, if_true]
  split
  · rename_i hdialect
    simp [hdialect]
  · rename_i hdialect
    simp [hdialect]

section

variable {root : Path} {rest : List String}

theorem place_of_file_below (hroot : files.isDirectory cwd root = true) (hdown : ".." ∉ rest)
    (hfile : files.isFile cwd (root.descend rest) = true) :
    ∃ place content t, files.locate cwd root = .ok place ∧ rest ≠ [] ∧
      files.get? (place ++ rest) = some (.file content t) := by
  obtain ⟨t, hentry⟩ := entry_of_isDirectory hroot
  obtain ⟨place, hlocate, hplace⟩ := locate_of_entry hentry
  obtain ⟨content, s, hentry⟩ := entry_of_isFile hfile
  obtain ⟨target, htarget, hcontent⟩ := locate_of_entry hentry
  have hwalk : files.walk place rest = .ok target := by
    have hsplit : files.locate cwd (root.descend rest) =
        (files.locate cwd root).bind fun middle => files.walk middle rest :=
      walk_append files _ root.parts rest
    rw [hsplit, hlocate] at htarget
    exact htarget
  obtain rfl := walk_down hdown hwalk
  refine ⟨place, content, s, hlocate, ?_, hcontent⟩
  rintro rfl
  rw [List.append_nil, hplace] at hcontent
  cases hcontent

/-- A file below a directory is taken by the end of its name. -/
theorem mem_discover_root (hroot : files.isDirectory cwd root = true) (hdown : ".." ∉ rest)
    (hfile : files.isFile cwd (root.descend rest) = true)
    (hopen : ∀ part ∈ rest.dropLast, part ∉ defaultExcluded ++ excluded) :
    root.descend rest ∈ files.discover cwd excluded [root] ↔
      endsAsSource (root.descend rest).name = true := by
  obtain ⟨place, content, t, hlocate, hne, hcontent⟩ := place_of_file_below hroot hdown hfile
  rw [mem_discover, name_descend hne]
  simp only [List.mem_singleton, exists_eq_left, sourcesAt, isFile_eq_false hroot, hlocate,
    Bool.false_eq_true, if_false, List.mem_map]
  constructor
  · rintro ⟨other, hother, hsame⟩
    obtain rfl : other = rest := List.append_cancel_left (congrArg Path.parts hsame)
    obtain ⟨_, _, -, -, hends⟩ := mem_sourcesBelow hother
    exact hends
  · intro hends
    refine ⟨rest, mem_sourcesBelow_of_file hcontent hne ?_, rfl⟩
    simpa [admits, hends] using hopen

end

/-- What is found has a dialect, or a name that is all extension. -/
theorem dialect?_of_mem_discover {paths : List Path} {p : Path}
    (h : p ∈ files.discover cwd excluded paths) : p.dialect? = none ↔ p.IsAllExtension := by
  refine ⟨fun hnone => ?_, dialect?_of_isAllExtension⟩
  have hnone : ¬ p.dialect?.isSome = true := by simp [hnone]
  obtain ⟨path, -, hp⟩ := mem_discover.mp h
  unfold sourcesAt at hp
  split at hp
  · split at hp
    · rename_i hdialect
      obtain rfl := List.mem_singleton.mp hp
      exact absurd hdialect hnone
    · cases hp
  · split at hp
    · cases hp
    · obtain ⟨rest, hrest, rfl⟩ := List.mem_map.mp hp
      obtain ⟨_, _, -, hne, hends⟩ := mem_sourcesBelow hrest
      rw [← name_descend (p := path) hne, endsAsSource_name] at hends
      exact hends.resolve_right fun hsuffix => hnone (isSome_of_suffix hsuffix)

end Files

open Files in
/-- A file below a directory that no excluded name hides is found there if and only if it is taken
when named, except in two cases. A name that is all extension is found but not taken, and it is the
only kind of name that is found without having a dialect: such a file is never reported on. A name
whose suffix is in another case is taken but not found. -/
theorem walk_and_argument_agree_iff {files : Files} {cwd : Location} {root : Path}
    {rest : List String} (excluded : List String) (hroot : files.isDirectory cwd root = true)
    (hdown : ".." ∉ rest) (hfile : files.isFile cwd (root.descend rest) = true)
    (hopen : ∀ part ∈ rest.dropLast, part ∉ defaultExcluded ++ excluded) :
    ((root.descend rest ∈ files.discover cwd excluded [root] ↔
        root.descend rest ∈ files.discover cwd excluded [root.descend rest]) ↔
      ¬ (root.descend rest).IsAllExtension ∧ ¬ (root.descend rest).IsRecased) ∧
    ((root.descend rest).IsAllExtension →
      root.descend rest ∈ files.discover cwd excluded [root]) ∧
    ((root.descend rest).IsRecased →
      root.descend rest ∈ files.discover cwd excluded [root.descend rest]) ∧
    ∀ paths, ∀ p ∈ files.discover cwd excluded paths, (p.dialect? = none ↔ p.IsAllExtension) ∧
      (p.dialect? = none → ∀ version readable,
        ({ files, cwd, version } : Workspace).lintFile readable p = []) := by
  rw [mem_discover_root hroot hdown hfile hopen, mem_discover_self hfile]
  refine ⟨tests_agree_iff, fun hall => endsAsSource_name.mpr (Or.inl hall),
    fun hrecased => Path.isSome_dialect?.mpr hrecased.1, fun paths p hp => ?_⟩
  refine ⟨dialect?_of_mem_discover hp, fun hnone version readable => ?_⟩
  unfold Workspace.lintFile
  rw [hnone]

/-- A directory with a name of each kind. -/
def threeNames : Files where
  entries := [([], .directory default), (["d"], .directory default),
    (["d", "b.js"], .file (.bytes .empty) default), (["d", "A.JS"], .file (.bytes .empty) default),
    (["d", ".js"], .file (.bytes .empty) default)]
  clock := 0

theorem plain_name_agrees :
    (⟨"/", ["d", "b.js"]⟩ : Path) ∈ threeNames.discover [] [] [⟨"/", ["d"]⟩] ∧
    ((⟨"/", ["d", "b.js"]⟩ : Path) ∈ threeNames.discover [] [] [⟨"/", ["d"]⟩] ↔
      (⟨"/", ["d", "b.js"]⟩ : Path) ∈ threeNames.discover [] [] [⟨"/", ["d", "b.js"]⟩]) := by
  have h := @walk_and_argument_agree_iff threeNames [] ⟨"/", ["d"]⟩ ["b.js"] [] (by decide)
    (by decide) (by decide) (by decide)
  refine ⟨?_, h.1.mpr (by decide +kernel)⟩
  rw [Files.mem_discover]
  decide +kernel

/-- Neither direction holds of every name, and what is found may have no dialect. -/
theorem recased_and_bare_names_disagree :
    threeNames.isDirectory [] ⟨"/", ["d"]⟩ = true ∧
    threeNames.isFile [] ⟨"/", ["d", "A.JS"]⟩ = true ∧
    threeNames.isFile [] ⟨"/", ["d", ".js"]⟩ = true ∧
    (⟨"/", ["d", "A.JS"]⟩ : Path) ∉ threeNames.discover [] [] [⟨"/", ["d"]⟩] ∧
    (⟨"/", ["d", "A.JS"]⟩ : Path) ∈ threeNames.discover [] [] [⟨"/", ["d", "A.JS"]⟩] ∧
    (⟨"/", ["d", ".js"]⟩ : Path) ∈ threeNames.discover [] [] [⟨"/", ["d"]⟩] ∧
    (⟨"/", ["d", ".js"]⟩ : Path) ∉ threeNames.discover [] [] [⟨"/", ["d", ".js"]⟩] ∧
    (⟨"/", ["d", ".js"]⟩ : Path).dialect? = none := by
  simp only [Files.mem_discover]
  decide +kernel

end StaleQuery
