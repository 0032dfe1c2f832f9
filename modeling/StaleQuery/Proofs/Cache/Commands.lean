import StaleQuery.Command.Run
import StaleQuery.Proofs.Cache.Lookup

/-!
# Commands with a cache

Opening a cache makes directories and at most one empty cache, and the files that a command finds to
check are not among them. So a command does the same with a cache as without one, once the cache is
open.
-/
namespace StaleQuery

namespace Files

variable {files : Files} {cwd : Location} {path : Path}

/-! Finding files -/

theorem mem_of_mem_dropRepeats {list : List Path} {p : Path} (h : p ∈ dropRepeats list) :
    p ∈ list := by
  fun_induction dropRepeats list with
  | case1 => exact h
  | case2 => exact h
  | case3 q rest ih => exact List.mem_cons_of_mem _ (ih h)
  | case4 p' q rest _ ih =>
    rcases List.mem_cons.mp h with rfl | h
    · exact List.mem_cons_self
    · exact List.mem_cons_of_mem _ (ih h)

theorem endsAsSource_fileName : endsAsSource Cache.fileName = false := by decide

theorem dialect?_of_fileName (h : path.name = Cache.fileName) : path.dialect? = none := by
  rw [Path.dialect?, Path.suffix, h]
  decide +kernel

theorem dialect?_of_parent (h : path.name = "..") : path.dialect? = none := by
  rw [Path.dialect?, Path.suffix, h]
  decide +kernel

/-- What leads to a cache has the name of one, or goes up at the end; neither is checked. -/
theorem dialect?_of_cache {cache : Location} (hpath : path.Rooted)
    (hlocate : files.locate cwd path = .ok cache)
    (hcache : cache.getLast? = some Cache.fileName) : path.dialect? = none := by
  rw [locate_of_rooted hpath] at hlocate
  rcases List.eq_nil_or_concat' path.parts with hnil | ⟨names, name, hparts⟩
  · rw [hnil] at hlocate
    obtain rfl := Except.ok.inj hlocate
    cases hcache
  · have hname : path.name = name := by simp [Path.name, hparts]
    rw [hparts] at hlocate
    obtain ⟨middle, t, -, -, rfl⟩ := walk_concat hlocate
    by_cases hup : name = ".."
    · exact dialect?_of_parent (hname.trans hup)
    · rw [if_neg hup, List.getLast?_concat] at hcache
      exact dialect?_of_fileName (hname.trans (Option.some.inj hcache))

theorem locate_of_entry {e : Entry} (h : files.entry cwd path = .ok e) :
    ∃ place, files.locate cwd path = .ok place ∧ files.get? place = some e := by
  cases hlocate : files.locate cwd path with
  | error fault => simp [entry, hlocate, bind, Except.bind] at h
  | ok place =>
    simp only [entry, hlocate, bind, Except.bind] at h
    split at h
    · exact ⟨place, rfl, by rw [‹files.get? place = _›, Except.ok.inj h]⟩
    · cases h

/-- An absolute path leads to one place in all trees. -/
theorem place_of_entries {others : Files} {elsewhere : Location} (hpath : path.Rooted) {e f : Entry}
    (he : files.entry cwd path = .ok e) (hf : others.entry elsewhere path = .ok f) :
    ∃ place, files.get? place = some e ∧ others.get? place = some f := by
  obtain ⟨place, hlocate, hplace⟩ := locate_of_entry he
  obtain ⟨other, hlocate', hother⟩ := locate_of_entry hf
  have hsame : other = place := by
    rw [locate_eq_resolve hlocate, locate_eq_resolve hlocate', resolve_of_rooted hpath,
      resolve_of_rooted hpath]
  exact ⟨place, hplace, hsame ▸ hother⟩

theorem below?_eq_some {place other : Location} {rest : List String}
    (h : below? place other = some rest) : other = place ++ rest ∧ rest ≠ [] := by
  unfold below? at h
  split at h
  · rename_i hbelow
    obtain ⟨hstart, hlength⟩ : place <+: other ∧ place.length < other.length := by
      simpa using hbelow
    obtain ⟨tail, rfl⟩ := hstart
    obtain rfl : tail = rest := by simpa using h
    refine ⟨rfl, ?_⟩
    rintro rfl
    simp at hlength
  · cases h

theorem mem_sourcesBelow {excluded : List String} {place : Location} {rest : List String}
    (h : rest ∈ files.sourcesBelow excluded place) :
    ∃ content t, (place ++ rest, .file content t) ∈ files.entries ∧ rest ≠ [] ∧
      endsAsSource (rest.getLast?.getD "") = true := by
  obtain ⟨⟨other, e⟩, hmem, hrest⟩ := List.mem_filterMap.mp h
  dsimp only at hrest
  split at hrest
  · rename_i found hbelow
    obtain ⟨rfl, hne⟩ := below?_eq_some hbelow
    split at hrest
    · rename_i hadmits
      obtain rfl := Option.some.inj hrest
      rcases e with ⟨t⟩ | ⟨content, t⟩
      · simp [Entry.isDirectory] at hadmits
      · have hends : admits excluded found = true := by simpa [Entry.isDirectory] using hadmits
        exact ⟨content, t, hmem, hne, (Bool.and_eq_true_iff.mp hends).1⟩
    · cases hrest
  · cases hrest

theorem regular_of_isFile (hpath : path.Rooted) (hfile : files.isFile cwd path = true)
    (hdialect : path.dialect?.isSome = true) : files.Regular cwd path := by
  unfold isFile at hfile
  split at hfile
  · rename_i e hentry
    obtain ⟨place, hlocate, hplace⟩ := locate_of_entry hentry
    rcases e with ⟨t⟩ | ⟨content, t⟩
    · cases hfile
    · refine ⟨place, content, t, hlocate, hplace, fun hcache => ?_⟩
      simp [dialect?_of_cache hpath hlocate hcache] at hdialect
  · cases hfile

theorem Sound.regular_of_mem_sourcesBelow (hs : files.Sound) (hpath : path.Rooted)
    {excluded : List String} {place : Location} {rest : List String}
    (hlocate : files.locate cwd path = .ok place) (h : rest ∈ files.sourcesBelow excluded place) :
    Path.Rooted ⟨path.anchor, path.parts ++ rest⟩ ∧
      files.Regular cwd ⟨path.anchor, path.parts ++ rest⟩ := by
  obtain ⟨content, t, hmem, hne, hends⟩ := mem_sourcesBelow h
  have hplace : files.get? (place ++ rest) = some (.file content t) := Ledger.get?_of_mem hs.once hmem
  have hrooted : Path.Rooted ⟨path.anchor, path.parts ++ rest⟩ :=
    hpath.append fun part hpart => (hs.names hplace part (List.mem_append_right _ hpart)).1
  refine ⟨hrooted, place ++ rest, content, t, ?_, hplace, ?_⟩
  · rw [locate_of_rooted hpath] at hlocate
    rw [locate_of_rooted hrooted, walk_append, hlocate]
    exact hs.walk hplace
  · obtain ⟨names, name, rfl⟩ := (List.eq_nil_or_concat' rest).resolve_left hne
    rw [← List.append_assoc, List.getLast?_concat]
    intro hcache
    rw [List.getLast?_concat, Option.some.inj hcache, Option.getD_some, endsAsSource_fileName] at hends
    cases hends

theorem Sound.regular_of_mem_discover (hs : files.Sound) {excluded : List String} {paths : List Path}
    (hpaths : ∀ path ∈ paths, path.Rooted) {p : Path} (h : p ∈ files.discover cwd excluded paths) :
    p.Rooted ∧ files.Regular cwd p := by
  have hfound := mem_of_mem_dropRepeats h
  rw [List.mem_mergeSort, List.mem_flatMap] at hfound
  obtain ⟨path, hpath, hp⟩ := hfound
  unfold sourcesAt at hp
  split at hp
  · rename_i hfile
    split at hp
    · obtain rfl := List.mem_singleton.mp hp
      exact ⟨hpaths p hpath, regular_of_isFile (hpaths p hpath) hfile ‹_›⟩
    · cases hp
  · split at hp
    · cases hp
    · rename_i place hlocate
      obtain ⟨rest, hrest, rfl⟩ := List.mem_map.mp hp
      exact hs.regular_of_mem_sourcesBelow (hpaths path hpath) hlocate hrest

/-! Opening a cache -/

variable {Known : String → Row → Prop} {place : Location}

theorem openRows_grows (Known : String → Row → Prop) (hs : files.Sound) (hpath : path.Rooted)
    (hname : place.getLast? = some Cache.fileName) {grown : Files}
    (hlocate : files.locate cwd path = .ok place) (h : files.openRows place = .ok grown) :
    Grows (CacheWork Known) files grown ∧
      ∃ rows t, grown.get? place = some (.file (.store rows) t) := by
  have hnew : ∀ t, CacheWork Known place (.file (.store []) t) := fun t =>
    Or.inr (.mk hname fun _ _ hrow => by cases hrow)
  have hne : place ≠ [] := by
    rintro rfl
    cases hname
  unfold openRows at h
  split at h
  · cases h
  · rename_i rows t hplace
    obtain rfl := Except.ok.inj h
    exact ⟨.refl, rows, t, hplace⟩
  · rename_i data t hplace
    split at h
    · obtain rfl := Except.ok.inj h
      exact ⟨.replace .refl hplace (hnew _), [], _, get?_put_self hne⟩
    · cases h
  · rename_i hfree
    obtain rfl := Except.ok.inj h
    obtain ⟨above, name, t, rfl, habove, hgood⟩ := hs.above_of_free hpath hlocate hfree
    exact ⟨.create .refl habove hgood hfree (hnew _), [], _, get?_put_self hne⟩

/-- Opening a cache is work with caches, and what is opened is one. -/
theorem openCache_spec (Known : String → Row → Prop) (cwd : Location) (hs : files.Sound)
    (hpath : path.Rooted) :
    Grows (CacheWork Known) files (files.openCache cwd path).2 ∧
      ∀ place, (files.openCache cwd path).1 = .ok place →
        ∃ rows t, (files.openCache cwd path).2.get? place = some (.file (.store rows) t) := by
  have hmade := makeDirectories_grows cwd hs hpath
  have hwork : Grows (CacheWork Known) files (files.makeDirectories cwd path).2 :=
    hmade.mono fun _ _ => Or.inl
  unfold openCache
  split
  · rename_i made hmake
    rw [hmake] at hwork
    exact ⟨hwork, fun _ h => by cases h⟩
  · rename_i made hmake
    rw [hmake] at hwork hmade
    have hfile : Path.Rooted (path.join ⟨"", [Cache.fileName]⟩) := by
      rw [Path.join, if_neg (by decide)]
      exact hpath.append fun part hpart => by
        obtain rfl := List.mem_singleton.mp hpart
        decide
    split
    · exact ⟨hwork, fun _ h => by cases h⟩
    · rename_i place hlocate
      have hname : place.getLast? = some Cache.fileName := by
        rw [locate_of_rooted hfile, Path.join, if_neg (by decide)] at hlocate
        obtain ⟨middle, t, -, -, rfl⟩ := walk_concat hlocate
        rw [if_neg (by decide), List.getLast?_concat]
      split
      · rename_i ready hready
        obtain ⟨hopened, hstore⟩ := openRows_grows Known (hmade.sound hs) hfile hname hlocate
          hready
        refine ⟨hwork.trans hopened, fun other hother => ?_⟩
        obtain rfl := Except.ok.inj hother
        exact hstore
      · exact ⟨hwork, fun _ h => by cases h⟩

theorem isName_of_mem_resolveParts {parts : List String}
    (hplace : ∀ name ∈ place, Path.IsName name) (hparts : ∀ part ∈ parts, Path.IsPart part) :
    ∀ name ∈ resolveParts place parts, Path.IsName name := by
  induction parts generalizing place with
  | nil => exact hplace
  | cons part rest ih =>
    refine ih (fun name hname => ?_) fun p hp => hparts p (List.mem_cons_of_mem _ hp)
    split at hname
    · exact hplace name (List.dropLast_subset _ hname)
    · rename_i hdown
      rcases List.mem_append.mp hname with hname | hname
      · exact hplace name hname
      · obtain rfl := List.mem_singleton.mp hname
        exact ⟨hparts _ List.mem_cons_self, hdown⟩

end Files

/-- A workspace in which caches can be trusted: its tree is sound, and every known row that is looked
up for a path is right. -/
structure Workspace.Ready (Known : String → Row → Prop) (w : Workspace) : Prop where
  sound : w.files.Sound
  holds : w.files.Holds Known
  cwd : ∀ name ∈ w.cwd, Path.IsName name
  trusts : ∀ {path : Path}, path.Rooted → ∀ {e}, w.files.entry w.cwd path = .ok e →
    Trusts Known w.tools w.version path e

namespace Workspace

variable {Known : String → Row → Prop} {w : Workspace} {place : Location}

/-- Everything that is found is checked through a cache as it is without. -/
theorem Ready.lintAll_discover (h : w.Ready Known) (excluded : List String) {paths : List Path}
    (hpaths : ∀ path ∈ paths, path.Rooted) {files : Files}
    (hgrows : Files.Grows (CacheWork Known) w.files files) {rows : Store} {t : Time}
    (hplace : files.get? place = some (.file (.store rows) t)) :
    ∃ grown, ({ w with files } : Workspace).lintAll (some (.live place)) (w.discover excluded paths) =
        (.ok (w.reports (w.discover excluded paths)), { w with files := grown }) ∧
      Files.Grows (CacheWork Known) w.files grown := by
  refine lintAll_spec h.sound h.holds (fun p hp => ?_) (fun p hp e he => ?_) hgrows hplace
  · exact (h.sound.regular_of_mem_discover hpaths hp).2
  · exact h.trusts (h.sound.regular_of_mem_discover hpaths hp).1 he

end Workspace

namespace Command

variable {Known : String → Row → Prop} {session : Session} {w : Workspace}
  {environment : Environment}

theorem rooted_resolve (hcwd : ∀ name ∈ w.cwd, Path.IsName name) (text : String) :
    (resolve w text).Rooted where
  anchor := Or.inl rfl
  parts := by
    have hnames : ∀ name ∈ Files.resolve w.cwd (Path.ofString text), Path.IsName name := by
      refine Files.isName_of_mem_resolveParts (fun name hname => ?_) fun _ =>
        Path.isPart_of_mem_ofString
      split at hname
      · cases hname
      · exact hcwd name hname
    exact fun part hpart => (hnames part hpart).1

theorem rooted_cacheRoot {target : Path} (h : target.Rooted) : (cacheRoot w target).Rooted := by
  unfold cacheRoot
  split
  · exact h
  · exact h.parent

def targets (w : Workspace) (options : LintOptions) : List Path :=
  (if options.paths.isEmpty then ["."] else options.paths).map (resolve w)

theorem rooted_targets (hcwd : ∀ name ∈ w.cwd, Path.IsName name) (options : LintOptions) :
    ∀ target ∈ targets w options, target.Rooted := by
  intro target htarget
  obtain ⟨text, -, rfl⟩ := List.mem_map.mp htarget
  exact rooted_resolve hcwd text

theorem rooted_head_targets (hcwd : ∀ name ∈ w.cwd, Path.IsName name) (options : LintOptions) :
    ((targets w options).headD default).Rooted := by
  unfold targets
  split
  · exact rooted_resolve hcwd "."
  · cases hpaths : options.paths with
    | nil => simp_all
    | cons text rest => exact rooted_resolve hcwd text

/-- The directory in which a command that checks files opens its cache, if it gets as far. -/
def cacheDirectory? (w : Workspace) (environment : Environment) (options : LintOptions) :
    Option Path := do
  let environment ← (loadSettings w environment).toOption
  match chooseFormat environment options.format with
  | .error _ => none
  | .ok _ =>
    if (targets w options).all (w.files.has w.cwd) && Settings.cacheEnabled environment &&
        !options.noCache then
      some ((cacheRoot w ((targets w options).headD default)).join
        (Path.ofString (Settings.cacheDirectory environment)))
    else none

theorem withCache_cases (w : Workspace) (root : Path) (directory : String)
    (run : Workspace → Handle → Result) :
    (∃ fault, (w.files.openCache w.cwd (root.join (Path.ofString directory))).1 = .error fault ∧
      withCache w root directory run = (.error (.lint (.cache fault)),
        { w with files := (w.files.openCache w.cwd (root.join (Path.ofString directory))).2 })) ∨
    ∃ place, (w.files.openCache w.cwd (root.join (Path.ofString directory))).1 = .ok place ∧
      withCache w root directory run =
        run { w with files := (w.files.openCache w.cwd (root.join (Path.ofString directory))).2 }
          (.live place) := by
  unfold withCache
  split
  · rename_i fault files hopen
    exact Or.inl ⟨fault, by rw [hopen], by rw [hopen]⟩
  · rename_i place files hopen
    exact Or.inr ⟨place, by rw [hopen], by rw [hopen]⟩

theorem runLint_of_missing (options : LintOptions) {format : Format} {target : Path}
    (hformat : chooseFormat environment options.format = .ok format)
    (hmissing : ((targets w options).find? fun target => !w.files.has w.cwd target) = some target) :
    runLint session w environment options =
      (refuse session ("Path does not exist: " ++ target.toString), w) := by
  unfold targets at hmissing
  unfold runLint
  simp only [hformat, hmissing]

theorem runLint_of_present (options : LintOptions) {format : Format}
    (hformat : chooseFormat environment options.format = .ok format)
    (hpresent : ((targets w options).find? fun target => !w.files.has w.cwd target) = none) :
    runLint session w environment options =
      if Settings.cacheEnabled environment && !options.noCache then
        withCache w (cacheRoot w ((targets w options).headD default))
          (Settings.cacheDirectory environment) fun w' handle =>
            lintFiles session format options.quiet (w.discover
              (Settings.excluded environment ++ options.exclude) (targets w options)) w' (some handle)
      else lintFiles session format options.quiet (w.discover
        (Settings.excluded environment ++ options.exclude) (targets w options)) w none := by
  unfold targets at hpresent ⊢
  unfold runLint
  simp only [hformat, hpresent]

/-- A command that checks files does without a cache, or else it opens one and goes on as it would
without. -/
theorem lint_cases (session : Session) (w : Workspace) (environment : Environment)
    (options : LintOptions) :
    (cacheDirectory? w environment options = none ∧
      run session w environment (.lint options) =
        run session w environment (.lint { options with noCache := true }) ∧
      (run session w environment (.lint options)).2 = w) ∨
    ∃ format excluded directory,
      cacheDirectory? w environment options =
        some ((cacheRoot w ((targets w options).headD default)).join (Path.ofString directory)) ∧
      run session w environment (.lint options) =
        withCache w (cacheRoot w ((targets w options).headD default)) directory (fun w' handle =>
          lintFiles session format options.quiet (w.discover excluded (targets w options)) w'
            (some handle)) ∧
      run session w environment (.lint { options with noCache := true }) =
        lintFiles session format options.quiet (w.discover excluded (targets w options)) w none := by
  simp only [run, cacheDirectory?]
  cases hload : loadSettings w environment with
  | error fault => exact Or.inl ⟨rfl, rfl, rfl⟩
  | ok settled =>
    simp only [Except.toOption, bind, Option.bind]
    cases hformat : chooseFormat settled options.format with
    | error message =>
      unfold runLint
      simp only [hformat]
      exact Or.inl ⟨trivial, trivial, trivial⟩
    | ok format =>
      cases hmissing : (targets w options).find? fun target => !w.files.has w.cwd target with
      | some target =>
        have hall : (targets w options).all (w.files.has w.cwd) = false := by
          rw [List.all_eq_false]
          exact ⟨target, List.mem_of_find?_eq_some hmissing, by
            simpa using List.find?_some hmissing⟩
        rw [runLint_of_missing options hformat hmissing,
          runLint_of_missing { options with noCache := true } hformat hmissing]
        exact Or.inl ⟨by simp [hall], rfl, rfl⟩
      | none =>
        have hall : (targets w options).all (w.files.has w.cwd) = true := by
          rw [List.all_eq_true]
          exact fun target htarget => by
            simpa using List.find?_eq_none.mp hmissing target htarget
        rw [runLint_of_present options hformat hmissing,
          runLint_of_present { options with noCache := true } hformat hmissing, hall]
        cases huse : Settings.cacheEnabled settled && !options.noCache with
        | true =>
          refine Or.inr ⟨format, Settings.excluded settled ++ options.exclude,
            Settings.cacheDirectory settled, by simp [huse], if_pos rfl, ?_⟩
          exact if_neg (by simp)
        | false =>
          refine Or.inl ⟨by simp [huse], ?_, ?_⟩
          · rw [if_neg Bool.false_ne_true]
            exact (if_neg (by simp)).symm
          · rw [if_neg Bool.false_ne_true, lintFiles, Workspace.lintAll_none]

theorem withCache_grows (hs : w.files.Sound) {root : Path} (hroot : root.Rooted) {directory : String}
    {run : Workspace → Handle → Result}
    (hrun : ∀ files place rows t, Files.Grows (CacheWork Known) w.files files →
      files.get? place = some (.file (.store rows) t) →
      ∃ grown, (run { w with files } (.live place)).2 = { w with files := grown } ∧
        Files.Grows (CacheWork Known) w.files grown) :
    ∃ grown, (withCache w root directory run).2 = { w with files := grown } ∧
      Files.Grows (CacheWork Known) w.files grown := by
  obtain ⟨hgrows, hstore⟩ := Files.openCache_spec Known w.cwd hs (hroot.join_ofString directory)
  rcases withCache_cases w root directory run with ⟨fault, -, heq⟩ | ⟨place, hopen, heq⟩
  · exact ⟨_, by rw [heq], hgrows⟩
  · obtain ⟨rows, t, hplace⟩ := hstore place hopen
    rw [heq]
    exact hrun _ place rows t hgrows hplace

theorem lintFiles_spec (session : Session) (format : Format) (quiet : Bool) (excluded : List String)
    (h : w.Ready Known) {paths : List Path} (hpaths : ∀ path ∈ paths, path.Rooted) {files : Files}
    (hgrows : Files.Grows (CacheWork Known) w.files files) {place : Location} {rows : Store}
    {t : Time} (hplace : files.get? place = some (.file (.store rows) t)) :
    ∃ grown, lintFiles session format quiet (w.discover excluded paths) { w with files }
        (some (.live place)) =
        ((lintFiles session format quiet (w.discover excluded paths) w none).1,
          { w with files := grown }) ∧
      Files.Grows (CacheWork Known) w.files grown := by
  obtain ⟨grown, hall, hgrown⟩ := h.lintAll_discover excluded hpaths hgrows hplace
  refine ⟨grown, ?_, hgrown⟩
  rw [lintFiles, lintFiles, hall, Workspace.lintAll_none]
  rfl

/-- Checking with a cache ends with the fault of opening it, or else as it does without one. -/
theorem lint_spec (session : Session) (environment : Environment) (h : w.Ready Known)
    (options : LintOptions) :
    (∀ directory fault, cacheDirectory? w environment options = some directory →
      (w.files.openCache w.cwd directory).1 = .error fault →
      (run session w environment (.lint options)).1 = .error (.lint (.cache fault))) ∧
    ((∀ directory fault, cacheDirectory? w environment options = some directory →
        (w.files.openCache w.cwd directory).1 ≠ .error fault) →
      (run session w environment (.lint options)).1 =
        (run session w environment (.lint { options with noCache := true })).1) := by
  rcases lint_cases session w environment options with
    ⟨hnone, heq, -⟩ | ⟨format, excluded, directory, hsome, heq, hplain⟩
  · refine ⟨fun _ _ hsome => ?_, fun _ => by rw [heq]⟩
    rw [hnone] at hsome
    cases hsome
  · have hroot : (cacheRoot w ((targets w options).headD default)).Rooted :=
      rooted_cacheRoot (rooted_head_targets h.cwd options)
    obtain ⟨hgrows, hstore⟩ := Files.openCache_spec Known w.cwd h.sound (hroot.join_ofString directory)
    rw [heq, hplain, hsome]
    rcases withCache_cases w (cacheRoot w ((targets w options).headD default)) directory
      (fun w' handle => lintFiles session format options.quiet
        (w.discover excluded (targets w options)) w' (some handle)) with
      ⟨fault, hfault, hresult⟩ | ⟨place, hopen, hresult⟩
    · rw [hresult]
      refine ⟨fun other found hother hfound => ?_, fun hno => absurd hfault (hno _ fault rfl)⟩
      obtain rfl := Option.some.inj hother
      rw [hfault] at hfound
      obtain rfl := Except.error.inj hfound
      rfl
    · obtain ⟨rows, t, hplace⟩ := hstore place hopen
      obtain ⟨grown, hlint, -⟩ := lintFiles_spec session format options.quiet excluded h
        (rooted_targets h.cwd options) hgrows hplace
      rw [hresult, hlint]
      refine ⟨fun other found hother hfound => ?_, fun _ => rfl⟩
      obtain rfl := Option.some.inj hother
      rw [hopen] at hfound
      cases hfound

theorem finish_ne_fault (fault : LintFault) (exit : Nat) (out : Except ReportFault String) :
    finish exit out ≠ .error (.lint fault) := by
  cases out <;> simp [finish]

theorem refuse_ne_fault (fault : LintFault) (message : String) :
    refuse session message ≠ .error (.lint fault) := by
  unfold refuse
  split <;> simp

theorem reportLint_ne_fault (fault : LintFault) (format : Format) (quiet : Bool) (checked : Nat)
    (records : List Record) :
    reportLint session w format quiet checked records ≠ .error (.lint fault) := by
  cases format <;> simp only [reportLint] <;> exact finish_ne_fault fault _ _

/-- Without a cache no fault of a cache can end the command. -/
theorem lint_ne_fault (fault : LintFault) (options : LintOptions) :
    (run session w environment (.lint { options with noCache := true })).1 ≠
      .error (.lint fault) := by
  simp only [run]
  split
  · simp
  · rename_i settled _
    cases hformat : chooseFormat settled options.format with
    | error message =>
      unfold runLint
      simp only [hformat]
      exact refuse_ne_fault fault message
    | ok format =>
      cases hmissing : (targets w options).find? fun target => !w.files.has w.cwd target with
      | some target =>
        rw [runLint_of_missing { options with noCache := true } hformat hmissing]
        dsimp only
        exact refuse_ne_fault fault _
      | none =>
        rw [runLint_of_present { options with noCache := true } hformat hmissing,
          if_neg (by simp), lintFiles, Workspace.lintAll_none]
        exact reportLint_ne_fault fault format _ _ _

theorem onProject_grows (h : w.Ready Known) {text : String}
    {run : Path → Workspace → Handle → Result}
    (hrun : ∀ path files place rows t, Files.Grows (CacheWork Known) w.files files →
      files.get? place = some (.file (.store rows) t) →
      ∃ grown, (run path { w with files } (.live place)).2 = { w with files := grown } ∧
        Files.Grows (CacheWork Known) w.files grown) :
    ∃ grown, (onProject session w environment text run).2 = { w with files := grown } ∧
      Files.Grows (CacheWork Known) w.files grown := by
  unfold onProject
  dsimp only
  split
  · split
    · exact ⟨w.files, rfl, .refl⟩
    · exact withCache_grows h.sound (rooted_resolve h.cwd text) (hrun _)
  · exact ⟨w.files, rfl, .refl⟩

theorem runClear_grows (h : w.Ready Known) {path : Path} {files : Files} {place : Location}
    {rows : Store} {t : Time} (hgrows : Files.Grows (CacheWork Known) w.files files)
    (hplace : files.get? place = some (.file (.store rows) t)) :
    ∃ grown, (runClear session path { w with files } (.live place)).2 = { w with files := grown } ∧
      Files.Grows (CacheWork Known) w.files grown := by
  obtain ⟨grown, hset, hgrown⟩ := Files.setRows_grows (hgrows.holds_of_work h.sound h.holds) hplace
    [] fun _ _ hrow => by cases hrow
  refine ⟨grown, ?_, hgrows.trans hgrown⟩
  simp only [runClear, hset]

/-- Whatever the command, all it does to the files is work with caches. -/
theorem run_grows (h : w.Ready Known) (session : Session) (environment : Environment)
    (command : Command) : ∃ grown, (run session w environment command).2 = { w with files := grown } ∧
      Files.Grows (CacheWork Known) w.files grown := by
  cases command with
  | lint options =>
    rcases lint_cases session w environment options with
      ⟨-, -, heq⟩ | ⟨format, excluded, directory, -, heq, -⟩
    · exact ⟨w.files, heq, .refl⟩
    · rw [heq]
      apply withCache_grows h.sound (rooted_cacheRoot (rooted_head_targets h.cwd options))
      intro files place rows t hgrows hplace
      obtain ⟨grown, hlint, hgrown⟩ := lintFiles_spec session format options.quiet excluded h
        (rooted_targets h.cwd options) hgrows hplace
      exact ⟨grown, by rw [hlint], hgrown⟩
  | clearCache text => exact onProject_grows h fun _ _ _ _ _ => runClear_grows h
  | cacheStatistics text =>
    refine onProject_grows h fun path files place rows t hgrows hplace => ⟨files, ?_, hgrows⟩
    simp only [runStatistics, Files.rows_of_live hplace]
  | showRule | showVersion | help => exact ⟨w.files, rfl, .refl⟩

theorem runArguments_grows (h : w.Ready Known) (session : Session) (environment : Environment)
    (arguments : List String) :
    ∃ grown, (runArguments session w environment arguments).2 = { w with files := grown } ∧
      Files.Grows (CacheWork Known) w.files grown := by
  unfold runArguments
  split
  · exact run_grows h session environment _
  · exact ⟨w.files, rfl, .refl⟩

end Command
end StaleQuery
