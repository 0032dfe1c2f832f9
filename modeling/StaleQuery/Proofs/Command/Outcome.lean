import StaleQuery.Proofs.Cache.Commands
import StaleQuery.Proofs.Console.Escape

/-!
# How a run that checks files ends

A form of output that does not exist or a target that is missing ends a run before it has done
anything, with a complaint that is always written. Otherwise the exit status tells whether there was
something to report, in whatever form it is printed. All that a run may do to the files is to make the
directories that lead to its cache and to write the one file in which the cache lives; of what was
there before, a directory gets a new time if something new is put into it, and nothing goes away.
-/
namespace StaleQuery

namespace Files

/-! What working with a cache leaves alone -/

/-- The file in which the cache of a directory lives. -/
def cacheFile (cwd : Location) (directory : Path) : Location :=
  resolve cwd directory ++ [Cache.fileName]

/-- What may become of a place when a cache is used. -/
inductive Spared (cwd : Location) (directory : Path) (before after : Files) (place : Location) :
    Prop where
  | same : after.get? place = before.get? place → Spared cwd directory before after place
  /-- One of the directories on the way to the cache was missing. -/
  | made (depth : Nat) {t : Time} :
      place = resolve cwd ⟨directory.anchor, directory.parts.take depth⟩ →
      before.get? place = none → after.get? place = some (.directory t) →
      Spared cwd directory before after place
  /-- A directory has a new entry. -/
  | stamped {s t : Time} {name : String} : before.get? place = some (.directory s) →
      after.get? place = some (.directory t) → before.get? (place ++ [name]) = none →
      (after.get? (place ++ [name])).isSome → Spared cwd directory before after place

/-- Apart from the file of the cache, which stays if it was there, all that was added are directories
on the way to it, and all that was changed is the time of directories that got an entry. -/
structure Confined (cwd : Location) (directory : Path) (before after : Files) : Prop where
  spared : ∀ place, place ≠ cacheFile cwd directory → Spared cwd directory before after place
  kept : (before.get? (cacheFile cwd directory)).isSome →
    (after.get? (cacheFile cwd directory)).isSome

variable {cwd : Location} {directory : Path} {place : Location} {files made : Files}

theorem Spared.kept {before after : Files} (h : Spared cwd directory before after place)
    (hbefore : (before.get? place).isSome) : (after.get? place).isSome := by
  cases h with
  | same hsame => rwa [hsame]
  | made _ _ _ hmade => rw [hmade]; rfl
  | stamped _ hstamped => rw [hstamped]; rfl

/-- A directory on the way to one on the way is itself on the way. -/
theorem Spared.of_take {before after : Files} {depth : Nat}
    (h : Spared cwd ⟨directory.anchor, directory.parts.take depth⟩ before after place) :
    Spared cwd directory before after place := by
  cases h with
  | same hsame => exact .same hsame
  | made depth' hplace hnone hmade =>
    rw [List.take_take] at hplace
    exact .made _ hplace hnone hmade
  | stamped hbefore hafter hnone hsome => exact .stamped hbefore hafter hnone hsome

/-- Nothing goes away, so what is new in the end was not there in the beginning. -/
theorem Spared.trans {after : Files} (h : Spared cwd directory files made place)
    (k : Spared cwd directory made after place)
    (hkept : ∀ other, (files.get? other).isSome → (made.get? other).isSome)
    (hkept' : ∀ other, (made.get? other).isSome → (after.get? other).isSome) :
    Spared cwd directory files after place := by
  cases h with
  | same hsame =>
    cases k with
    | same hsame' => exact .same (hsame'.trans hsame)
    | made depth hway hnone hmade => exact .made depth hway (hsame ▸ hnone) hmade
    | @stamped _ _ name hbefore hafter hnone hsome =>
      have hfirst : files.get? (place ++ [name]) = none := by
        have hno := mt (hkept (place ++ [name])) (by rw [hnone]; decide)
        simpa using hno
      exact .stamped (hsame ▸ hbefore) hafter hfirst hsome
  | made depth hway hnone hmade =>
    cases k with
    | same hsame => exact .made depth hway hnone (hsame.trans hmade)
    | made _ _ hnone' => cases hmade.symm.trans hnone'
    | stamped _ hafter => exact .made depth hway hnone hafter
  | stamped hbefore hbetween hnone hsome =>
    cases k with
    | same hsame => exact .stamped hbefore (hsame.trans hbetween) hnone (hkept' _ hsome)
    | made _ _ hnone' => cases hbetween.symm.trans hnone'
    | stamped _ hafter => exact .stamped hbefore hafter hnone (hkept' _ hsome)

theorem Confined.of_spared {before after : Files}
    (h : ∀ place, Spared cwd directory before after place) : Confined cwd directory before after :=
  ⟨fun place _ => h place, (h _).kept⟩

theorem Confined.refl (cwd : Location) (directory : Path) (files : Files) :
    Confined cwd directory files files :=
  .of_spared fun _ => .same rfl

theorem Confined.keeps {before after : Files} (h : Confined cwd directory before after)
    (place : Location) (hbefore : (before.get? place).isSome) : (after.get? place).isSome := by
  by_cases hplace : place = cacheFile cwd directory
  · subst hplace
    exact h.kept hbefore
  · exact (h.spared place hplace).kept hbefore

theorem Confined.trans {after : Files} (h : Confined cwd directory files made)
    (k : Confined cwd directory made after) : Confined cwd directory files after where
  spared place hplace := (h.spared place hplace).trans (k.spared place hplace) h.keeps k.keeps
  kept hbefore := k.keeps _ (h.keeps _ hbefore)

theorem get?_put_directory (files : Files) (place : Location) (s : Time) :
    ∃ t, (files.put place (.directory s)).get? place = some (.directory t) := by
  have hwritten : ({ files with entries := Ledger.put place (.directory s) files.entries } :
      Files).get? place = some (.directory s) := Ledger.get?_put_self _ _ _
  unfold put
  dsimp only
  split
  · exact ⟨s, hwritten⟩
  · exact (stampDirectory_like _ _ _).directory hwritten

/-- A new entry changes nothing but the directory that it is put into. -/
theorem spared_put {e : Entry} (hnew : files.get? place = none) {other : Location}
    (hother : other ≠ place) : Spared cwd directory files (files.put place e) other := by
  have hlike : Like (files.get? other) ((files.put place e).get? other) := put_like hother
  generalize hafter : (files.put place e).get? other = after at hlike
  generalize hbefore : files.get? other = before at hlike
  cases hlike with
  | same => exact .same (hafter.trans hbefore.symm)
  | stamped s t =>
    by_cases habove : other = place.dropLast
    · have hplace : place ≠ [] := by
        rintro rfl
        exact hother habove
      have hlast : other ++ [place.getLast hplace] = place := by
        rw [habove, List.dropLast_append_getLast]
      refine .stamped hbefore hafter (by rw [hlast, hnew]) ?_
      rw [hlast, get?_put_self hplace]
      rfl
    · refine .same ?_
      rw [put, if_neg (by rw [hnew]; decide), stampDirectory_of_ne habove]
      exact Ledger.get?_put_of_ne hother _ _

theorem makeDirectory_spared (h : files.makeDirectory cwd directory = .ok made) (place : Location) :
    Spared cwd directory files made place := by
  cases hlocate : files.locate cwd directory with
  | error fault => simp [makeDirectory, hlocate, bind, Except.bind] at h
  | ok target =>
    simp only [makeDirectory, hlocate, bind, Except.bind] at h
    split at h
    · cases h
    · rename_i hfree
      obtain rfl := Except.ok.inj h
      by_cases hplace : place = target
      · subst hplace
        obtain ⟨t, ht⟩ := get?_put_directory files place (Time.ofSeconds files.clock 0)
        refine .made directory.parts.length ?_ hfree ht
        rw [List.take_length]
        exact locate_eq_resolve hlocate
      · exact spared_put hfree hplace

theorem makeDirectoriesRev_spared (files : Files) (cwd : Location) (anchor : String)
    (names : List String) (place : Location) : Spared cwd ⟨anchor, names.reverse⟩ files
      (files.makeDirectoriesRev cwd anchor names).2 place := by
  induction names generalizing place with
  | nil => exact .same rfl
  | cons name above ih =>
    -- the directories above lie on the way to the one that is made last
    have habove : ∀ place, Spared cwd ⟨anchor, (name :: above).reverse⟩ files
        (files.makeDirectoriesRev cwd anchor above).2 place := by
      have htake : above.reverse = (name :: above).reverse.take above.length := by simp
      rw [htake] at ih
      exact fun place => .of_take (ih place)
    rw [makeDirectoriesRev]
    split
    · rename_i made hmade
      exact makeDirectory_spared hmade place
    · split
      · rename_i made hrest
        rw [hrest] at habove
        exact habove place
      · rename_i made hrest
        rw [hrest] at habove
        split
        · rename_i complete hcomplete
          have hlast := makeDirectory_spared hcomplete
          exact (habove place).trans (hlast place) (fun other => (habove other).kept)
            fun other => (hlast other).kept
        · exact habove place
    · exact .same rfl

theorem makeDirectories_spared (files : Files) (cwd : Location) (directory : Path)
    (place : Location) : Spared cwd directory files (files.makeDirectories cwd directory).2 place := by
  have hreverse := makeDirectoriesRev_spared files cwd directory.anchor directory.parts.reverse place
  rwa [List.reverse_reverse] at hreverse

end Files

namespace Workspace

variable {w : Workspace} {place : Location}

/-- Nothing differs but what is at one place, where there is still something if there was. -/
def OnlyAt (place : Location) (w after : Workspace) : Prop :=
  ∃ files, after = { w with files } ∧
    (∀ other, other ≠ place → files.get? other = w.files.get? other) ∧
    ((w.files.get? place).isSome → (files.get? place).isSome)

theorem OnlyAt.refl (place : Location) (w : Workspace) : OnlyAt place w w :=
  ⟨w.files, rfl, fun _ _ => rfl, id⟩

theorem OnlyAt.trans {between after : Workspace} (h : OnlyAt place w between)
    (k : OnlyAt place between after) : OnlyAt place w after := by
  obtain ⟨files, rfl, hfiles, hkept⟩ := h
  obtain ⟨files', rfl, hfiles', hkept'⟩ := k
  exact ⟨files', rfl, fun other hother => (hfiles' other hother).trans (hfiles other hother),
    fun hplace => hkept' (hkept hplace)⟩

theorem store_onlyAt {path : Path} {value : Json} {after : Workspace}
    (h : w.store (.live place) path value = .ok after) : OnlyAt place w after := by
  unfold store at h
  split at h
  · obtain rfl := Except.ok.inj h
    exact .refl place w
  · cases hrows : w.files.rows (.live place) with
    | error fault => simp [hrows, bind, Except.bind] at h
    | ok rows =>
      obtain ⟨t, hplace⟩ := Files.exists_of_rows_live hrows
      simp only [hrows, Files.setRows, bind, Except.bind, pure, Except.pure] at h
      obtain rfl := Except.ok.inj h
      refine ⟨_, rfl, fun other hother => Files.get?_put_of_ne hplace hother, fun _ => ?_⟩
      rw [Files.get?_put_file]
      rfl

theorem lintCached_onlyAt (w : Workspace) (place : Location) (path : Path) :
    OnlyAt place w (w.lintCached (some (.live place)) path).2 := by
  unfold lintCached
  dsimp only
  split
  · exact .refl place w
  · unfold lintAndStore
    dsimp only
    split
    · rename_i hstore
      exact store_onlyAt hstore
    · exact .refl place w
  · split <;> exact .refl place w

theorem lintAll_onlyAt (w : Workspace) (place : Location) (paths : List Path) :
    OnlyAt place w (w.lintAll (some (.live place)) paths).2 := by
  induction paths generalizing w with
  | nil => exact .refl place w
  | cons path rest ih =>
    have hfirst := lintCached_onlyAt w place path
    rw [lintAll]
    split
    · rename_i between hcached
      rwa [hcached] at hfirst
    · rename_i between hcached
      rw [hcached] at hfirst
      have hrest := hfirst.trans (ih between)
      split
      · rename_i after hall
        rwa [hall] at hrest
      · rename_i after hall
        rwa [hall] at hrest

theorem cwd_lintAll (w : Workspace) (cache : Option Location) (paths : List Path) :
    (w.lintAll (cache.map .live) paths).2.cwd = w.cwd := by
  cases cache with
  | none => rw [Option.map_none, lintAll_none]
  | some place =>
    obtain ⟨files, heq, -, -⟩ := lintAll_onlyAt w place paths
    rw [Option.map_some, heq]

end Workspace

theorem Format.ofName?_eq_some_iff {name : String} {format : Format} :
    ofName? name = some format ↔ name = format.name := by
  constructor
  · intro h
    have hname := List.find?_some h
    exact (beq_iff_eq.mp hname).symm
  · rintro rfl
    cases format <;> decide

namespace Command

/-! The form of output -/

/-- The word that decides the form of output: the one asked for, unless it is empty, and else the
one in the settings. -/
def formatWord (environment : Environment) (wanted : Option String) : String :=
  if wanted.getD "" = "" then
    Text.lower (Text.trim (Settings.value environment Settings.formatVariable "table"))
  else Text.lower (wanted.getD "")

theorem chooseFormat_eq_ok_iff {environment : Environment} {wanted : Option String} {format : Format} :
    chooseFormat environment wanted = .ok format ↔ formatWord environment wanted = format.name := by
  rw [← Format.ofName?_eq_some_iff, formatWord]
  unfold chooseFormat
  split
  · unfold Settings.format
    dsimp only [Option.getD]
    rw [if_pos rfl]
    cases Format.ofName? (Text.lower (Text.trim (Settings.value environment
      Settings.formatVariable "table"))) <;> simp
  · unfold Settings.format
    dsimp only [Option.getD]
    rw [if_pos rfl]
    cases Format.ofName? (Text.lower (Text.trim (Settings.value environment
      Settings.formatVariable "table"))) <;> simp
  · rename_i word hword
    have hne : word ≠ "" := hword
    dsimp only [Option.getD]
    rw [if_neg hne]
    cases Format.ofName? (Text.lower word) <;> simp

/-- The form of output does not exist, or a target does not. -/
def Refused (w : Workspace) (settled : Environment) (options : LintOptions) : Prop :=
  formatWord settled options.format ∉ Format.all.map Format.name ∨
    ∃ target ∈ targets w options, w.files.has w.cwd target = false

/-- Where the cache is, if there is one. -/
def cachePath (w : Workspace) (settled : Environment) (options : LintOptions) : Path :=
  (cacheRoot w ((targets w options).headD default)).join
    (Path.ofString (Settings.cacheDirectory settled))

def UsesCache (settled : Environment) (options : LintOptions) : Prop :=
  Settings.cacheEnabled settled = true ∧ options.noCache = false

instance (settled : Environment) (options : LintOptions) : Decidable (UsesCache settled options) :=
  inferInstanceAs (Decidable (_ ∧ _))

/-- The files that are checked. -/
def found (w : Workspace) (settled : Environment) (options : LintOptions) : List Path :=
  w.discover (Settings.excluded settled ++ options.exclude) (targets w options)

/-- What checking them comes to, however it is reported. -/
def inspect (w : Workspace) (settled : Environment) (options : LintOptions) :
    Except LintFault (List Record) × Workspace :=
  if UsesCache settled options then
    match w.files.openCache w.cwd (cachePath w settled options) with
    | (.error fault, files) => (.error (.cache fault), { w with files })
    | (.ok place, files) =>
      ({ w with files } : Workspace).lintAll (some (.live place)) (found w settled options)
  else w.lintAll none (found w settled options)

/-- What is wrong with a run, in the words in which it is refused: the form of output counts before
the targets, and of those the first that is missing. -/
def objection? (w : Workspace) (settled : Environment) (options : LintOptions) : Option String :=
  match chooseFormat settled options.format with
  | .error message => some message
  | .ok _ =>
    ((targets w options).find? fun target => !w.files.has w.cwd target).map fun target =>
      "Path does not exist: " ++ target.toString

/-- How a run ends that was refused: with status 2, nothing on the standard output and the complaint
about what is wrong on the other. -/
inductive Refusal (session : Session) (message : String) : Except RunFault Transcript → Prop where
  | mk {err : String} : complaint session message = .ok err →
      Refusal session message (.ok { exit := 2, err })

/-- What is printed of reports. -/
def reportText (session : Session) (cwd : Location) (format : Format) (quiet : Bool) (checked : Nat)
    (records : List Record) : Except ReportFault String :=
  match format with
  | .json => Report.ofPrint (session.terminal.send
      (Console.sanitize session.terminal.encoding (Report.json records) ++ "\n"))
  | .table => (Report.printTable session.terminal cwd quiet records checked session.elapsed).map
      ((if quiet then "" else "\n") ++ ·)

/-- How a run ends that was not: the status tells whether there are reports, unless checking broke
off or the reports could not be printed. -/
inductive Ending (print : List Record → Except ReportFault String) :
    Except LintFault (List Record) → Except RunFault Transcript → Prop where
  | brokeOff (fault : LintFault) : Ending print (.error fault) (.error (.lint fault))
  | printed {records : List Record} {out : String} : print records = .ok out →
      Ending print (.ok records) (.ok { exit := if records.isEmpty then 0 else 1, out })
  | unprinted {records : List Record} {fault : ReportFault} : print records = .error fault →
      Ending print (.ok records) (.error (.report fault))

variable {session : Session} {w : Workspace} {environment settled : Environment}
  {options : LintOptions}

/-- A complaint is always written. -/
theorem exists_complaint (session : Session) (message : String) :
    ∃ err, complaint session message = .ok err := by
  dsimp only [complaint]
  generalize ("[bold red]Error:[/bold red] " ++ Markup.escape message).length + 1 = width
  exact Console.Terminal.printError_complaint ⟨session.terminal.encoding, width⟩ message

theorem refusal_refuse (session : Session) (message : String) :
    Refusal session message (refuse session message) := by
  unfold refuse
  split
  · rename_i err herr
    exact .mk herr
  · rename_i fault hfault
    obtain ⟨err, herr⟩ := exists_complaint session message
    cases herr.symm.trans hfault

theorem ending_reportLint (session : Session) (w : Workspace) (format : Format) (quiet : Bool)
    (checked : Nat) (records : List Record) :
    Ending (reportText session w.cwd format quiet checked) (.ok records)
      (reportLint session w format quiet checked records) := by
  have hfinish : reportLint session w format quiet checked records =
      finish (if records.isEmpty then 0 else 1)
        (reportText session w.cwd format quiet checked records) := by
    cases format <;> rfl
  rw [hfinish]
  cases hprint : reportText session w.cwd format quiet checked records with
  | ok out => exact .printed hprint
  | error fault => exact .unprinted hprint

/-- Checking files and reporting on them is checking them, and the status is that of the reports. -/
theorem ending_lintFiles (session : Session) (format : Format) (quiet : Bool) (w : Workspace)
    (cache : Option Location) (paths : List Path) :
    (lintFiles session format quiet paths w (cache.map .live)).2 =
      (w.lintAll (cache.map .live) paths).2 ∧
    Ending (reportText session w.cwd format quiet paths.length) (w.lintAll (cache.map .live) paths).1
      (lintFiles session format quiet paths w (cache.map .live)).1 := by
  have hcwd := w.cwd_lintAll cache paths
  unfold lintFiles
  rcases hall : w.lintAll (cache.map .live) paths with ⟨fault | records, after⟩
  · exact ⟨rfl, .brokeOff fault⟩
  · have hreport := ending_reportLint session after format quiet paths.length records
    rw [hall] at hcwd
    rw [hcwd] at hreport
    exact ⟨rfl, hreport⟩

theorem runLint_of_error {message : String}
    (hformat : chooseFormat settled options.format = .error message) :
    runLint session w settled options = (refuse session message, w) := by
  unfold runLint
  simp only [hformat]

theorem runLint_of_refused (session : Session) (h : Refused w settled options) :
    (runLint session w settled options).2 = w ∧ ∃ message,
      objection? w settled options = some message ∧
        Refusal session message (runLint session w settled options).1 := by
  cases hformat : chooseFormat settled options.format with
  | error message =>
    rw [runLint_of_error hformat]
    dsimp only
    exact ⟨rfl, message, by rw [objection?, hformat], refusal_refuse session message⟩
  | ok format =>
    rcases h with hword | ⟨target, htarget, hmissing⟩
    · rw [chooseFormat_eq_ok_iff] at hformat
      rw [hformat] at hword
      cases format <;> simp [Format.all] at hword
    · cases hfind : (targets w options).find? fun target => !w.files.has w.cwd target with
      | none => simpa [hmissing] using List.find?_eq_none.mp hfind target htarget
      | some first =>
        rw [runLint_of_missing options hformat hfind]
        dsimp only
        refine ⟨rfl, _, ?_, refusal_refuse session _⟩
        simp only [objection?, hformat, hfind, Option.map_some]

theorem runLint_of_accepted (session : Session) (h : ¬ Refused w settled options) :
    (runLint session w settled options).2 = (inspect w settled options).2 ∧
      ∃ format : Format, formatWord settled options.format = format.name ∧
        Ending (reportText session w.cwd format options.quiet (found w settled options).length)
          (inspect w settled options).1 (runLint session w settled options).1 := by
  obtain ⟨hword, hthere⟩ := not_or.mp h
  obtain ⟨format, -, hname⟩ := List.mem_map.mp (not_not.mp hword)
  have hformat := chooseFormat_eq_ok_iff.mpr hname.symm
  have hfind : ((targets w options).find? fun target => !w.files.has w.cwd target) = none := by
    rw [List.find?_eq_none]
    intro target htarget hmissing
    exact hthere ⟨target, htarget, by simpa using hmissing⟩
  suffices hsame : (runLint session w settled options).2 = (inspect w settled options).2 ∧
      Ending (reportText session w.cwd format options.quiet (found w settled options).length)
        (inspect w settled options).1 (runLint session w settled options).1 from
    ⟨hsame.1, format, hname.symm, hsame.2⟩
  rw [runLint_of_present options hformat hfind, inspect]
  by_cases huse : UsesCache settled options
  · have huse' : (Settings.cacheEnabled settled && !options.noCache) = true := by simp [huse.1, huse.2]
    rw [if_pos huse, if_pos huse', withCache, cachePath]
    rcases w.files.openCache w.cwd ((cacheRoot w ((targets w options).headD default)).join
      (Path.ofString (Settings.cacheDirectory settled))) with ⟨fault | place, files⟩
    · exact ⟨rfl, .brokeOff (.cache fault)⟩
    · exact ending_lintFiles session format options.quiet { w with files } (some place) _
  · have huse' : ¬ (Settings.cacheEnabled settled && !options.noCache) = true := by
      rw [UsesCache] at huse
      simpa using huse
    rw [if_neg huse, if_neg huse']
    exact ending_lintFiles session format options.quiet w none _

theorem inspect_without_cache (h : ¬ UsesCache settled options) :
    inspect w settled options = (.ok (w.reports (found w settled options)), w) := by
  rw [inspect, if_neg h, Workspace.lintAll_none]

theorem runArguments_of_settled {arguments : List String}
    (hparse : parse? arguments = some (.lint options))
    (hload : loadSettings w environment = .ok settled) :
    runArguments session w environment arguments = runLint session w settled options := by
  simp only [runArguments, hparse, run, hload]

theorem Ending.exit_eq {print print' : List Record → Except ReportFault String}
    {outcome : Except LintFault (List Record)} {first second : Except RunFault Transcript}
    {a b : Transcript} (h : Ending print outcome first) (k : Ending print' outcome second)
    (ha : first = .ok a) (hb : second = .ok b) : a.exit = b.exit := by
  cases h with
  | brokeOff => cases ha
  | unprinted => cases ha
  | printed =>
    cases k with
    | unprinted => cases hb
    | printed =>
      obtain rfl := Except.ok.inj ha
      obtain rfl := Except.ok.inj hb
      rfl

end Command

/-- A lone settings file that is not text. -/
def unreadable : Files where
  entries := [([], .directory default), ([".env"], .file (.bytes (ByteArray.mk #[255])) default)]
  clock := 0

end StaleQuery
