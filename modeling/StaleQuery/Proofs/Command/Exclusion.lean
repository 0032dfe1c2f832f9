import StaleQuery.Proofs.Command.Outcome
import StaleQuery.Proofs.Settings.Loading

/-!
# Two ways to leave directories out

Names can be left out by a variable and by options. Which of them come from where, in which order and
how often makes no difference to the files that are found, and so none to what is reported. All that
the variable can do beyond that is to take part in the settings of the form of output, where the
settings file says so.
-/
namespace StaleQuery

namespace Files

/-! Names that are left out are a set -/

section

variable {first second : List String} (h : ∀ name, name ∈ first ↔ name ∈ second)
include h

theorem admits_congr (rest : List String) : admits first rest = admits second rest := by
  have hcontains : ∀ part, first.contains part = second.contains part := by
    intro part
    rw [Bool.eq_iff_iff, List.contains_iff_mem, List.contains_iff_mem]
    exact h part
  simp only [admits, hcontains]

theorem sourcesAt_congr (files : Files) (cwd : Location) (path : Path) :
    files.sourcesAt cwd first path = files.sourcesAt cwd second path := by
  have hbelow : ∀ place, files.sourcesBelow first place = files.sourcesBelow second place := by
    intro place
    simp only [sourcesBelow, admits_congr h]
  simp only [sourcesAt, hbelow]

theorem discover_congr (files : Files) (cwd : Location) (paths : List Path) :
    files.discover cwd first paths = files.discover cwd second paths := by
  have hall : ∀ name, name ∈ defaultExcluded ++ first ↔ name ∈ defaultExcluded ++ second := by
    intro name
    rw [List.mem_append, List.mem_append, h name]
  have hsources : files.sourcesAt cwd (defaultExcluded ++ first) =
      files.sourcesAt cwd (defaultExcluded ++ second) := by
    funext path
    exact sourcesAt_congr hall files cwd path
  simp only [discover, hsources]

end

end Files

namespace Command

open Settings (AgreeBut RefersTo Listable Spells excludeVariable agreeBut_put)

/-! Names as options -/

/-- Options that were found, before those in what is left. -/
def before (found : Option (List (String × String) × List String))
    (next : List String → Option Parsed) : Option Parsed :=
  found.bind fun f => (next f.2).bind fun parsed =>
    some { parsed with options := f.1 ++ parsed.options }

theorem before_mono {found : Option (List (String × String) × List String)}
    {next next' : List String → Option Parsed} {parsed : Parsed}
    (hnext : ∀ {rest parsed}, next rest = some parsed → next' rest = some parsed)
    (h : before found next = some parsed) : before found next' = some parsed := by
  obtain ⟨f, hfound, hread⟩ := Option.bind_eq_some_iff.mp h
  obtain ⟨inner, hinner, hparsed⟩ := Option.bind_eq_some_iff.mp hread
  rw [before, hfound, Option.bind_some, hnext hinner, Option.bind_some]
  exact hparsed

/-- More fuel does not change what was read. -/
theorem read_succ {known : List Flag} {mixed : Bool} {fuel : Nat} {arguments : List String}
    {parsed : Parsed} (h : read known mixed fuel arguments = some parsed) :
    read known mixed (fuel + 1) arguments = some parsed := by
  induction fuel generalizing arguments parsed with
  | zero => cases h
  | succ fuel ih =>
    cases arguments with
    | nil => exact h
    | cons argument rest =>
      rw [read] at h ⊢
      split at h
      · exact h
      · exact before_mono ih h
      · exact before_mono ih h
      · cases mixed with
        | false => exact h
        | true =>
          obtain ⟨inner, hinner, hparsed⟩ := Option.bind_eq_some_iff.mp h
          exact Option.bind_eq_some_iff.mpr ⟨inner, ih hinner, hparsed⟩

/-- One option for each name. -/
def excludeOptions (names : List String) : List String :=
  names.flatMap fun name => ["--exclude", name]

theorem readAll_exclude {rest : List String} {parsed : Parsed} (name : String)
    (h : readAll lintKnown true rest = some parsed) :
    readAll lintKnown true ("--exclude" :: name :: rest) =
      some { parsed with options := ("exclude", name) :: parsed.options } := by
  have hlong : readLong lintKnown "exclude".toList (name :: rest) =
      some ([("exclude", name)], rest) := rfl
  have hread : read lintKnown true (rest.length + 2) rest = some parsed := read_succ h
  have hbefore : before (readLong lintKnown "exclude".toList (name :: rest))
      (read lintKnown true (rest.length + 2)) =
        some { parsed with options := ("exclude", name) :: parsed.options } := by
    rw [before, hlong, Option.bind_some, hread, Option.bind_some, List.singleton_append]
  exact hbefore

theorem parse?_lint (rest : List String) :
    parse? ("lint" :: rest) = (readAll lintKnown true rest).map fun parsed =>
      if parsed.asksHelp then .help else .lint (lintOptions parsed) := by
  have hname : readName ("lint" :: rest) = some (some ("lint", rest)) := rfl
  rw [parse?, hname]
  simp only [Option.pure_def, Option.bind_eq_bind, Option.bind_some]
  cases readAll lintKnown true rest <;> rfl

/-- An option more with a name adds the name to those that are left out. -/
theorem lintOptions_exclude (name : String) (parsed : Parsed) :
    lintOptions { parsed with options := ("exclude", name) :: parsed.options } =
      { lintOptions parsed with exclude := name :: (lintOptions parsed).exclude } := by
  simp [lintOptions]

theorem parse?_exclude (name : String) {rest : List String} {options : LintOptions}
    (h : parse? ("lint" :: rest) = some (.lint options)) :
    parse? ("lint" :: "--exclude" :: name :: rest) =
      some (.lint { options with exclude := name :: options.exclude }) := by
  rw [parse?_lint] at h
  obtain ⟨parsed, hread, hparsed⟩ := Option.map_eq_some_iff.mp h
  rw [parse?_lint, readAll_exclude name hread, Option.map_some, lintOptions_exclude]
  have hsame : Parsed.asksHelp { parsed with options := ("exclude", name) :: parsed.options } =
      parsed.asksHelp := rfl
  rw [hsame]
  split at hparsed
  · cases hparsed
  · rename_i hhelp
    obtain rfl : lintOptions parsed = options := Command.lint.inj hparsed
    rw [if_neg hhelp]

/-- Names in options of their own are left out besides those that are there. -/
theorem parse?_excludeOptions (names : List String) {rest : List String} {options : LintOptions}
    (h : parse? ("lint" :: rest) = some (.lint options)) :
    parse? ("lint" :: (excludeOptions names ++ rest)) =
      some (.lint { options with exclude := names ++ options.exclude }) := by
  induction names with
  | nil => exact h
  | cons name names ih => exact parse?_exclude name ih

/-! Runs that leave out the same names -/

variable {session : Session} {w : Workspace} {settled settled' : Environment}

/-- The statements of the settings file of a run. -/
def statements? (w : Workspace) : Option (List Settings.Assignment) :=
  Settings.assignments? w.files w.cwd ⟨"", [Settings.fileName]⟩

theorem loadSettings_eq (w : Workspace) (environment : Environment) :
    loadSettings w environment =
      match statements? w with
      | some list =>
        match Settings.extend environment list with
        | (none, settled) => .ok settled
        | (some fault, _) => .error fault
      | none => .error .notText := by
  rw [loadSettings, Settings.load_eq, statements?]
  cases Settings.assignments? w.files w.cwd ⟨"", [Settings.fileName]⟩ <;> rfl

theorem loadSettings_eq_ok {environment settled : Environment}
    (h : loadSettings w environment = .ok settled) :
    ∃ list, statements? w = some list ∧ Settings.extend environment list = (none, settled) := by
  rw [loadSettings_eq] at h
  split at h
  · rename_i list hlist
    split at h
    · rename_i hextend
      exact ⟨list, hlist, by rw [hextend, Except.ok.inj h]⟩
    · cases h
  · cases h

/-- The form of output depends on nothing but the word that is asked for, or else one variable. -/
theorem chooseFormat_congr {wanted : Option String} (h : wanted.getD "" ≠ "" ∨
    Ledger.get? Settings.formatVariable settled = Ledger.get? Settings.formatVariable settled') :
    chooseFormat settled wanted = chooseFormat settled' wanted := by
  rcases h with hwanted | hsame
  · cases wanted with
    | none => exact absurd rfl hwanted
    | some word =>
      have hne : word ≠ "" := hwanted
      unfold chooseFormat
      split
      · rename_i hnone
        cases hnone
      · rename_i hempty
        exact absurd (Option.some.inj hempty) hne
      · rfl
  · have hformat : Settings.format settled = Settings.format settled' := by
      simp only [Settings.format, Settings.value, hsame]
    unfold chooseFormat
    rw [hformat]

/-- Without a cache a run depends on its settings through the form of output and the files that are
found. -/
theorem runLint_congr (options options' : LintOptions)
    (hpaths : options.paths = options'.paths) (hquiet : options.quiet = options'.quiet)
    (hcache : options.noCache = true) (hcache' : options'.noCache = true)
    (hformat : chooseFormat settled options.format = chooseFormat settled' options'.format)
    (hfound : found w settled options = found w settled' options') :
    runLint session w settled options = runLint session w settled' options' := by
  have htargets : targets w options = targets w options' := by rw [targets, targets, hpaths]
  cases hchosen : chooseFormat settled options.format with
  | error message =>
    rw [runLint_of_error hchosen, runLint_of_error (hformat ▸ hchosen)]
  | ok format =>
    have hchosen' : chooseFormat settled' options'.format = .ok format := hformat ▸ hchosen
    cases hfind : (targets w options).find? fun target => !w.files.has w.cwd target with
    | some target =>
      rw [runLint_of_missing options hchosen hfind,
        runLint_of_missing options' hchosen' (htargets ▸ hfind)]
    | none =>
      rw [runLint_of_present options hchosen hfind,
        runLint_of_present options' hchosen' (htargets ▸ hfind), hcache, hcache']
      simp only [Bool.not_true, Bool.and_false, Bool.false_eq_true, if_false, hquiet]
      exact congrArg (fun files => lintFiles session format options'.quiet files w none) hfound

/-- Without a cache, what is found decides what is reported. -/
theorem inspect_congr (options options' : LintOptions) (hcache : options.noCache = true)
    (hcache' : options'.noCache = true)
    (hfound : found w settled options = found w settled' options') :
    inspect w settled options = inspect w settled' options' := by
  have hplain : ∀ {settled : Environment} {options : LintOptions}, options.noCache = true →
      ¬ UsesCache settled options := by
    rintro settled options hcache ⟨-, huse⟩
    rw [hcache] at huse
    cases huse
  rw [inspect_without_cache (hplain hcache), inspect_without_cache (hplain hcache'), hfound]

theorem exit_eq_of_refused {options : LintOptions} (h : Refused w settled options)
    {transcript : Transcript} (hrun : (runLint session w settled options).1 = .ok transcript) :
    transcript.exit = 2 := by
  obtain ⟨-, message, -, hrefusal⟩ := runLint_of_refused session h
  rw [hrun] at hrefusal
  cases hrefusal
  rfl

/-- The same files are found if the same names are left out. -/
theorem found_congr (w : Workspace) (options options' : LintOptions)
    (hpaths : options.paths = options'.paths)
    (h : ∀ name, name ∈ Settings.excluded settled ++ options.exclude ↔
      name ∈ Settings.excluded settled' ++ options'.exclude) :
    found w settled options = found w settled' options' := by
  have htargets : targets w options = targets w options' := by rw [targets, targets, hpaths]
  rw [found, found, htargets]
  exact Files.discover_congr h w.files w.cwd _

/-- Runs that find the same files end with the same status, if both choose a form of output that
exists or neither does. -/
theorem exit_eq_of_found (options options' : LintOptions) (hpaths : options.paths = options'.paths)
    (hcache : options.noCache = true) (hcache' : options'.noCache = true)
    (hfound : found w settled options = found w settled' options')
    (hvalid : formatWord settled options.format ∈ Format.all.map Format.name ↔
      formatWord settled' options'.format ∈ Format.all.map Format.name)
    {a b : Transcript} (ha : (runLint session w settled options).1 = .ok a)
    (hb : (runLint session w settled' options').1 = .ok b) : a.exit = b.exit := by
  have hrefused : Refused w settled options ↔ Refused w settled' options' := by
    rw [Refused, Refused, hvalid, targets, targets, hpaths]
  by_cases h : Refused w settled options
  · rw [exit_eq_of_refused h ha, exit_eq_of_refused (hrefused.mp h) hb]
  · obtain ⟨-, format, -, hfirst⟩ := runLint_of_accepted session h
    obtain ⟨-, format', -, hsecond⟩ := runLint_of_accepted session (mt hrefused.mpr h)
    rw [inspect_congr options options' hcache hcache' hfound] at hfirst
    exact hfirst.exit_eq hsecond ha hb

/-- What the variable and the options leave out together. -/
theorem found_of_spells (w : Workspace) (options : LintOptions) {named given all : List String}
    {text : String} (hnames : ∀ name ∈ named, Listable name) (hspells : Spells named text)
    (hall : ∀ name, name ∈ all ↔ name ∈ named ∨ name ∈ given)
    (hset : Ledger.get? excludeVariable settled = some text)
    (hunset : Ledger.get? excludeVariable settled' = none) :
    found w settled { options with exclude := given } =
      found w settled' { options with exclude := all } := by
  apply found_congr w { options with exclude := given } { options with exclude := all } rfl
  intro name
  rw [Settings.excluded_of_spells hnames hspells hset, Settings.excluded_of_unset hunset,
    List.nil_append, List.mem_append]
  exact (hall name).symm

/-- Runs of which the settings are refused alike, or else make no difference, are the same. -/
theorem runArguments_congr {environment environment' : Environment} {first second : List String}
    {options options' : LintOptions} (hfirst : parse? first = some (.lint options))
    (hsecond : parse? second = some (.lint options'))
    (hfaults : ∀ fault, loadSettings w environment = .error fault ↔
      loadSettings w environment' = .error fault)
    (hsame : ∀ settled settled', loadSettings w environment = .ok settled →
      loadSettings w environment' = .ok settled' →
      runLint session w settled options = runLint session w settled' options') :
    runArguments session w environment first = runArguments session w environment' second := by
  cases hload : loadSettings w environment with
  | error fault => simp only [runArguments, hfirst, hsecond, run, hload, (hfaults fault).mp hload]
  | ok settled =>
    cases hload' : loadSettings w environment' with
    | error fault =>
      rw [(hfaults fault).mpr hload'] at hload
      cases hload
    | ok settled' =>
      rw [runArguments_of_settled hfirst hload, runArguments_of_settled hsecond hload']
      exact hsame settled settled' hload hload'

/-- Settings that neither refer to the variable nor set it are loaded alike whatever its value is. -/
theorem agree_of_not_refersTo {environment : Environment} (text : String)
    (hrefers : ∀ list, statements? w = some list → ¬ RefersTo list excludeVariable)
    (hunset : ∀ list, statements? w = some list → Ledger.get? excludeVariable environment = none ∧
      (Ledger.get? excludeVariable (Settings.evaluate environment list)).join = none) :
    (∀ fault, loadSettings w (Ledger.put excludeVariable text environment) = .error fault ↔
      loadSettings w environment = .error fault) ∧
    ∀ settled settled', loadSettings w (Ledger.put excludeVariable text environment) = .ok settled →
      loadSettings w environment = .ok settled' →
      Ledger.get? Settings.formatVariable settled = Ledger.get? Settings.formatVariable settled' := by
  rw [loadSettings_eq, loadSettings_eq]
  cases hstatements : statements? w with
  | none => simp
  | some list =>
    obtain ⟨-, hgives⟩ := hunset list hstatements
    obtain ⟨hfault, hagree⟩ :=
      (agreeBut_put excludeVariable text environment).extend (hrefers list hstatements) hgives
    have hformat := hagree Settings.formatVariable (by decide)
    revert hfault hformat
    dsimp only
    rcases Settings.extend (Ledger.put excludeVariable text environment) list with ⟨fault, settled⟩
    rcases Settings.extend environment list with ⟨fault', settled'⟩
    rintro rfl hformat
    cases fault with
    | some fault => simp
    | none =>
      refine ⟨by simp, ?_⟩
      rintro _ _ ⟨⟩ ⟨⟩
      exact hformat

end Command

open Command Settings in
/-- Names in the variable, in whatever spelling, and names in options are left out alike. One run has
some names in the variable and the others as options, the other run has the variable unset and all
names as options, in any order and as often as one likes. Both check the same files with the same
result, and their exit status is the same if the form of output exists in both or in neither. If that
is asked for and the settings are refused alike, or if the settings file does not refer to the variable,
the runs are the same altogether. -/
theorem exclusions_agree (session : Session) (w : Workspace) (environment : Environment)
    (options : LintOptions) {first second named given all : List String} {text : String}
    (hfirst : parse? first = some (.lint { options with exclude := given }))
    (hsecond : parse? second = some (.lint { options with exclude := all }))
    (hcache : options.noCache = true) (hnames : ∀ name ∈ named, Listable name)
    (hspells : Spells named text) (hall : ∀ name, name ∈ all ↔ name ∈ named ∨ name ∈ given)
    (hunset : ∀ list, statements? w = some list → Ledger.get? excludeVariable environment = none ∧
      (Ledger.get? excludeVariable (evaluate environment list)).join = none) :
    (∀ settled settled', loadSettings w (Ledger.put excludeVariable text environment) = .ok settled →
      loadSettings w environment = .ok settled' →
      inspect w settled { options with exclude := given } =
        inspect w settled' { options with exclude := all } ∧
      ((formatWord settled options.format ∈ Format.all.map Format.name ↔
          formatWord settled' options.format ∈ Format.all.map Format.name) →
        ∀ a b, (runArguments session w (Ledger.put excludeVariable text environment) first).1 = .ok a →
          (runArguments session w environment second).1 = .ok b → a.exit = b.exit)) ∧
    ((options.format.getD "" ≠ "" ∧
          (∀ fault, loadSettings w (Ledger.put excludeVariable text environment) = .error fault ↔
            loadSettings w environment = .error fault) ∨
        ∀ list, statements? w = some list → ¬ RefersTo list excludeVariable) →
      runArguments session w (Ledger.put excludeVariable text environment) first =
        runArguments session w environment second) := by
  have hset : Ledger.get? excludeVariable (Ledger.put excludeVariable text environment) = some text :=
    Ledger.get?_put_self _ _ _
  have hfound : ∀ settled settled',
      loadSettings w (Ledger.put excludeVariable text environment) = .ok settled →
      loadSettings w environment = .ok settled' →
      found w settled { options with exclude := given } =
        found w settled' { options with exclude := all } := by
    intro settled settled' hload hload'
    obtain ⟨list, -, hextend⟩ := loadSettings_eq_ok hload
    obtain ⟨list', hlist', hextend'⟩ := loadSettings_eq_ok hload'
    have hthere := get?_extend_of_some hset list
    rw [hextend] at hthere
    have hmissing := get?_extend_of_none (hunset list' hlist').1 (hunset list' hlist').2
    rw [hextend'] at hmissing
    exact found_of_spells w options hnames hspells hall hthere hmissing
  constructor
  · intro settled settled' hload hload'
    have hfound := hfound settled settled' hload hload'
    rw [runArguments_of_settled hfirst hload, runArguments_of_settled hsecond hload']
    constructor
    · exact inspect_congr { options with exclude := given } { options with exclude := all } hcache
        hcache hfound
    · intro hvalid a b
      exact exit_eq_of_found { options with exclude := given } { options with exclude := all } rfl
        hcache hcache hfound hvalid
  · intro hformat
    -- the settings are refused in both runs or in neither, and they agree on the form of output
    obtain ⟨hfaults, hagree⟩ : (∀ fault, loadSettings w (Ledger.put excludeVariable text environment) =
          .error fault ↔ loadSettings w environment = .error fault) ∧
        ∀ settled settled', loadSettings w (Ledger.put excludeVariable text environment) = .ok settled →
          loadSettings w environment = .ok settled' → options.format.getD "" ≠ "" ∨
            Ledger.get? formatVariable settled = Ledger.get? formatVariable settled' := by
      rcases hformat with ⟨hword, hfaults⟩ | hrefers
      · exact ⟨hfaults, fun _ _ _ _ => Or.inl hword⟩
      · obtain ⟨hfaults, hsame⟩ := agree_of_not_refersTo text hrefers hunset
        exact ⟨hfaults, fun settled settled' hload hload' => Or.inr (hsame settled settled' hload hload')⟩
    refine runArguments_congr hfirst hsecond hfaults fun settled settled' hload hload' => ?_
    exact runLint_congr { options with exclude := given } { options with exclude := all } rfl rfl
      hcache hcache (chooseFormat_congr (hagree settled settled' hload hload'))
      (hfound settled settled' hload hload')

/-- A source in a directory of its own. -/
def generatedSource : Files where
  entries := [([], .directory default), (["generated"], .directory default),
    (["generated", "a.js"], .file (.bytes "useMutation()".toUTF8) default)]
  clock := 0

open Command Settings in
/-- A padded name in the variable, and the same name in two options. -/
theorem padded_name_leaves_out :
    runArguments ⟨.attached "utf-8" 80, "0.00"⟩ ⟨generatedSource, [], "", .standard⟩
        [(excludeVariable, " , generated ,")] ["lint", "--no-cache", "-f", "json"] =
      runArguments ⟨.attached "utf-8" 80, "0.00"⟩ ⟨generatedSource, [], "", .standard⟩ []
        ["lint", "--exclude", "generated", "--exclude", "generated", "--no-cache", "-f", "json"] := by
  have hfirst : parse? ["lint", "--no-cache", "-f", "json"] =
      some (.lint { format := some "json", noCache := true }) := by decide +kernel
  have hsecond := parse?_excludeOptions ["generated", "generated"] hfirst
  have hname : Listable "generated" := by
    refine ⟨by decide, by decide, ?_, ?_⟩
    all_goals
      rintro c ⟨⟩
      rfl
  have hblank : Text.Blank [' '] := by
    intro c hc
    obtain rfl := List.mem_singleton.mp hc
    decide
  have hspells : Spells ["generated"] " , generated ," :=
    ⟨[[' '], [' '] ++ "generated".toList ++ [' '], []],
      .blank hblank (.name hblank hblank fields_empty), by decide⟩
  have hempty : statements? ⟨generatedSource, [], "", .standard⟩ = some [] := rfl
  have hunset : ∀ list, statements? ⟨generatedSource, [], "", .standard⟩ = some list →
      Ledger.get? excludeVariable ([] : Environment) = none ∧
        (Ledger.get? excludeVariable (evaluate [] list)).join = none := by
    intro list hlist
    obtain rfl := Option.some.inj (hempty.symm.trans hlist)
    exact ⟨rfl, rfl⟩
  have hagree := exclusions_agree ⟨.attached "utf-8" 80, "0.00"⟩ ⟨generatedSource, [], "", .standard⟩ []
    { format := some "json", noCache := true } hfirst hsecond rfl (by simpa using hname) hspells
    (by simp) hunset
  have hload : ∀ environment, loadSettings ⟨generatedSource, [], "", .standard⟩ environment =
      .ok environment := fun _ => rfl
  exact hagree.2 (Or.inl ⟨by decide, fun fault => by rw [hload, hload]; simp⟩)

/-- A settings file in which the form of output depends on the variable. -/
def referringSettings : Files where
  entries := [([], .directory default), ([".env"], .file (.bytes
    "MUTATION_GUARD_FORMAT=$\x7bMUTATION_GUARD_EXCLUDE:-json\x7d".toUTF8) default)]
  clock := 0

/-- A settings file in which a value can be set only if the variable is. -/
def refusedDefault : Files where
  entries := [([], .directory default), ([".env"], .file (.bytes
    "A=$\x7bMUTATION_GUARD_EXCLUDE:-\x00\x7d".toUTF8) default)]
  clock := 0

open Command Settings in
/-- The name in the variable is taken for a form of output, and the name in the option is not; and it
keeps settings from being refused. -/
theorem referring_settings_disagree :
    (loadSettings ⟨referringSettings, [], "", .standard⟩ []).toOption.map
      (Ledger.get? excludeVariable) = some none ∧
    (runArguments ⟨.attached "utf-8" 80, "0.00"⟩ ⟨referringSettings, [], "", .standard⟩
      [(excludeVariable, "generated")] ["lint", "--no-cache"]).1.toOption.map (·.exit) = some 2 ∧
    (runArguments ⟨.attached "utf-8" 80, "0.00"⟩ ⟨referringSettings, [], "", .standard⟩ []
      ["lint", "--no-cache", "--exclude", "generated"]).1.toOption.map (·.exit) = some 0 ∧
    (loadSettings ⟨refusedDefault, [], "", .standard⟩ [(excludeVariable, "generated")]).toOption.map
      (Ledger.get? "A") = some (some "generated") ∧
    loadSettings ⟨refusedDefault, [], "", .standard⟩ [] = .error .embeddedNul := by
  refine ⟨by decide +kernel, by decide +kernel, by decide +kernel, by decide +kernel, rfl⟩

end StaleQuery
