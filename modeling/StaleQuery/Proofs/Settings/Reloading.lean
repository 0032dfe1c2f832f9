import Mathlib.Data.List.DropRight
import StaleQuery.Proofs.Cache.Histories
import StaleQuery.Proofs.Settings.Loading

/-!
# What stays of settings that were loaded

Loading the settings file writes into the environment, and to forget that it was loaded does not take
that back, nor does it if the file is refused half way. Over any run a variable has the value it was
set to by hand, or else the one that it got from the first load since it was last set or unset. A file
that was changed between two loads counts for the variables that no load before has given a value to.
-/
namespace StaleQuery

/-- What may be done in a run: variables are set and unset by hand, files come and go, and the settings
are loaded and forgotten. -/
inductive Adjustment where
  | setVariable (name value : String)
  | unsetVariable (name : String)
  | operation (operation : Operation)
  | configure
  | reset

/-- Whether a variable is set or unset by hand. -/
def Adjustment.touches (name : String) : Adjustment → Bool
  | .setVariable other value => other = name && (Settings.setFault? other value).isNone
  | .unsetVariable other => other = name
  | .operation _ | .configure | .reset => false

/-- A moment of a run: a project and what is done in it. -/
structure Moment where
  project : Project
  adjustment : Adjustment

namespace Project

/-- The project after an adjustment, also after one that fails. -/
def adjust (p : Project) : Adjustment → Project
  | .setVariable name value => (p.setVariable name value).2
  | .unsetVariable name => p.unsetVariable name
  | .operation operation => p.after operation
  | .configure => p.configure.2
  | .reset => p.resetSettings

def adjustAll (p : Project) (adjustments : List Adjustment) : Project :=
  adjustments.foldl adjust p

def moments (p : Project) : List Adjustment → List Moment
  | [] => []
  | adjustment :: rest => ⟨p, adjustment⟩ :: (p.adjust adjustment).moments rest

theorem adjustAll_concat (p : Project) (adjustments : List Adjustment) (last : Adjustment) :
    p.adjustAll (adjustments ++ [last]) = (p.adjustAll adjustments).adjust last := by
  rw [adjustAll, List.foldl_append]
  rfl

theorem moments_concat (p : Project) (adjustments : List Adjustment) (last : Adjustment) :
    p.moments (adjustments ++ [last]) =
      p.moments adjustments ++ [⟨p.adjustAll adjustments, last⟩] := by
  induction adjustments generalizing p with
  | nil => rfl
  | cons adjustment rest ih =>
    rw [List.cons_append, moments, ih]
    rfl

/-- The statements of the settings file as it is; none, if it is not text. -/
def statements? (p : Project) : Option (List Settings.Assignment) :=
  Settings.assignments? p.files p.workspace.cwd ⟨"", [Settings.fileName]⟩

/-- The environment with the settings file as it is, and why it is loaded no further. -/
def loaded (p : Project) : Option Settings.SettingsFault × Environment :=
  match p.statements? with
  | some list => Settings.extend p.environment list
  | none => (some .notText, p.environment)

/-- The value that the settings file as it is gives a variable, before it is refused or to its end. -/
def given? (p : Project) (name : String) : Option String :=
  p.statements?.bind fun list => Settings.given? p.environment list name

end Project

namespace Settings

/-- The environment after an adjustment, if nothing were ever loaded. -/
def setByHand (environment : Environment) : Adjustment → Environment
  | .setVariable name value => (set environment name value).2
  | .unsetVariable name => Ledger.erase name environment
  | .operation _ | .configure | .reset => environment

def byHand (environment : Environment) (adjustments : List Adjustment) : Environment :=
  adjustments.foldl setByHand environment

/-- What has more values can be loaded too: a value is refused only where there is none yet. -/
theorem extend_complete {first second : Environment} {list : List Assignment}
    {left : String → Option String}
    (hfirst : ∀ name, Ledger.get? name first = (Ledger.get? name second).or (left name))
    (hvalues : evaluate first list = evaluate second list) (h : (extend second list).1 = none) :
    (extend first list).1 = none := by
  rw [extend_fault_eq_none_iff] at h ⊢
  rw [hvalues]
  rintro entry hentry ⟨hunset, hfault⟩
  rw [hfirst, Option.or_eq_none_iff] at hunset
  exact h entry hentry ⟨hunset.1, hfault⟩

/-- Where one environment has a value that the other lacks, the same values make them agree only if
they give this one. -/
theorem get?_extend_eq_iff {first second : Environment} {list : List Assignment} {name : String}
    {left : Option String} (hfirst : Ledger.get? name first = (Ledger.get? name second).or left)
    (hgiven : given? first list name = given? second list name) :
    Ledger.get? name (extend first list).2 = Ledger.get? name (extend second list).2 ↔
      (Ledger.get? name second = none → ∀ value ∈ left,
        Ledger.get? name (extend second list).2 = some value) := by
  rw [get?_extend, get?_extend, hgiven, hfirst]
  cases Ledger.get? name second with
  | some value => simp
  | none =>
    cases left with
    | none => simp
    | some value => simp [eq_comm]

/-- Everything that is read from the environment. -/
def readings (environment : Environment) : List String × Bool × String × Except String Format :=
  (excluded environment, cacheEnabled environment, cacheDirectory environment, format environment)

theorem readings_congr {first second : Environment}
    (h : ∀ name ∈ names, Ledger.get? name first = Ledger.get? name second) :
    readings first = readings second := by
  have hvalue : ∀ name ∈ names, value first name = value second name := by
    intro name hname
    funext default
    rw [value, value, h name hname]
  simp only [readings, excluded, cacheEnabled, cacheDirectory, format,
    hvalue excludeVariable (by simp [names]), hvalue cacheVariable (by simp [names]),
    hvalue cacheDirectoryVariable (by simp [names]), hvalue formatVariable (by simp [names])]

end Settings

/-- The value that a variable is given where the settings file is loaded. -/
def Moment.loaded? (m : Moment) (name : String) : Option String :=
  match m.adjustment with
  | .configure => if m.project.configured then none else m.project.given? name
  | _ => none

/-- The value that a variable was given first since it was last set or unset. -/
def firstLoaded? (moments : List Moment) (name : String) : Option String :=
  (moments.rtakeWhile fun m => !m.adjustment.touches name).findSome? (·.loaded? name)

theorem firstLoaded?_concat (moments : List Moment) (last : Moment) (name : String) :
    firstLoaded? (moments ++ [last]) name =
      if last.adjustment.touches name then none
      else (firstLoaded? moments name).or (last.loaded? name) := by
  cases htouches : last.adjustment.touches name with
  | true =>
    rw [firstLoaded?, List.rtakeWhile_concat_neg _ _ _ (by simp [htouches])]
    rfl
  | false =>
    rw [firstLoaded?, List.rtakeWhile_concat_pos _ _ _ (by simp [htouches]), List.findSome?_append]
    simp [firstLoaded?]

/-! One adjustment -/

namespace Project

open Settings (setByHand byHand extend)

variable {p : Project} {adjustment : Adjustment} {name : String}

/-- Nothing that is done to the files, the cache and the version reaches the environment. -/
theorem after_environment (p : Project) (operation : Operation) :
    (p.after operation).environment = p.environment := by
  cases operation with
  | write | setVersion | close => rfl
  | touch path time =>
    rw [after, touch]
    cases p.files.touch p.workspace.cwd path time <;> rfl
  | remove path =>
    rw [after, remove]
    cases p.files.remove p.workspace.cwd path <;> rfl
  | store path value =>
    rw [after, cacheSet]
    cases p.workspace.store p.currentHandle path value <;> rfl
  | clear =>
    rw [after, cacheClear]
    cases p.files.setRows p.currentHandle [] <;> rfl
  | openAt directory =>
    rw [after, openCache]
    split <;> rfl

/-- Settings that are not loaded yet are loaded as far as they can be. -/
theorem configure_of_unloaded (h : p.configured = false) :
    p.configure.1 = p.loaded.1 ∧ p.configure.2.environment = p.loaded.2 := by
  have hload : p.loadFrom ⟨"", [Settings.fileName]⟩ =
      (p.loaded.1, { p with environment := p.loaded.2 }) := by
    simp only [loadFrom, Settings.load_eq]
    rfl
  rw [configure, if_neg (by simp [h]), hload]
  cases p.loaded.1 with
  | none => exact ⟨rfl, rfl⟩
  | some fault => exact ⟨rfl, rfl⟩

theorem get?_loaded (p : Project) (name : String) :
    Ledger.get? name p.loaded.2 = (Ledger.get? name p.environment).or (p.given? name) := by
  rw [loaded, given?]
  cases p.statements? with
  | none => rw [Option.bind_none, Option.or_none]
  | some list => exact Settings.get?_extend p.environment list name

theorem get?_adjust_configure (p : Project) (name : String) :
    Ledger.get? name (p.adjust .configure).environment =
      (Ledger.get? name p.environment).or ((Moment.mk p .configure).loaded? name) := by
  cases hconfigured : p.configured with
  | true => simp [adjust, configure, Moment.loaded?, hconfigured]
  | false =>
    rw [adjust, (configure_of_unloaded hconfigured).2, get?_loaded]
    simp [Moment.loaded?, hconfigured]

/-- What is done to other variables by hand, or fails, leaves a variable alone. -/
theorem get?_setByHand_of_not_touches (h : adjustment.touches name = false)
    (environment : Environment) :
    Ledger.get? name (setByHand environment adjustment) = Ledger.get? name environment := by
  cases adjustment with
  | setVariable other value =>
    rw [setByHand, Settings.set]
    cases hfault : Settings.setFault? other value with
    | some fault => rfl
    | none =>
      have hne : name ≠ other := by simpa [Adjustment.touches, hfault, eq_comm] using h
      exact Ledger.get?_put_of_ne hne value environment
  | unsetVariable other =>
    have hne : name ≠ other := by simpa [Adjustment.touches, eq_comm] using h
    exact Ledger.get?_erase_of_ne hne environment
  | operation | configure | reset => rfl

/-- What is not done to a variable by hand can only give it a value where it has none. -/
theorem get?_adjust_of_not_touches (h : adjustment.touches name = false) :
    Ledger.get? name (p.adjust adjustment).environment =
      (Ledger.get? name p.environment).or ((Moment.mk p adjustment).loaded? name) := by
  cases adjustment with
  | setVariable | unsetVariable =>
    simp only [Moment.loaded?, Option.or_none]
    exact get?_setByHand_of_not_touches h p.environment
  | operation operation => simp [adjust, after_environment, Moment.loaded?]
  | configure => exact get?_adjust_configure p name
  | reset => simp [adjust, resetSettings, Moment.loaded?]

/-- What is done to a variable by hand counts, whatever it was before. -/
theorem get?_adjust_of_touches (h : adjustment.touches name = true) (environment : Environment) :
    Ledger.get? name (p.adjust adjustment).environment =
      Ledger.get? name (setByHand environment adjustment) := by
  cases adjustment with
  | setVariable other value =>
    simp only [Adjustment.touches, Bool.and_eq_true, decide_eq_true_eq, Option.isNone_iff_eq_none] at h
    obtain ⟨rfl, hfault⟩ := h
    simp [adjust, setVariable, setByHand, Settings.set, hfault, Ledger.get?_put_self]
  | unsetVariable other =>
    obtain rfl : other = name := by simpa [Adjustment.touches] using h
    simp [adjust, unsetVariable, setByHand, Ledger.get?_erase_self]
  | operation | configure | reset => simp [Adjustment.touches] at h

/-! Any run -/

/-- A variable has the value it was set to by hand, or else the one it was given first since. -/
theorem get?_adjustAll (start : Project) (adjustments : List Adjustment) (name : String) :
    Ledger.get? name (start.adjustAll adjustments).environment =
      (Ledger.get? name (byHand start.environment adjustments)).or
        (firstLoaded? (start.moments adjustments) name) := by
  induction adjustments using List.reverseRecOn with
  | nil => simp [adjustAll, byHand, moments, firstLoaded?]
  | append_singleton adjustments last ih =>
    have hhand : byHand start.environment (adjustments ++ [last]) =
        setByHand (byHand start.environment adjustments) last := by
      rw [byHand, List.foldl_append]
      rfl
    rw [adjustAll_concat, moments_concat, firstLoaded?_concat, hhand]
    -- on the variable itself the past is forgotten on both sides; anything else only fills a gap
    cases htouches : last.touches name with
    | true => rw [get?_adjust_of_touches htouches, if_pos rfl, Option.or_none]
    | false =>
      rw [get?_adjust_of_not_touches htouches, get?_setByHand_of_not_touches htouches, ih,
        if_neg (by simp), Option.or_assoc]

end Project

open Project Settings in
/-- Loading the settings again fails if their file is not text or if it gives a variable that has no
value one that cannot be set. In any case a variable has the value it was set to by hand, or else the
one that was loaded first since it was last set or unset, which may be by this load. Where the file
could be loaded on top of what was done by hand, and no value in it refers to a variable that is there
only because it was loaded, a variable is as by hand and by the file exactly if no load before has given
it another value. -/
theorem first_load_counts (start : Project) (adjustments : List Adjustment) :
    let p := start.adjustAll adjustments
    let hand := byHand start.environment adjustments
    let before? := firstLoaded? (start.moments adjustments)
    let again := p.resetSettings.configure
    (again.1 = none ↔ ∃ list, p.statements? = some list ∧
      ∀ entry ∈ evaluate p.environment list, ¬ Refuses p.environment entry) ∧
    (∀ name, Ledger.get? name again.2.environment =
      (Ledger.get? name hand).or ((before? name).or (p.given? name))) ∧
    ∀ list, p.statements? = some list → (extend hand list).1 = none →
      (∀ name, RefersTo list name → Ledger.get? name p.environment = Ledger.get? name hand) →
        again.1 = none ∧
        (∀ name, Ledger.get? name again.2.environment = Ledger.get? name (extend hand list).2 ↔
          (Ledger.get? name hand = none → ∀ value ∈ before? name,
            Ledger.get? name (extend hand list).2 = some value)) ∧
        ((∀ name ∈ names, Ledger.get? name hand = none → ∀ value ∈ before? name,
            Ledger.get? name (extend hand list).2 = some value) →
          readings again.2.environment = readings (extend hand list).2) := by
  intro p hand before? again
  obtain ⟨hfault, henvironment⟩ : again.1 = p.loaded.1 ∧ again.2.environment = p.loaded.2 :=
    configure_of_unloaded (p := p.resetSettings) rfl
  have hvalues : ∀ name, Ledger.get? name p.environment =
      (Ledger.get? name hand).or (before? name) :=
    get?_adjustAll start adjustments
  refine ⟨?_, fun name => ?_, fun list hlist hhand hrefers => ?_⟩
  · rw [hfault, loaded]
    cases p.statements? with
    | none => simp
    | some list => simpa using extend_fault_eq_none_iff p.environment list
  · rw [henvironment, get?_loaded, hvalues, Option.or_assoc]
  · have hloaded : p.loaded = extend p.environment list := by rw [loaded, hlist]
    have hsame : evaluate p.environment list = evaluate hand list := evaluate_congr hrefers
    have hcomplete : (extend p.environment list).1 = none := extend_complete hvalues hsame hhand
    have hgiven : ∀ name, Settings.given? p.environment list name = Settings.given? hand list name :=
      fun name => by rw [given?_of_complete hcomplete, given?_of_complete hhand, hsame]
    have hagree := fun name => get?_extend_eq_iff (hvalues name) (hgiven name)
    rw [hfault, henvironment, hloaded]
    exact ⟨hcomplete, hagree, fun hnames => readings_congr fun name hname =>
      (hagree name).mpr (hnames name hname)⟩

namespace Project

def saving (text : String) : Adjustment :=
  .operation (.write ⟨"", [Settings.fileName]⟩ text.toUTF8 ⟨0⟩)

/-- Of two variables that were loaded one is unset before the file is changed in it alone. -/
def unsetBetween : List Adjustment :=
  [saving "MUTATION_GUARD_CACHE_DIR=a\nMUTATION_GUARD_FORMAT=json", .configure,
    .unsetVariable Settings.cacheDirectoryVariable,
    saving "MUTATION_GUARD_CACHE_DIR=b\nMUTATION_GUARD_FORMAT=json"]

def rewritten : List Adjustment :=
  [saving "MUTATION_GUARD_CACHE_DIR=a", .configure, saving "MUTATION_GUARD_CACHE_DIR=b"]

end Project

open Project Settings in
theorem unset_variable_reloaded :
    (vacant.adjustAll unsetBetween).statements? =
      some [(cacheDirectoryVariable, some "b"), (formatVariable, some "json")] ∧
    (vacant.adjustAll unsetBetween).resetSettings.configure.1 = none ∧
    readings (vacant.adjustAll unsetBetween).resetSettings.configure.2.environment =
      ([], true, "b", .ok .json) := by
  have hlist : (vacant.adjustAll unsetBetween).statements? =
      some [(cacheDirectoryVariable, some "b"), (formatVariable, some "json")] := by decide +kernel
  have hrefers : ∀ name, ¬ RefersTo
      [(cacheDirectoryVariable, some "b"), (formatVariable, some "json")] name := by
    rintro name ⟨given, value, hmem, hname⟩
    simp only [List.mem_cons, List.not_mem_nil, or_false, Prod.mk.injEq, Option.some.injEq] at hmem
    rcases hmem with ⟨-, rfl⟩ | ⟨-, rfl⟩
    · cases hname
    · cases hname
  obtain ⟨hfault, -, hread⟩ := (first_load_counts vacant unsetBetween).2.2 _ hlist
    (by decide +kernel) fun name hname => absurd hname (hrefers name)
  refine ⟨hlist, hfault, ?_⟩
  rw [hread (by decide +kernel)]
  decide +kernel

open Project Settings in
/-- The directory that was loaded first is read, and not the one in the file. -/
theorem earlier_file_outlives_reset :
    cacheDirectory (vacant.adjustAll rewritten).resetSettings.configure.2.environment = "a" ∧
    (vacant.adjustAll rewritten).statements?.map (fun list =>
      cacheDirectory (extend (byHand vacant.environment rewritten) list).2) = some "b" := by
  refine ⟨by decide +kernel, by decide +kernel⟩

end StaleQuery
