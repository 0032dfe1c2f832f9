import StaleQuery.Proofs.Cache.Transparency

/-!
# Runs that share a cache

Checking a file through a cache looks the file up, reads and checks it, and stores the result under
the key that the file has by then. Several such runs go on at the same time, and others write files
in between. Even if no content of a file ever had the key of another one, a file that is written
after it was read and before the result is stored ends up with the result of the old content under
the key of the new one. What is looked up is right all along exactly if this never happens.
-/
namespace StaleQuery

/-- How far a run has got. -/
inductive Stage where
  | begun
  | missed
  | checked (records : List Record)
  | ended (result : Except LintFault (List Record))

/-- Checking one file through the cache. -/
structure Run where
  path : Path
  stage : Stage

namespace Run

/-- Looks the file up. -/
def get (p : Project) (r : Run) : Run :=
  match r.stage with
  | .begun =>
    match p.cacheGet r.path with
    | .error fault => { r with stage := .ended (.error (.cache fault)) }
    | .ok none => { r with stage := .missed }
    | .ok (some value) => { r with stage := .ended ((Record.listOfJson value).mapError .record) }
  | _ => r

/-- Reads and checks the file. -/
def lint (p : Project) (r : Run) : Run :=
  match r.stage with
  | .missed =>
    { r with stage := .checked ((p.workspace.lintFile true r.path).map Diagnostic.record) }
  | _ => r

/-- Stores the result. -/
def set (p : Project) (r : Run) : Project × Run :=
  match r.stage with
  | .checked records =>
    match p.cacheSet r.path (Record.listToJson records) with
    | .ok q => (q, { r with stage := .ended (.ok records) })
    | .error fault => (p, { r with stage := .ended (.error (.cache fault)) })
  | _ => (p, r)

/-- A run that nothing comes between is checking through the cache. -/
theorem set_lint_get {p : Project} {handle : Handle} (h : p.handle = some handle) (path : Path) :
    set p (lint p (get p ⟨path, .begun⟩)) =
      ((p.lintCached path).2, ⟨path, .ended (p.lintCached path).1⟩) := by
  obtain ⟨w, environment, configured, _⟩ := p
  subst h
  simp only [get, Project.cacheGet, Project.currentHandle, Option.getD_some, Project.lintCached,
    Workspace.lintCached]
  cases w.stored? handle path with
  | error fault => rfl
  | ok found =>
    cases found with
    | some value =>
      dsimp only
      cases Record.listOfJson value with
      | error fault => rfl
      | ok records => rfl
    | none =>
      simp only [lint, set, Project.cacheSet, Project.currentHandle, Option.getD_some,
        Workspace.lintAndStore, bind, Except.bind]
      cases w.store handle path (Record.listToJson
        ((w.lintFile true path).map Diagnostic.record)) with
      | error fault => rfl
      | ok w => rfl

end Run

/-- A project in which runs are under way. -/
structure Concurrent where
  project : Project
  runs : List Run := []

/-- A step of some run, or somebody else writes a file. -/
inductive Action where
  | start (text : String)
  | get (i : Nat)
  | lint (i : Nat)
  | set (i : Nat)
  | write (text : String) (data : ByteArray) (time : Time)

namespace Project

/-- What the cache has for a path is what checking the file as it is gives. -/
def HitsRight (p : Project) : Prop :=
  ∀ text, IsAbsolute text → ∀ value, p.cacheGet (Path.ofString text) = .ok (some value) →
    value = Record.listToJson
      ((p.workspace.lintFile true (Path.ofString text)).map Diagnostic.record)

/-- No other content of the file has had this size, and this time as it is printed. -/
def Unseen (past : List Project) (text : String) (data : ByteArray) (time : Time) : Prop :=
  ∀ q ∈ past, ∀ e ∈ q.files.get? (Files.resolve q.workspace.cwd (Path.ofString text)),
    e.isDirectory = false → e.modified.text = time.text → e.size = data.size →
      e.holding = .bytes data

instance (past : List Project) (text : String) (data : ByteArray) (time : Time) :
    Decidable (Unseen past text data time) :=
  inferInstanceAs (Decidable (∀ q ∈ past, _))

end Project

namespace Concurrent

def next (s : Concurrent) : Action → Concurrent
  | .start text => { s with runs := s.runs ++ [⟨Path.ofString text, .begun⟩] }
  | .get i =>
    match s.runs[i]? with
    | some r => { s with runs := s.runs.set i (r.get s.project) }
    | none => s
  | .lint i =>
    match s.runs[i]? with
    | some r => { s with runs := s.runs.set i (r.lint s.project) }
    | none => s
  | .set i =>
    match s.runs[i]? with
    | some r => ⟨(r.set s.project).1, s.runs.set i (r.set s.project).2⟩
    | none => s
  | .write text data time =>
    { s with project := (s.project.write (Path.ofString text) data time).2 }

def states (s : Concurrent) : List Action → List Concurrent
  | [] => [s]
  | action :: rest => s :: (s.next action).states rest

/-- Paths are absolute, and what is written by hand is neither the cache nor to be taken for what
was there before. -/
def Enabled (past : List Project) (s : Concurrent) : Action → Prop
  | .start text => Project.IsAbsolute text
  | .write text data time => Project.IsAbsolute text ∧ s.project.SparesCache text ∧
      Project.Unseen (s.project :: past) text data time
  | .get _ | .lint _ | .set _ => True

def EnabledRun (past : List Project) (s : Concurrent) : List Action → Prop
  | [] => True
  | action :: rest =>
    s.Enabled past action ∧ (s.next action).EnabledRun (s.project :: past) rest

/-- What is stored for a file that is there is what checking it gives by then. -/
def Timely (s : Concurrent) : Action → Prop
  | .set i => ∀ r ∈ s.runs[i]?, ∀ records, r.stage = .checked records →
      ∀ e, s.project.files.entry s.project.workspace.cwd r.path = .ok e →
        records = (s.project.workspace.lintFile true r.path).map Diagnostic.record
  | _ => True

def TimelyRun (s : Concurrent) : List Action → Prop
  | [] => True
  | action :: rest => s.Timely action ∧ (s.next action).TimelyRun rest

end Concurrent

/-! Telling contents apart -/

namespace Project

/-- What a place holds is told by the time as it is printed and the size. -/
def Told (all : List Project) : Prop :=
  ∀ p ∈ all, ∀ q ∈ all, ∀ place e f, p.files.get? place = some e → q.files.get? place = some f →
    e.modified.text = f.modified.text → e.size = f.size → e.holding = f.holding

variable {tools : Toolchain} {p q : Project} {past : List Project} {cache : Location}

theorem Told.distinguished (h : Told past) : Distinguished past := by
  intro p hp q hq text htext e f he hf _ htime hsize
  obtain ⟨place, hplace, hother⟩ := Files.place_of_entries (Path.rooted_ofString htext) he hf
  exact h p hp q hq place e f hplace hother htime hsize

theorem Told.cons (h : Told past) (hnew : ∀ q ∈ past, ∀ place e f, q.files.get? place = some e →
      p.files.get? place = some f → e.modified.text = f.modified.text → e.size = f.size →
      e.holding = f.holding) : Told (p :: past) := by
  intro a ha b hb place e f he hf htime hsize
  rcases List.mem_cons.mp ha with rfl | hpast
  · rcases List.mem_cons.mp hb with rfl | hpast
    · obtain rfl := Option.some.inj (he.symm.trans hf)
      rfl
    · exact (hnew b hpast place f e hf he htime.symm hsize.symm).symm
  · rcases List.mem_cons.mp hb with rfl | hpast'
    · exact hnew a hpast place e f he hf htime hsize
    · exact h a hpast b hpast' place e f he hf htime hsize

/-- One project has come out of another, and the cache was there already. -/
structure Earlier (cache : Location) (q p : Project) : Prop where
  sound : q.files.Sound
  grows : Files.Grows (fun _ _ => True) q.files p.files
  store : ∃ rows t, q.files.get? cache = some (.file (.store rows) t)

/-- A step keeps contents apart if the files that it adds can be told from what was there. -/
theorem Told.step (h : Told past) (hearlier : ∀ q ∈ past, Earlier cache q p) (hp : p ∈ past)
    {New : Location → Entry → Prop} (hgrows : Files.Grows New p.files q.files)
    (hnew : ∀ place content t, New place (.file content t) → ∀ r ∈ past,
      ∀ e ∈ r.files.get? place, e.isDirectory = false → e.modified.text = t.text →
        e.size = content.size → e.holding = (Entry.file content t).holding) :
    Told (q :: past) := by
  refine h.cons fun r hr place e f he hf htime hsize => ?_
  have hall := (hearlier r hr).grows.trans (hgrows.mono fun _ _ _ => trivial)
  -- nothing is removed, so a directory stays one and a file does
  rcases e with ⟨s⟩ | ⟨old, s⟩
  · obtain ⟨t, hplace⟩ := hall.directory he
    obtain rfl := Option.some.inj (hplace.symm.trans hf)
    rfl
  · rcases f with ⟨t⟩ | ⟨content, t⟩
    · rcases hall.file (hearlier r hr).sound he with hplace | ⟨content, u, -, hplace⟩
      · cases hplace.symm.trans hf
      · cases hplace.symm.trans hf
    · rcases hgrows.file_origin (hearlier p hp).sound hf with hsame | hadded
      · exact h r hr p hp place _ _ he hsame htime hsize
      · exact hnew place content t hadded r hr _ he rfl htime hsize

theorem Invariant.mono {Known Other : String → Row → Prop} (h : p.Invariant tools Known)
    (himp : ∀ path row, Known path row → Other path row) : p.Invariant tools Other where
  tools := h.tools
  sound := h.sound
  holds place rows t hplace := by
    cases h.holds place rows t hplace with
    | mk hname hrows => exact .mk hname fun path row hrow => himp path row (hrows path row hrow)
  cwd := h.cwd
  handle := h.handle

theorem Recorded.cons {text : String} {row : Row} (h : Recorded tools past text row) :
    Recorded tools (p :: past) text row := by
  obtain ⟨q, hq, hrow⟩ := h
  exact ⟨q, List.mem_cons_of_mem _ hq, hrow⟩

theorem Invariant.store {Known : String → Row → Prop} (h : p.Invariant tools Known)
    (hhandle : p.handle = some (.live cache)) :
    ∃ rows t, p.files.get? cache = some (.file (.store rows) t) := by
  rcases h.handle _ hhandle with hclosed | ⟨place, rows, t, hlive, hplace⟩
  · cases hclosed
  · obtain rfl := Handle.live.inj hlive
    exact ⟨rows, t, hplace⟩

/-- Rows that are known as long as contents are told apart are right. -/
theorem Invariant.hitsRight (h : p.Invariant tools (Recorded tools past)) (htold : Told past)
    (hp : p ∈ past) (hhandle : p.handle = some (.live cache)) : p.HitsRight := by
  intro text htext value hvalue
  obtain ⟨rows, t, hplace⟩ := h.store hhandle
  have htrust : ∀ e, p.files.entry p.workspace.cwd (Path.ofString text) = .ok e →
      Trusts (Recorded tools past) p.workspace.tools p.workspace.version (Path.ofString text) e :=
    fun e he => h.tools ▸
      trusts_of_distinguished htold.distinguished hp (Path.rooted_ofString htext) he
  simp only [cacheGet, currentHandle, hhandle, Option.getD_some] at hvalue
  rcases Workspace.stored?_spec h.holds hplace htrust with hmiss | hhit
  · rw [hmiss] at hvalue
    cases hvalue
  · rw [hhit] at hvalue
    exact (Option.some.inj (Except.ok.inj hvalue)).symm

end Project

/-! Single steps of a run -/

/-- The path is absolute, and records that wait to be stored came from checking the file once. -/
structure Run.Sound (tools : Toolchain) (r : Run) : Prop where
  path : r.path.Rooted
  records : ∀ records, r.stage = .checked records →
    ∃ holding, records = (tools.verdict r.path holding).map Diagnostic.record

namespace Run

variable {tools : Toolchain} {r : Run} (h : r.Sound tools) (p : Project)
include h

theorem Sound.get : (r.get p).Sound tools := by
  unfold Run.get
  split
  · split
    · exact ⟨h.path, fun _ hstage => by cases hstage⟩
    · exact ⟨h.path, fun _ hstage => by cases hstage⟩
    · exact ⟨h.path, fun _ hstage => by cases hstage⟩
  · exact h

theorem Sound.lint (htools : p.workspace.tools = tools) : (r.lint p).Sound tools := by
  unfold Run.lint
  split
  · refine ⟨h.path, fun records hstage => ?_⟩
    obtain ⟨holding, hverdict⟩ := p.workspace.exists_verdict r.path
    exact ⟨holding, by rw [← Stage.checked.inj hstage, hverdict, htools]⟩
  · exact h

theorem Sound.set : (r.set p).2.Sound tools := by
  unfold Run.set
  split
  · split
    · exact ⟨h.path, fun _ hstage => by cases hstage⟩
    · exact ⟨h.path, fun _ hstage => by cases hstage⟩
  · exact h

end Run

namespace Concurrent

theorem sound_runs_next {tools : Toolchain} {s : Concurrent}
    (htools : s.project.workspace.tools = tools) (h : ∀ r ∈ s.runs, r.Sound tools)
    {past : List Project} {action : Action} (henabled : s.Enabled past action) :
    ∀ r ∈ (s.next action).runs, r.Sound tools := by
  have hset : ∀ {i : Nat} {r r' : Run}, s.runs[i]? = some r → (r.Sound tools → r'.Sound tools) →
      ∀ x ∈ s.runs.set i r', x.Sound tools := by
    intro i r r' hr hkeep x hx
    rcases List.mem_or_eq_of_mem_set hx with hx | rfl
    · exact h x hx
    · exact hkeep (h r (List.mem_of_getElem? hr))
  cases action with
  | start text =>
    intro r hr
    rcases List.mem_append.mp hr with hr | hr
    · exact h r hr
    · obtain rfl := List.mem_singleton.mp hr
      exact ⟨Path.rooted_ofString henabled, fun _ hstage => by cases hstage⟩
  | get i =>
    simp only [next]
    split
    · exact hset ‹_› fun hr => hr.get s.project
    · exact h
  | lint i =>
    simp only [next]
    split
    · exact hset ‹_› fun hr => hr.lint s.project htools
    · exact h
  | set i =>
    simp only [next]
    split
    · exact hset ‹_› fun hr => hr.set s.project
    · exact h
  | write => exact h

/-- A step writes a file by hand, stores what some run has found, or leaves the files alone. -/
theorem project_next (s : Concurrent) (action : Action) :
    (∃ text data time, action = .write text data time ∧
      (s.next action).project = (s.project.write (Path.ofString text) data time).2) ∨
    (∃ i r records, action = .set i ∧ s.runs[i]? = some r ∧ r.stage = .checked records ∧
      s.project.cacheSet r.path (Record.listToJson records) = .ok (s.next action).project) ∨
    (s.next action).project = s.project := by
  cases action with
  | write text data time => exact Or.inl ⟨text, data, time, rfl, rfl⟩
  | start => exact Or.inr (Or.inr rfl)
  | get i =>
    refine Or.inr (Or.inr ?_)
    simp only [next]
    split <;> rfl
  | lint i =>
    refine Or.inr (Or.inr ?_)
    simp only [next]
    split <;> rfl
  | set i =>
    refine Or.inr ?_
    simp only [next]
    split
    · rename_i r hr
      rcases hstage : r.stage with _ | _ | records | result
      case checked =>
        simp only [Run.set, hstage]
        cases hset : s.project.cacheSet r.path (Record.listToJson records) with
        | ok q => exact Or.inl ⟨i, r, records, rfl, hr, hstage, hset⟩
        | error fault => exact Or.inr rfl
      all_goals exact Or.inr (by simp only [Run.set, hstage])
    · exact Or.inr rfl

end Concurrent

/-! Storing -/

theorem Record.listToJson_injective {records others : List Record}
    (h : listToJson records = listToJson others) : records = others := by
  have hread := listOfJson_listToJson records
  rw [h, listOfJson_listToJson] at hread
  exact (Except.ok.inj hread).symm

theorem Toolchain.verdict_of_dialect? (tools : Toolchain) {path : Path} (h : path.dialect? = none)
    (holding : Holding) : tools.verdict path holding = [] := by
  unfold verdict
  rw [h]

/-- A row under the key of a file is found if its text spells a list. -/
theorem Workspace.stored?_of_row {w : Workspace} {path : Path} {e : Entry} {cache : Location}
    {rows : Store} {t : Time} {text : String} {items : List Json}
    (hentry : w.files.entry w.cwd path = .ok e)
    (hplace : w.files.get? cache = some (.file (.store rows) t))
    (hrow : Ledger.get? path.toString rows = some ⟨e.cacheKey w.version, text⟩)
    (hparse : Json.parse w.tools.limits text = .ok (.arr items)) :
    w.stored? (.live cache) path = .ok (some (.arr items)) := by
  simp only [stored?, cacheKey?_of_entry hentry, Files.rows_of_live hplace, bind, Except.bind,
    Store.lookup, hrow, if_true, hparse]
  rfl

namespace Project

variable {p q : Project} {cache : Location} {rows : Store} {t : Time} {path : Path} {value : Json}

/-- A path that leads nowhere has nothing stored. -/
theorem cacheSet_of_error {fault : FileFault}
    (hentry : p.files.entry p.workspace.cwd path = .error fault) :
    p.cacheSet path value = .ok p := by
  simp only [cacheSet, Workspace.store, Workspace.cacheKey?_of_error hentry, bind, Except.bind]
  rfl

theorem cacheSet_of_entry (hhandle : p.handle = some (.live cache))
    (hplace : p.files.get? cache = some (.file (.store rows) t)) {e : Entry}
    (hentry : p.files.entry p.workspace.cwd path = .ok e) :
    p.cacheSet path value = .ok (p.withFiles (p.files.put cache (.file
      (.store (rows.save path.toString (e.cacheKey p.workspace.version) value.line))
      (Time.ofSeconds p.files.clock 0)))) := by
  have hcurrent : p.currentHandle = .live cache := by rw [currentHandle, hhandle, Option.getD_some]
  have hrows : p.workspace.files.rows (.live cache) = .ok rows := Files.rows_of_live hplace
  have hset : ∀ after, p.workspace.files.setRows (.live cache) after = .ok (p.files.put cache
      (.file (.store after) (Time.ofSeconds p.files.clock 0))) := fun _ =>
    Files.setRows_of_live hplace
  simp only [cacheSet, hcurrent, Workspace.store, Workspace.cacheKey?_of_entry hentry, hrows, hset,
    bind, Except.bind]
  rfl

/-- Storing a result replaces the cache and nothing else. -/
theorem cacheSet_grows (hhandle : p.handle = some (.live cache))
    (hplace : p.files.get? cache = some (.file (.store rows) t))
    (hset : p.cacheSet path value = .ok q) :
    q.handle = p.handle ∧ Files.Grows (fun place e => place = cache ∧ e.holding = .store)
      p.files q.files := by
  rcases hentry : p.files.entry p.workspace.cwd path with fault | e
  · rw [cacheSet_of_error hentry] at hset
    obtain rfl := Except.ok.inj hset
    exact ⟨rfl, .refl⟩
  · rw [cacheSet_of_entry hhandle hplace hentry] at hset
    obtain rfl := Except.ok.inj hset
    exact ⟨rfl, .replace .refl hplace ⟨rfl, rfl⟩⟩

theorem invariant_cacheSet {tools : Toolchain} {Known : String → Row → Prop}
    (h : p.Invariant tools Known)
    (hhandle : p.handle = some (.live cache))
    (hknown : ∀ e, p.files.entry p.workspace.cwd path = .ok e →
      Known path.toString ⟨e.cacheKey p.workspace.version, value.line⟩)
    (hset : p.cacheSet path value = .ok q) : q.Invariant tools Known := by
  obtain ⟨rows, t, hplace⟩ := h.store hhandle
  rcases hentry : p.files.entry p.workspace.cwd path with fault | e
  · rw [cacheSet_of_error hentry] at hset
    obtain rfl := Except.ok.inj hset
    exact h
  · rw [cacheSet_of_entry hhandle hplace hentry] at hset
    obtain rfl := Except.ok.inj hset
    cases h.holds cache rows t hplace with
    | mk hname hrows =>
      refine h.withFiles (.replace .refl hplace (Or.inr (.mk hname ?_)))
      exact Store.known_save hrows (hknown e hentry)

/-- Right after a result was stored for a file it is found, whatever it is. -/
theorem cacheGet_of_cacheSet (hhandle : p.handle = some (.live cache))
    (hplace : p.files.get? cache = some (.file (.store rows) t)) (hcache : cache ≠ [])
    {place : Location} (hlocate : p.files.locate p.workspace.cwd path = .ok place)
    (hne : place ≠ cache) {e : Entry} (he : p.files.get? place = some e)
    {holding : Holding} (hset : p.cacheSet path (Record.listToJson
      ((p.workspace.tools.verdict path holding).map Diagnostic.record)) = .ok q) :
    q.cacheGet path = .ok (some (Record.listToJson
      ((p.workspace.tools.verdict path holding).map Diagnostic.record))) ∧
      q.workspace.lintFile true path = p.workspace.lintFile true path := by
  have hentry := Files.entry_of_locate hlocate he
  obtain ⟨-, hgrows⟩ := cacheSet_grows hhandle hplace hset
  rw [cacheSet_of_entry hhandle hplace hentry] at hset
  have hfiles := congrArg Project.files (Except.ok.inj hset)
  have hcwd := congrArg (·.workspace.cwd) (Except.ok.inj hset)
  have hversion := congrArg (·.workspace.version) (Except.ok.inj hset)
  have htools : p.workspace.tools = q.workspace.tools :=
    congrArg (·.workspace.tools) (Except.ok.inj hset)
  have hcurrent : q.currentHandle = .live cache := by
    rw [← Except.ok.inj hset]
    exact congrArg (·.getD .closed) hhandle
  have hstored : q.files.get? cache = some (.file (.store (rows.save path.toString
      (e.cacheKey p.workspace.version) (Record.listToJson
        ((p.workspace.tools.verdict path holding).map Diagnostic.record)).line))
      (Time.ofSeconds p.files.clock 0)) := by
    rw [← hfiles]
    exact Files.get?_put_self hcache
  have hafter : q.files.entry q.workspace.cwd path = .ok e := by
    rw [← hcwd]
    refine Files.entry_of_locate (hgrows.walk hlocate) ?_
    rw [← hfiles]
    exact (Files.get?_put_of_ne hplace hne).trans he
  constructor
  · rw [cacheGet, hcurrent]
    refine Workspace.stored?_of_row hafter hstored ?_ (Toolchain.parse_verdict _ _ _ _)
    rw [Store.save, Ledger.get?_put_self, ← hversion]
    rfl
  · rw [Workspace.lintFile_of_entry hafter, Workspace.lintFile_of_entry hentry, htools]

end Project

namespace Concurrent

variable {tools : Toolchain} {cache : Location} {past : List Project} {s : Concurrent}

/-- What holds of runs that share a cache as long as nothing stale was stored: every row is the
result of checking some file as it was in the past, and the past can be told from the present. -/
structure Invariant (tools : Toolchain) (cache : Location) (past : List Project) (s : Concurrent) :
    Prop where
  handle : s.project.handle = some (.live cache)
  project : s.project.Invariant tools (Project.Recorded tools (s.project :: past))
  earlier : ∀ q ∈ s.project :: past, Project.Earlier cache q s.project
  told : Project.Told (s.project :: past)
  runs : ∀ r ∈ s.runs, r.Sound tools

theorem invariant_of_fresh (hfresh : s.project.Fresh)
    (hhandle : s.project.handle = some (.live cache)) (hruns : s.runs = []) :
    Invariant s.project.workspace.tools cache [] s := by
  have hinvariant : s.project.Invariant s.project.workspace.tools
      (Project.Recorded s.project.workspace.tools [s.project]) := hfresh.invariant
  refine ⟨hhandle, hinvariant, fun q hq => ?_, ?_, fun r hr => ?_⟩
  · obtain rfl := List.mem_singleton.mp hq
    exact ⟨hfresh.sound, .refl, hinvariant.store hhandle⟩
  · exact Project.Told.cons (fun _ hq => by cases hq) fun _ hq => by cases hq
  · rw [hruns] at hr
    cases hr

theorem Invariant.hitsRight (h : Invariant tools cache past s) : s.project.HitsRight :=
  h.project.hitsRight h.told List.mem_cons_self h.handle

theorem Invariant.advance (h : Invariant tools cache past s) {q : Project} {runs : List Run}
    {New : Location → Entry → Prop} (hgrows : Files.Grows New s.project.files q.files)
    (hhandle : q.handle = s.project.handle)
    (hinvariant : q.Invariant tools (Project.Recorded tools (s.project :: past)))
    (hnew : ∀ place content t, New place (.file content t) → ∀ r ∈ s.project :: past,
      ∀ e ∈ r.files.get? place, e.isDirectory = false → e.modified.text = t.text →
        e.size = content.size → e.holding = (Entry.file content t).holding)
    (hruns : ∀ r ∈ runs, r.Sound tools) : Invariant tools cache (s.project :: past) ⟨q, runs⟩ where
  handle := hhandle.trans h.handle
  project := hinvariant.mono fun _ _ => Project.Recorded.cons
  earlier r hr := by
    rcases List.mem_cons.mp hr with rfl | hpast
    · exact ⟨hinvariant.sound, .refl, hinvariant.store (hhandle.trans h.handle)⟩
    · obtain ⟨hsound, hbefore, hstore⟩ := h.earlier r hpast
      exact ⟨hsound, hbefore.trans (hgrows.mono fun _ _ _ => trivial), hstore⟩
  told := h.told.step h.earlier List.mem_cons_self hgrows hnew
  runs := hruns

/-- A step that stores nothing stale keeps everything as it should be. -/
theorem Invariant.next (h : Invariant tools cache past s) {action : Action}
    (henabled : s.Enabled past action) (htimely : s.Timely action) :
    Invariant tools cache (s.project :: past) (s.next action) := by
  have hruns := sound_runs_next h.project.tools h.runs henabled
  rcases s.project_next action with ⟨text, data, time, rfl, -⟩ |
    ⟨i, r, records, rfl, hr, hstage, hset⟩ | hsame
  · obtain ⟨habsolute, hspares, hunseen⟩ := henabled
    have hpath := Path.rooted_ofString habsolute
    refine h.advance (Files.write_grows s.project.workspace.cwd h.project.sound hpath data time)
      rfl (Project.invariant_write h.project habsolute hspares data time) ?_ hruns
    rintro place content t (hdirectory | ⟨rfl, hfile⟩) q hq e he hkind htime hsize
    · cases hdirectory
    · cases hfile
      rw [Files.resolve_of_rooted hpath] at he
      refine hunseen q hq e ?_ hkind htime hsize
      rwa [Files.resolve_of_rooted hpath]
  · obtain ⟨rows, t, hplace⟩ := h.project.store h.handle
    obtain ⟨hhandle, hgrows⟩ := Project.cacheSet_grows h.handle hplace hset
    have hrooted := (h.runs r (List.mem_of_getElem? hr)).path
    refine h.advance hgrows hhandle (Project.invariant_cacheSet h.project h.handle ?_ hset) ?_ hruns
    · intro e he
      have hrecords := htimely r hr records hstage e he
      have htrusts : Trusts (Project.Recorded tools (s.project :: past)) tools
          s.project.workspace.version r.path e :=
        Project.trusts_of_distinguished h.told.distinguished List.mem_cons_self hrooted he
      have hknown := htrusts.known
      have hlint := Workspace.lintFile_of_entry he
      rw [h.project.tools] at hlint
      rwa [Toolchain.row, ← hlint, ← hrecords] at hknown
    · rintro place content t ⟨rfl, hstore⟩ q hq e he - - -
      obtain ⟨rows, t, hold⟩ := (h.earlier q hq).store
      obtain rfl := Option.some.inj (hold.symm.trans he)
      exact hstore.symm
  · have hnext : s.next action = ⟨s.project, (s.next action).runs⟩ := by rw [← hsame]
    rw [hnext]
    have hnothing : Files.Grows (fun _ _ => False) s.project.files s.project.files := .refl
    exact h.advance hnothing rfl h.project (fun _ _ _ hno => hno.elim) hruns

/-- A result that is stored before anything else happens is not out of date. -/
theorem timely_of_lint {i : Nat} {r : Run} (hr : s.runs[i]? = some r) (hstage : r.stage = .missed) :
    (s.next (.lint i)).Timely (.set i) := by
  have hbound : i < s.runs.length := (List.getElem?_eq_some_iff.mp hr).1
  have hnext : s.next (.lint i) = { s with runs := s.runs.set i (r.lint s.project) } := by
    simp only [next, hr]
  rw [hnext]
  intro r' hr' records hrecords e he
  obtain rfl : r.lint s.project = r' := by
    simpa [hbound] using hr'
  simp only [Run.lint, hstage] at hrecords ⊢
  exact (Stage.checked.inj hrecords).symm

/-- If what is found right after a step is right, the step did not store anything stale. -/
theorem Invariant.timely (h : Invariant tools cache past s) {action : Action}
    (hright : (s.next action).project.HitsRight) : s.Timely action := by
  cases action with
  | set i =>
    intro r hr records hstage e he
    have hsound := h.runs r (List.mem_of_getElem? hr)
    obtain ⟨holding, hrecords⟩ := hsound.records records hstage
    obtain ⟨rows, t, hplace⟩ := h.project.store h.handle
    obtain ⟨place, hlocate, hentry⟩ := Files.locate_of_entry he
    have hcache : cache.getLast? = some Cache.fileName := by
      cases h.project.holds cache rows t hplace with
      | mk hname => exact hname
    by_cases hself : place = cache
    · -- the cache itself is never reported on
      subst hself
      have hnone := Files.dialect?_of_cache hsound.path hlocate hcache
      rw [hrecords, Workspace.lintFile_of_entry he, Toolchain.verdict_of_dialect? _ hnone,
        Toolchain.verdict_of_dialect? _ hnone]
    · have hne : cache ≠ [] := by
        rintro rfl
        cases hcache
      obtain ⟨q, hset⟩ : ∃ q, s.project.cacheSet r.path (Record.listToJson records) = .ok q :=
        ⟨_, Project.cacheSet_of_entry h.handle hplace he⟩
      have hnext : (s.next (.set i)).project = q := by
        simp only [Concurrent.next, Option.mem_def.mp hr, Run.set, hstage, hset]
      rw [hnext] at hright
      rw [hrecords, ← h.project.tools] at hset ⊢
      obtain ⟨hget, hlint⟩ :=
        Project.cacheGet_of_cacheSet h.handle hplace hne hlocate hself hentry hset
      have hread := hsound.path.ofString_toString
      have habsolute : Project.IsAbsolute r.path.toString := by
        rw [Project.IsAbsolute, hread]
        exact hsound.path.isAbsolute
      have hvalue := hright r.path.toString habsolute _ (by rw [hread]; exact hget)
      rw [hread, hlint] at hvalue
      exact Record.listToJson_injective hvalue
  | _ => trivial

/-- What is found is right all along a run exactly if every step is timely. -/
theorem Invariant.hitsRight_iff_timelyRun (h : Invariant tools cache past s) {actions : List Action}
    (henabled : s.EnabledRun past actions) :
    (∀ t ∈ s.states actions, t.project.HitsRight) ↔ s.TimelyRun actions := by
  -- the invariant lasts up to the first step that is not timely, which is noticed right after it
  induction actions generalizing past s with
  | nil =>
    simp only [states, List.mem_singleton, forall_eq, TimelyRun, iff_true]
    exact h.hitsRight
  | cons action rest ih =>
    rw [states, List.forall_mem_cons, TimelyRun]
    constructor
    · rintro ⟨-, hrest⟩
      have hfirst : (s.next action).project.HitsRight := by
        apply hrest
        cases rest <;> exact List.mem_cons_self
      have htimely := h.timely hfirst
      exact ⟨htimely, (ih (h.next henabled.1 htimely) henabled.2).mp hrest⟩
    · rintro ⟨htimely, hrest⟩
      exact ⟨h.hitsRight, (ih (h.next henabled.1 htimely) henabled.2).mpr hrest⟩

end Concurrent

/-- Runs share a cache that was empty, and no content of a file ever had the time and the size of
another. Whatever is looked up at any moment is then the result for the file as it is, exactly if no
run stores a result that is out of date by the time it is stored. -/
theorem shared_hits_right_iff (start : Concurrent) (actions : List Action) {cache : Location}
    (hfresh : start.project.Fresh) (hhandle : start.project.handle = some (.live cache))
    (hruns : start.runs = []) (henabled : start.EnabledRun [] actions) :
    (∀ s ∈ start.states actions, s.project.HitsRight) ↔ start.TimelyRun actions :=
  (Concurrent.invariant_of_fresh hfresh hhandle hruns).hitsRight_iff_timelyRun henabled

namespace Project

/-- A cache that is opened in a fresh project is empty. -/
theorem Fresh.openCache {p : Project} (h : p.Fresh) {path : Path} (hpath : path.Rooted) :
    (p.openCache path).2.Fresh := by
  have hinvariant : (p.openCache path).2.Invariant p.workspace.tools fun _ _ => False :=
    invariant_open h.invariant hpath
  refine ⟨hinvariant.sound, fun place rows t hplace => ?_, hinvariant.cwd, hinvariant.handle⟩
  cases hinvariant.holds place rows t hplace with
  | mk hname hrows =>
    refine ⟨hname, ?_⟩
    cases rows with
    | nil => rfl
    | cons row rest => exact (hrows row.1 row.2 (by simp [Ledger.get?])).elim

end Project

namespace Concurrent

/-- An empty cache and nothing else. -/
def opened : Concurrent :=
  { project := (Project.vacant.openCache ⟨"/", ["c"]⟩).2 }

theorem opened_fresh : opened.project.Fresh :=
  Project.vacant_fresh.openCache ⟨Or.inl rfl, by decide⟩

def callText : ByteArray := "useMutation()".toUTF8

/-- A file is emptied while the result for it waits to be stored. -/
def overtaken : List Action :=
  [.write "/a.js" callText ⟨0⟩, .start "/a.js", .get 0, .lint 0, .write "/a.js" .empty ⟨1000000000⟩,
    .set 0]

theorem spares_of_live {p : Project} (h : p.handle = some (.live ["c", "lint.db"])) :
    p.SparesCache "/a.js" := by
  have hplace : Files.resolve p.workspace.cwd (Path.ofString "/a.js") = ["a.js"] := rfl
  refine Project.sparesCache_of_handle ["c", "lint.db"] h ?_
  rw [hplace]
  decide

theorem overtaken_enabled : opened.EnabledRun [] overtaken :=
  ⟨⟨rfl, spares_of_live rfl, by decide +kernel⟩, rfl, trivial, trivial,
    ⟨rfl, spares_of_live rfl, by decide +kernel⟩, trivial, trivial⟩

theorem overtaken_not_timely : ¬ opened.TimelyRun overtaken := by
  rintro ⟨-, -, -, -, -, hset, -⟩
  have hstale := congrArg List.length (hset _ rfl _ rfl _ rfl)
  revert hstale
  decide +kernel

/-- The result for the old content is found under the key of the new one. -/
theorem overtaken_result_is_found : opened.project.Fresh ∧ opened.EnabledRun [] overtaken ∧
    ∃ s ∈ opened.states overtaken, ¬ s.project.HitsRight := by
  refine ⟨opened_fresh, overtaken_enabled, ?_⟩
  by_contra hright
  have hinvariant : Invariant .standard ["c", "lint.db"] [] opened :=
    invariant_of_fresh opened_fresh rfl rfl
  apply overtaken_not_timely
  apply (hinvariant.hitsRight_iff_timelyRun overtaken_enabled).mp
  intro s hs
  by_contra hwrong
  exact hright ⟨s, hs, hwrong⟩

/-- Two runs find nothing, and the file is written after one has stored its result and before the
other reads it. -/
def handover : List Action :=
  [.write "/a.js" callText ⟨0⟩, .start "/a.js", .start "/a.js", .get 0, .get 1, .lint 0, .set 0,
    .write "/a.js" .empty ⟨1000000000⟩, .lint 1, .set 1]

theorem handover_enabled : opened.EnabledRun [] handover :=
  ⟨⟨rfl, spares_of_live rfl, by decide +kernel⟩, rfl, rfl, trivial, trivial, trivial, trivial,
    ⟨rfl, spares_of_live rfl, by decide +kernel⟩, trivial, trivial, trivial⟩

theorem handover_timely : opened.TimelyRun handover :=
  ⟨trivial, trivial, trivial, trivial, trivial, trivial, timely_of_lint rfl rfl, trivial, trivial,
    timely_of_lint rfl rfl, trivial⟩

theorem handover_hits_right : opened.project.Fresh ∧ opened.EnabledRun [] handover ∧
    opened.TimelyRun handover ∧ ∀ s ∈ opened.states handover, s.project.HitsRight :=
  ⟨opened_fresh, handover_enabled, handover_timely,
    (shared_hits_right_iff opened handover opened_fresh rfl rfl handover_enabled).mpr
      handover_timely⟩

end Concurrent

end StaleQuery
