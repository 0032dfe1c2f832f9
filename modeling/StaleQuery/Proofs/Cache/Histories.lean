import StaleQuery.Proofs.Cache.Rows
import StaleQuery.Proofs.Json.Numbers

/-!
# What a cache remembers

Over a run in which files come, change and go, in which values are stored and caches are cleared,
closed and opened again, a cache remembers for each path the value that was stored last since it was
cleared. It gives the value back as long as the version, the printed time and the size are those under
which the value was stored.
-/
namespace StaleQuery

/-- What may be done to the files of a project, to the cache that is open, and to the version. -/
inductive Operation where
  | write (path : Path) (data : ByteArray) (time : Time)
  | touch (path : Path) (time : Time)
  | remove (path : Path)
  | store (path : Path) (value : Json)
  | clear
  | setVersion (version : String)
  | close
  | openAt (directory : Path)

/-- A path as a system takes it, with no NUL in it. -/
def Path.Unbroken (path : Path) : Prop :=
  Char.ofNat 0 ∉ path.toString.toList

instance (path : Path) : Decidable path.Unbroken :=
  inferInstanceAs (Decidable (_ ∉ _))

/-- An operation on a path that a system takes. What is stored is data that the reader has room for. -/
def Operation.Meant (limits : Json.Limits) : Operation → Prop
  | .write path _ _ | .touch path _ | .remove path | .openAt path => path.Unbroken
  | .store path value => path.Unbroken ∧ value.Readable limits
  | .clear | .setVersion _ | .close => True

/-- A moment of a run: a project and what is done to it. -/
structure Step where
  project : Project
  operation : Operation

namespace Project

/-- The project after an operation, also after one that fails. -/
def after (p : Project) : Operation → Project
  | .write path data time => (p.write path data time).2
  | .touch path time =>
    match p.touch path time with
    | .ok q => q
    | .error _ => p
  | .remove path =>
    match p.remove path with
    | .ok q => q
    | .error _ => p
  | .store path value =>
    match p.cacheSet path value with
    | .ok q => q
    | .error _ => p
  | .clear =>
    match p.cacheClear with
    | .ok q => q
    | .error _ => p
  | .setVersion version => p.setVersion version
  | .close => p.closeCache
  | .openAt directory => (p.openCache directory).2

def afterAll (p : Project) (operations : List Operation) : Project :=
  operations.foldl after p

/-- The operations of a run, each with the project it meets. -/
def history (p : Project) : List Operation → List Step
  | [] => []
  | operation :: rest => ⟨p, operation⟩ :: (p.after operation).history rest

theorem history_concat (p : Project) (operations : List Operation) (last : Operation) :
    p.history (operations ++ [last]) = p.history operations ++ [⟨p.afterAll operations, last⟩] := by
  induction operations generalizing p with
  | nil => rfl
  | cons operation rest ih =>
    rw [List.cons_append, history, ih, history, List.cons_append]
    rfl

theorem operation_mem_of_mem_history {p : Project} {operations : List Operation} {s : Step}
    (h : s ∈ p.history operations) : s.operation ∈ operations := by
  induction operations generalizing p with
  | nil => cases h
  | cons operation rest ih =>
    rcases List.mem_cons.mp h with rfl | h
    · exact List.mem_cons_self
    · exact List.mem_cons_of_mem _ (ih h)

end Project

namespace Step

/-- Neither writing nor removing hits the file of a cache. -/
def SparesCaches (s : Step) : Prop :=
  match s.operation with
  | .write path .. | .remove path =>
    s.project.files.store? (Files.resolve s.project.workspace.cwd path) = none
  | _ => True

def Clears (s : Step) (cache : Location) : Prop :=
  s.operation = .clear ∧ s.project.handle = some (.live cache)

/-- The step stores a value for what a path leads to, in the cache that is open. -/
structure Stores (s : Step) (cache : Location) (text : String) (value : Json) (version : String)
    (e : Entry) : Prop where
  stored : ∃ path, s.operation = .store path value ∧ path.toString = text ∧
    s.project.files.entry s.project.workspace.cwd path = .ok e
  opened : s.project.handle = some (.live cache)
  version : s.project.workspace.version = version

/-- The step leaves alone what a cache has for a text. -/
def LeavesAlone (s : Step) (cache : Location) (text : String) : Prop :=
  ¬ s.Clears cache ∧ ∀ value version e, ¬ s.Stores cache text value version e

end Step

/-- The last value that was stored for a text since a cache was cleared, with the version and the
entry of that moment. -/
def LastStored (steps : List Step) (cache : Location) (text : String) (value : Json)
    (version : String) (e : Entry) : Prop :=
  ∃ earlier s later, steps = earlier ++ s :: later ∧ s.Stores cache text value version e ∧
    ∀ r ∈ later, r.LeavesAlone cache text

theorem not_lastStored_nil {cache : Location} {text : String} {value : Json} {version : String}
    {e : Entry} : ¬ LastStored [] cache text value version e := by
  rintro ⟨earlier, s, later, hsteps, -⟩
  simp at hsteps

theorem lastStored_concat {steps : List Step} {last : Step} {cache : Location} {text : String}
    {value : Json} {version : String} {e : Entry} :
    LastStored (steps ++ [last]) cache text value version e ↔
      last.Stores cache text value version e ∨
        (LastStored steps cache text value version e ∧ last.LeavesAlone cache text) := by
  constructor
  · rintro ⟨earlier, s, later, hsteps, hstores, halone⟩
    rcases List.eq_nil_or_concat later with rfl | ⟨front, r, rfl⟩
    · obtain ⟨-, hlast⟩ := List.append_inj' hsteps rfl
      obtain rfl := List.singleton_inj.mp hlast
      exact Or.inl hstores
    · rw [List.concat_eq_append] at hsteps halone
      rw [← List.cons_append, ← List.append_assoc] at hsteps
      obtain ⟨hfront, hlast⟩ := List.append_inj' hsteps rfl
      obtain rfl := List.singleton_inj.mp hlast
      exact Or.inr ⟨⟨earlier, s, front, hfront, hstores,
        fun r hr => halone r (List.mem_append_left _ hr)⟩, halone last (by simp)⟩
  · rintro (hstores | ⟨⟨earlier, s, later, rfl, hstores, halone⟩, hlast⟩)
    · exact ⟨steps, last, [], rfl, hstores, by simp⟩
    · refine ⟨earlier, s, later ++ [last], by simp, hstores, fun r hr => ?_⟩
      rcases List.mem_append.mp hr with hr | hr
      · exact halone r hr
      · rw [List.mem_singleton.mp hr]
        exact hlast

/-! One step -/

section

variable {p : Project} {path : Path} {value : Json}

theorem Project.after_store_of_closed (h : p.currentHandle = .closed) :
    p.after (.store path value) = p := by
  cases hkey : p.workspace.cacheKey? path with
  | none => simp [after, cacheSet, Workspace.store, hkey, bind, Except.bind, pure, Except.pure]
  | some key => simp [after, cacheSet, Workspace.store, hkey, h, Files.rows, bind, Except.bind]

theorem Project.after_clear_of_closed (h : p.currentHandle = .closed) : p.after .clear = p := by
  simp [after, cacheClear, h, Files.setRows, Files.rows, bind, Except.bind]

end

namespace Step

variable {s : Step} {cache : Location} {text : String}

/-- The handle of a project after a step: closed, the one from before, or that of a cache. -/
def Handed (s : Step) (q : Project) : Prop :=
  ∀ handle, q.handle = some handle → handle = .closed ∨ s.project.handle = some handle ∨
    ∃ cache rows, handle = .live cache ∧ q.files.store? cache = some rows

/-- All that a step can do to the caches. -/
inductive Effect (s : Step) : Project → Prop where
  | quiet {q} : Files.KeepsStores s.project.files q.files → s.Handed q →
      (∀ cache text, s.LeavesAlone cache text) → Effect s q
  | clears {cache rows t} : s.Clears cache → s.project.files.store? cache = some rows →
      Effect s (s.project.withFiles (s.project.files.put cache (.file (.store []) t)))
  | stores {cache rows t text value version e} : s.Stores cache text value version e →
      s.project.files.store? cache = some rows →
      Effect s (s.project.withFiles (s.project.files.put cache
        (.file (.store (rows.save text (e.cacheKey version) value.line)) t)))

theorem handed_of_eq {q : Project} (h : q.handle = s.project.handle) : s.Handed q := by
  intro handle hhandle
  rw [h] at hhandle
  exact Or.inr (Or.inl hhandle)

theorem leavesAlone_of_operation (hclear : s.operation ≠ .clear)
    (hstore : ∀ path value, s.operation ≠ .store path value) (cache : Location) (text : String) :
    s.LeavesAlone cache text :=
  ⟨fun h => hclear h.1, fun _ _ _ h => h.stored.elim fun _ hstored => hstore _ _ hstored.1⟩

theorem leavesAlone_of_not_open (h : s.project.handle ≠ some (.live cache)) (text : String) :
    s.LeavesAlone cache text :=
  ⟨fun hclears => h hclears.2, fun _ _ _ hstores => h hstores.opened⟩

theorem leavesAlone_of_closed (h : s.project.currentHandle = .closed) (cache : Location)
    (text : String) : s.LeavesAlone cache text := by
  apply leavesAlone_of_not_open
  intro hopen
  rw [Project.currentHandle, hopen] at h
  cases h

theorem leavesAlone_of_error {p : Project} {path : Path} {value : Json} (fault : FileFault)
    (h : p.files.entry p.workspace.cwd path = .error fault) (cache : Location) (text : String) :
    (Step.mk p (.store path value)).LeavesAlone cache text := by
  constructor
  · rintro ⟨⟨⟩, -⟩
  · rintro value version e ⟨⟨_, ⟨⟩, -, hentry⟩, -, -⟩
    rw [h] at hentry
    cases hentry

/-- The one case analysis over the operations. Everything about runs goes through it. -/
theorem effect (h : s.project.HandleSound) (hspares : s.SparesCaches) :
    s.Effect (s.project.after s.operation) := by
  obtain ⟨p, operation⟩ := s
  have hnothing : (∀ cache text, (Step.mk p operation).LeavesAlone cache text) →
      (Step.mk p operation).Effect p := .quiet (.refl _) (handed_of_eq rfl)
  cases operation with
  | write path data time =>
    exact .quiet (Files.keepsStores_write _ path data time hspares) (handed_of_eq rfl)
      (leavesAlone_of_operation (by simp) (by simp))
  | touch path time =>
    have halone := @leavesAlone_of_operation ⟨p, .touch path time⟩ (by simp) (by simp)
    cases hfiles : p.files.touch p.workspace.cwd path time with
    | error fault =>
      simp only [Project.after, Project.touch, hfiles, bind, Except.bind]
      exact hnothing halone
    | ok files =>
      simp only [Project.after, Project.touch, hfiles, bind, Except.bind]
      exact .quiet (Files.keepsStores_touch hfiles) (handed_of_eq rfl) halone
  | remove path =>
    have halone := @leavesAlone_of_operation ⟨p, .remove path⟩ (by simp) (by simp)
    cases hfiles : p.files.remove p.workspace.cwd path with
    | error fault =>
      simp only [Project.after, Project.remove, hfiles, bind, Except.bind]
      exact hnothing halone
    | ok files =>
      simp only [Project.after, Project.remove, hfiles, bind, Except.bind]
      exact .quiet (Files.keepsStores_remove hfiles hspares)
        (handed_of_eq (Project.detach_of_spared h hspares)) halone
  | store path value =>
    rcases h.closed_or_live with hclosed | ⟨cache, hopen⟩
    · rw [Project.after_store_of_closed hclosed]
      exact hnothing (leavesAlone_of_closed hclosed)
    · obtain ⟨rows, hstore⟩ := h.store? hopen
      obtain ⟨t, hget⟩ := Files.store?_eq_some_iff.mp hstore
      rcases hentry : p.files.entry p.workspace.cwd path with fault | e
      · simp only [Project.after, Project.cacheSet_of_error hentry]
        exact hnothing (leavesAlone_of_error fault hentry)
      · simp only [Project.after, Project.cacheSet_of_entry hopen hget hentry]
        exact .stores ⟨⟨path, rfl, rfl, hentry⟩, hopen, rfl⟩ hstore
  | clear =>
    rcases h.closed_or_live with hclosed | ⟨cache, hopen⟩
    · rw [Project.after_clear_of_closed hclosed]
      exact hnothing (leavesAlone_of_closed hclosed)
    · obtain ⟨rows, hstore⟩ := h.store? hopen
      obtain ⟨t, hget⟩ := Files.store?_eq_some_iff.mp hstore
      have hcurrent : p.currentHandle = .live cache := by
        rw [Project.currentHandle, hopen, Option.getD_some]
      simp only [Project.after, Project.cacheClear, hcurrent, Files.setRows_of_live hget, bind,
        Except.bind]
      exact .clears ⟨rfl, hopen⟩ hstore
  | setVersion version =>
    exact .quiet (.refl _) (handed_of_eq rfl) (leavesAlone_of_operation (by simp) (by simp))
  | close =>
    refine .quiet (.refl _) (fun handle hhandle => ?_)
      (leavesAlone_of_operation (by simp) (by simp))
    obtain ⟨_, -, hclosed⟩ := Option.map_eq_some_iff.mp hhandle
    exact Or.inl hclosed.symm
  | openAt directory =>
    refine .quiet ?_ (fun handle hhandle => ?_) (leavesAlone_of_operation (by simp) (by simp))
    · rw [Project.after, Project.files_openCache]
      exact (Files.keepsStores_openCache p.files p.workspace.cwd directory).1
    · rcases p.handle_openCache directory with hsame | ⟨cache, rows, hopen, hstore⟩
      · exact Or.inr (Or.inl (hsame ▸ hhandle))
      · exact Or.inr (Or.inr ⟨cache, rows, Option.some.inj (hhandle.symm.trans hopen), hstore⟩)

/-- A cache stays one. -/
theorem Effect.store? {q : Project} (h : s.Effect q) {rows : Store}
    (hstore : s.project.files.store? cache = some rows) : ∃ rows, q.files.store? cache = some rows := by
  have hput : ∀ place (after : Store) (t : Time), ∃ rows,
      (s.project.files.put place (.file (.store after) t)).store? cache = some rows := by
    intro place after t
    by_cases heq : cache = place
    · exact ⟨after, heq ▸ Files.store?_put_store _ _ after t⟩
    · exact ⟨rows, (Files.store?_put_of_ne heq _ _).trans hstore⟩
  cases h with
  | quiet hkeeps => exact ⟨rows, hkeeps.store? hstore⟩
  | clears => exact hput _ _ _
  | stores => exact hput _ _ _

theorem Effect.handed {q : Project} (h : s.Effect q) : s.Handed q := by
  cases h with
  | quiet _ hhanded => exact hhanded
  | clears => exact handed_of_eq rfl
  | stores => exact handed_of_eq rfl

theorem Effect.handleSound {q : Project} (h : s.Effect q) (hsound : s.project.HandleSound) :
    q.HandleSound := by
  have hstored : ∀ cache rows, q.files.store? cache = some rows →
      ∃ rows t, q.files.get? cache = some (.file (.store rows) t) := fun _ rows hstore =>
    ⟨rows, Files.store?_eq_some_iff.mp hstore⟩
  intro handle hhandle
  rcases h.handed handle hhandle with hclosed | hsame | ⟨cache, rows, rfl, hstore⟩
  · exact Or.inl hclosed
  · rcases hsound handle hsame with hclosed | ⟨cache, rows, t, rfl, hget⟩
    · exact Or.inl hclosed
    · obtain ⟨rows, hstore⟩ := h.store? (Files.store?_eq_some_iff.mpr ⟨t, hget⟩)
      obtain ⟨rows, t, hget⟩ := hstored cache rows hstore
      exact Or.inr ⟨cache, rows, t, rfl, hget⟩
  · obtain ⟨rows, t, hget⟩ := hstored cache rows hstore
    exact Or.inr ⟨cache, rows, t, rfl, hget⟩

theorem Stores.unique {cache' : Location} {text' : String} {value value' : Json}
    {version version' : String} {e e' : Entry} (h : s.Stores cache text value version e)
    (h' : s.Stores cache' text' value' version' e') :
    cache = cache' ∧ text = text' ∧ value = value' ∧ version = version' ∧ e = e' := by
  obtain ⟨path, hoperation, rfl, hentry⟩ := h.stored
  obtain ⟨path', hoperation', rfl, hentry'⟩ := h'.stored
  obtain ⟨rfl, rfl⟩ := Operation.store.inj (hoperation.symm.trans hoperation')
  have hcache := Handle.live.inj (Option.some.inj (h.opened.symm.trans h'.opened))
  exact ⟨hcache, rfl, rfl, h.version.symm.trans h'.version,
    Except.ok.inj (hentry.symm.trans hentry')⟩

theorem Stores.not_clears {value : Json} {version : String} {e : Entry} {cache' : Location}
    (h : s.Stores cache text value version e) : ¬ s.Clears cache' := by
  intro hclears
  obtain ⟨path, hoperation, -⟩ := h.stored
  rw [hclears.1] at hoperation
  cases hoperation

section

variable {q : Project} (h : s.Effect q)
include h

theorem Effect.row?_of_stores {value : Json} {version : String} {e : Entry}
    (hstores : s.Stores cache text value version e) :
    q.files.row? cache text = some ⟨e.cacheKey version, value.line⟩ := by
  cases h with
  | quiet _ _ halone => exact absurd hstores ((halone cache text).2 _ _ _)
  | clears hclears => exact absurd hclears hstores.not_clears
  | stores hstores' =>
    obtain ⟨rfl, rfl, rfl, rfl, rfl⟩ := hstores.unique hstores'
    exact (Files.row?_put_store _ _ _ _ _).trans (Ledger.get?_put_self _ _ _)

theorem Effect.row?_of_clears (hclears : s.Clears cache) : q.files.row? cache text = none := by
  cases h with
  | quiet _ _ halone => exact absurd hclears (halone cache text).1
  | clears hclears' =>
    obtain rfl := Handle.live.inj (Option.some.inj (hclears.2.symm.trans hclears'.2))
    exact Files.row?_put_store _ _ _ _ _
  | stores hstores => exact absurd hclears hstores.not_clears

theorem Effect.row?_of_leavesAlone (halone : s.LeavesAlone cache text) :
    q.files.row? cache text = s.project.files.row? cache text := by
  cases h with
  | quiet hkeeps => exact hkeeps.row? cache text
  | @clears place _ _ hclears =>
    have hne : cache ≠ place := by
      rintro rfl
      exact halone.1 hclears
    exact Files.row?_put_of_ne hne _ _ _
  | @stores place rows t text' value version e hstores hstore =>
    by_cases hcache : cache = place
    · subst hcache
      have hne : text ≠ text' := by
        rintro rfl
        exact halone.2 _ _ _ hstores
      have hold : s.project.files.row? cache text = Ledger.get? text rows := by
        rw [Files.row?, hstore, Option.bind_some]
      rw [hold]
      exact (Files.row?_put_store _ _ _ _ _).trans (Ledger.get?_put_of_ne hne _ _)
    · exact Files.row?_put_of_ne hcache _ _ _

end

/-- A row after a step is the one that the step stored, or one from before that it left alone. -/
theorem Effect.row?_eq_some_iff {q : Project} (h : s.Effect q) {row : Row} :
    q.files.row? cache text = some row ↔
      (∃ value version e, s.Stores cache text value version e ∧
        row = ⟨e.cacheKey version, value.line⟩) ∨
      (s.project.files.row? cache text = some row ∧ s.LeavesAlone cache text) := by
  by_cases halone : s.LeavesAlone cache text
  · rw [h.row?_of_leavesAlone halone]
    constructor
    · exact fun hrow => Or.inr ⟨hrow, halone⟩
    · rintro (⟨_, _, _, hstores, -⟩ | ⟨hrow, -⟩)
      · exact absurd hstores (halone.2 _ _ _)
      · exact hrow
  · by_cases hclears : s.Clears cache
    · rw [h.row?_of_clears hclears]
      constructor
      · rintro ⟨⟩
      · rintro (⟨_, _, _, hstores, -⟩ | ⟨-, halone'⟩)
        · exact absurd hclears hstores.not_clears
        · exact absurd halone' halone
    · obtain ⟨value, version, e, hstores⟩ : ∃ value version e, s.Stores cache text value version e := by
        by_contra hnone
        exact halone ⟨hclears, fun value version e hstores => hnone ⟨value, version, e, hstores⟩⟩
      rw [h.row?_of_stores hstores]
      constructor
      · rintro ⟨⟩
        exact Or.inl ⟨value, version, e, hstores, rfl⟩
      · rintro (⟨_, _, _, hstores', rfl⟩ | ⟨-, halone'⟩)
        · obtain ⟨-, -, rfl, rfl, rfl⟩ := hstores.unique hstores'
          rfl
        · exact absurd halone' halone

end Step

/-! A whole run -/

namespace Project

/-- No cache has a row yet, and the one that is open, if any, is there. -/
structure Unwritten (p : Project) : Prop where
  empty : ∀ cache text, p.files.row? cache text = none
  handle : p.HandleSound

/-- The rows of a project are what was stored last. -/
structure Remembers (p : Project) (steps : List Step) : Prop where
  rows : ∀ cache text row, p.files.row? cache text = some row ↔ ∃ value version e,
    LastStored steps cache text value version e ∧ row = ⟨e.cacheKey version, value.line⟩
  handle : p.HandleSound

theorem Unwritten.remembers {p : Project} (h : p.Unwritten) : p.Remembers [] where
  rows cache text row := by
    rw [h.empty]
    constructor
    · rintro ⟨⟩
    · rintro ⟨_, _, _, hlast, -⟩
      exact absurd hlast not_lastStored_nil
  handle := h.handle

theorem Remembers.step {p q : Project} {steps : List Step} {operation : Operation}
    (h : p.Remembers steps) (heffect : (Step.mk p operation).Effect q) :
    q.Remembers (steps ++ [⟨p, operation⟩]) where
  rows cache text row := by
    rw [heffect.row?_eq_some_iff, h.rows]
    simp only [lastStored_concat]
    constructor
    · rintro (⟨value, version, e, hstores, hrow⟩ | ⟨⟨value, version, e, hlast, hrow⟩, halone⟩)
      · exact ⟨value, version, e, Or.inl hstores, hrow⟩
      · exact ⟨value, version, e, Or.inr ⟨hlast, halone⟩, hrow⟩
    · rintro ⟨value, version, e, hstores | ⟨hlast, halone⟩, hrow⟩
      · exact Or.inl ⟨value, version, e, hstores, hrow⟩
      · exact Or.inr ⟨⟨value, version, e, hlast, hrow⟩, halone⟩
  handle := heffect.handleSound h.handle

theorem remembers_afterAll {start : Project} (hstart : start.Unwritten) (operations : List Operation)
    (hspares : ∀ s ∈ start.history operations, s.SparesCaches) :
    (start.afterAll operations).Remembers (start.history operations) := by
  induction operations using List.reverseRecOn with
  | nil => exact hstart.remembers
  | append_singleton operations last ih =>
    rw [history_concat] at hspares ⊢
    have hbefore := ih fun s hs => hspares s (List.mem_append_left _ hs)
    have hlast := hspares _ (List.mem_append_right _ List.mem_cons_self)
    have hafter : start.afterAll (operations ++ [last]) = (start.afterAll operations).after last := by
      rw [afterAll, List.foldl_append]
      rfl
    rw [hafter]
    exact hbefore.step (Step.effect hbefore.handle hlast)

theorem Fresh.unwritten {p : Project} (h : p.Fresh) : p.Unwritten where
  empty cache text := by
    unfold Files.row?
    cases hstore : p.files.store? cache with
    | none => rfl
    | some rows =>
      obtain ⟨t, hget⟩ := Files.store?_eq_some_iff.mp hstore
      obtain ⟨-, rfl⟩ := h.empty cache rows t hget
      rfl
  handle := h.handle

/-- The value that was stored last for a path, if the version, the printed time and the size are still
those of that moment. -/
def Current (p : Project) (steps : List Step) (cache : Location) (path : Path) (value : Json) :
    Prop :=
  ∃ version e now, LastStored steps cache path.toString value version e ∧
    p.files.entry p.workspace.cwd path = .ok now ∧ version = p.workspace.version ∧
    e.modified.text = now.modified.text ∧ e.size = now.size

end Project

/-! Operations leave the parser and the reader as they are. -/

theorem Workspace.tools_store {w after : Workspace} {handle : Handle} {path : Path} {value : Json}
    (h : w.store handle path value = .ok after) : after.tools = w.tools := by
  unfold store at h
  split at h
  · obtain rfl := Except.ok.inj h
    rfl
  · simp only [bind, Json.bind_eq_ok_iff] at h
    obtain ⟨rows, -, files, -, h⟩ := h
    obtain rfl := Except.ok.inj h
    rfl

namespace Project

theorem tools_after (p : Project) (operation : Operation) :
    (p.after operation).workspace.tools = p.workspace.tools := by
  cases operation with
  | write | setVersion | close => rfl
  | touch path time =>
    simp only [after, touch, bind, Except.bind]
    cases p.files.touch p.workspace.cwd path time <;> rfl
  | remove path =>
    simp only [after, remove, bind, Except.bind]
    cases p.files.remove p.workspace.cwd path <;> rfl
  | store path value =>
    simp only [after, cacheSet, bind, Except.bind]
    cases hstore : p.workspace.store p.currentHandle path value with
    | error fault => rfl
    | ok w => exact Workspace.tools_store hstore
  | clear =>
    simp only [after, cacheClear, bind, Except.bind]
    cases p.files.setRows p.currentHandle [] <;> rfl
  | openAt directory =>
    simp only [after, openCache]
    split <;> rfl

theorem tools_afterAll (p : Project) (operations : List Operation) :
    (p.afterAll operations).workspace.tools = p.workspace.tools := by
  induction operations generalizing p with
  | nil => rfl
  | cons operation rest ih => exact (ih _).trans (p.tools_after operation)

end Project

theorem LastStored.operation_mem {start : Project} {operations : List Operation} {text : String}
    {value : Json} {version : String} {e : Entry}
    (h : LastStored (start.history operations) cache text value version e) :
    ∃ path, Operation.store path value ∈ operations := by
  obtain ⟨earlier, s, later, hsteps, hstores, -⟩ := h
  obtain ⟨path, hoperation, -⟩ := hstores.stored
  have hmem : s ∈ start.history operations := by simp [hsteps]
  exact ⟨path, hoperation ▸ Project.operation_mem_of_mem_history hmem⟩

/-- After any run that spares the files of the caches, an open cache gives back the value that was
stored last for a path since it was cleared, if the version, the printed time and the size are those
of that moment, and else nothing. Storing data for one path does not change what any other gives, the
file of the cache and its directory apart. A path that leads nowhere is neither stored nor found. -/
theorem found_iff_last_stored (start : Project) (operations : List Operation)
    (hstart : start.Unwritten) (hspares : ∀ s ∈ start.history operations, s.SparesCaches)
    (hmeant : ∀ operation ∈ operations, operation.Meant start.workspace.tools.limits)
    (hnull : ∀ path value, Operation.store path value ∈ operations → value ≠ .null) (path : Path) :
    path.Unbroken →
    let p := start.afterAll operations
    (∀ cache, p.handle = some (.live cache) →
      (∃ answer, p.cacheGet path = .ok answer ∧ ∀ value,
        answer = some value ↔ p.Current (start.history operations) cache path value) ∧
      ∀ value : Json, value.Readable start.workspace.tools.limits →
        ∃ q, p.cacheSet path value = .ok q ∧ ∀ handle other,
        (handle = .live cache → other.toString ≠ path.toString) →
        Files.resolve p.workspace.cwd other ∉ [cache, cache.dropLast] →
        q.workspace.stored? handle other = p.workspace.stored? handle other) ∧
    ∀ fault, p.files.entry p.workspace.cwd path = .error fault →
      p.cacheGet path = .ok none ∧ ∀ value, p.cacheSet path value = .ok p := by
  intro _ p
  have htools : p.workspace.tools = start.workspace.tools := start.tools_afterAll operations
  have hremembers : p.Remembers (start.history operations) :=
    Project.remembers_afterAll hstart operations hspares
  have hnowhere : ∀ fault, p.files.entry p.workspace.cwd path = .error fault →
      p.cacheGet path = .ok none ∧ ∀ value, p.cacheSet path value = .ok p := by
    intro fault hfault
    refine ⟨?_, fun value => Project.cacheSet_of_error hfault⟩
    rw [Project.cacheGet, Workspace.stored?, Workspace.cacheKey?_of_error hfault]
  have hline : ∀ cache text value version e,
      LastStored (start.history operations) cache text value version e →
      value ≠ .null ∧ Json.parse p.workspace.tools.limits value.line = .ok value := by
    intro cache text value version e hlast
    obtain ⟨_, hmem⟩ := hlast.operation_mem
    obtain ⟨-, hreadable⟩ := hmeant _ hmem
    exact ⟨hnull _ _ hmem, by rw [htools, hreadable.parse_line]⟩
  refine ⟨fun cache hopen => ⟨?_, fun value _ => ?_⟩, hnowhere⟩
  · rcases hentry : p.files.entry p.workspace.cwd path with fault | now
    · refine ⟨none, (hnowhere fault hentry).1, fun value => ?_⟩
      simp [Project.Current, hentry]
    · have hread : ∀ row, p.files.row? cache path.toString = some row →
          ∃ value, Json.parse p.workspace.tools.limits row.text = .ok value := by
        intro row hrow
        obtain ⟨stored, version, e, hlast, rfl⟩ := (hremembers.rows _ _ _).mp hrow
        exact ⟨stored, (hline _ _ _ _ _ hlast).2⟩
      obtain ⟨answer, hget, hanswer⟩ :=
        Project.exists_cacheGet hremembers.handle hopen hentry hread
      refine ⟨answer, hget, fun value => ?_⟩
      rw [hanswer]
      constructor
      · rintro ⟨row, hrow, hkey, hparse, -⟩
        obtain ⟨stored, version, e, hlast, rfl⟩ := (hremembers.rows _ _ _).mp hrow
        -- what was stored is what its text reads as
        obtain rfl := Except.ok.inj ((hline _ _ _ _ _ hlast).2.symm.trans hparse)
        obtain ⟨hversion, htime, hsize⟩ := Entry.cacheKey_eq_iff.mp hkey
        exact ⟨version, e, now, hlast, hentry, hversion, htime, hsize⟩
      · rintro ⟨version, e, found, hlast, hfound, hversion, htime, hsize⟩
        obtain rfl := Except.ok.inj (hentry.symm.trans hfound)
        obtain ⟨hnull, hparse⟩ := hline _ _ _ _ _ hlast
        exact ⟨_, (hremembers.rows _ _ _).mpr ⟨value, version, e, hlast, rfl⟩,
          Entry.cacheKey_eq_iff.mpr ⟨hversion, htime, hsize⟩, hparse, hnull⟩
  · obtain ⟨q, hset, hothers⟩ := Project.stored?_cacheSet hremembers.handle hopen path value
    refine ⟨q, hset, fun handle other hother hplace => hothers handle other hother ?_⟩
    rintro rfl
    exact hplace List.mem_cons_self

namespace Project

def source : Path := ⟨"/", ["a.js"]⟩

/-- A value is stored and the cache left for another one, which is cleared. Back in the first, the file
is removed, missed and written anew under another version. -/
def wandering : List Operation :=
  [.openAt ⟨"/", ["c"]⟩, .write source (ByteArray.mk #[97]) ⟨0⟩,
    .store source (.arr [.decimal "0.5"]),
    .openAt ⟨"/", ["d"]⟩, .store source (.int 2), .clear, .close,
    .openAt ⟨"/", ["c"]⟩, .remove source, .store source (.int 3),
    .setVersion "1:0", .write source (ByteArray.mk #[98]) ⟨0⟩, .setVersion "1"]

theorem wandering_spares : ∀ s ∈ vacant.history wandering, s.SparesCaches := by
  intro s hs
  simp only [wandering, history, List.mem_cons, List.not_mem_nil, or_false] at hs
  rcases hs with rfl | rfl | rfl | rfl | rfl | rfl | rfl | rfl | rfl | rfl | rfl | rfl | rfl
  all_goals trivial

theorem source_unbroken : source.Unbroken := by
  decide

theorem wandering_meant : ∀ operation ∈ wandering, operation.Meant .standard := by
  have hfirst : Path.Unbroken ⟨"/", ["c"]⟩ := by decide
  have hsecond : Path.Unbroken ⟨"/", ["d"]⟩ := by decide
  have hhalf : Json.Readable .standard (.arr [.decimal "0.5"]) := ⟨"[0.5]", rfl⟩
  have htwo : Json.Readable .standard (.int 2) := ⟨"2", rfl⟩
  have hthree : Json.Readable .standard (.int 3) := ⟨"3", rfl⟩
  simp [wandering, Operation.Meant, source_unbroken, hfirst, hsecond, hhalf, htwo, hthree]

theorem wandering_not_null : ∀ path value, Operation.store path value ∈ wandering →
    value ≠ .null := by
  rintro path value hmem rfl
  simp [wandering] at hmem

theorem wandering_current : (vacant.afterAll wandering).Current (vacant.history wandering)
    ["c", "lint.db"] source (.arr [.decimal "0.5"]) := by
  refine ⟨"1", .file (.bytes (ByteArray.mk #[97])) ⟨0⟩, .file (.bytes (ByteArray.mk #[98])) ⟨0⟩,
    ⟨(vacant.history wandering).take 2, _, (vacant.history wandering).drop 3, rfl,
      ⟨⟨source, rfl, rfl, rfl⟩, rfl, rfl⟩, ?_⟩, rfl, rfl, rfl, rfl⟩
  have helsewhere : some (Handle.live ["d", "lint.db"]) ≠ some (.live ["c", "lint.db"]) := by
    simp
  intro s hs
  simp only [wandering, history, List.drop_succ_cons, List.drop_zero, List.mem_cons,
    List.not_mem_nil, or_false] at hs
  rcases hs with rfl | rfl | rfl | rfl | rfl | rfl | rfl | rfl | rfl | rfl
  · exact Step.leavesAlone_of_operation (by simp) (by simp) _ _
  · exact Step.leavesAlone_of_not_open helsewhere _
  · exact Step.leavesAlone_of_not_open helsewhere _
  · exact Step.leavesAlone_of_operation (by simp) (by simp) _ _
  · exact Step.leavesAlone_of_operation (by simp) (by simp) _ _
  · exact Step.leavesAlone_of_operation (by simp) (by simp) _ _
  · exact Step.leavesAlone_of_error .notFound rfl _ _
  · exact Step.leavesAlone_of_operation (by simp) (by simp) _ _
  · exact Step.leavesAlone_of_operation (by simp) (by simp) _ _
  · exact Step.leavesAlone_of_operation (by simp) (by simp) _ _

end Project

open Project in
theorem wandering_finds_first :
    vacant.Unwritten ∧ (∀ s ∈ vacant.history wandering, s.SparesCaches) ∧
    (∀ operation ∈ wandering, operation.Meant .standard) ∧
    (∀ path value, Operation.store path value ∈ wandering → value ≠ .null) ∧ source.Unbroken ∧
    (vacant.afterAll wandering).cacheGet source = .ok (some (.arr [.decimal "0.5"])) := by
  have hstart := vacant_fresh.unwritten
  refine ⟨hstart, wandering_spares, wandering_meant, wandering_not_null, source_unbroken, ?_⟩
  obtain ⟨hopened, -⟩ := found_iff_last_stored vacant wandering hstart wandering_spares
    wandering_meant wandering_not_null source source_unbroken
  obtain ⟨⟨answer, hget, hanswer⟩, -⟩ := hopened ["c", "lint.db"] rfl
  rw [hget, (hanswer _).mpr wandering_current]

namespace Project

/-- The file of a cache is removed, and the cache opened again. -/
def rebuilding : List Operation :=
  [.openAt ⟨"/", ["c"]⟩, .write source (ByteArray.mk #[97]) ⟨0⟩, .store source (.arr [.int 1]),
    .remove ⟨"/", ["c", "lint.db"]⟩, .openAt ⟨"/", ["c"]⟩]

/-- A value is stored for the file of the cache itself, until its size no longer changes by that. -/
def mirroring : List Operation :=
  let file : Path := ⟨"/", ["c", "lint.db"]⟩
  [.openAt ⟨"/", ["c"]⟩, .write source (ByteArray.mk #[97]) ⟨0⟩,
    .touch file ⟨0⟩, .store file (.int 1), .touch file ⟨0⟩, .store file (.int 1),
    .touch file ⟨0⟩, .store file (.int 1), .touch file ⟨0⟩]

end Project

open Project in
/-- A cache whose file was removed gives nothing for a value that is current, and storing for another
path changes what is found for the file of the cache. -/
theorem cache_file_matters :
    vacant.Unwritten ∧
    (∃ p, p = vacant.afterAll rebuilding ∧ p.handle = some (.live ["c", "lint.db"]) ∧
      p.Current (vacant.history rebuilding) ["c", "lint.db"] source (.arr [.int 1]) ∧
      p.cacheGet source = .ok none) ∧
    ∃ p q, p = vacant.afterAll mirroring ∧ p.cacheSet source (.int 2) = .ok q ∧
      p.cacheGet ⟨"/", ["c", "lint.db"]⟩ = .ok (some (.int 1)) ∧
      q.cacheGet ⟨"/", ["c", "lint.db"]⟩ = .ok none := by
  refine ⟨vacant_fresh.unwritten, ⟨_, rfl, rfl, ?_, rfl⟩, _, _, rfl, rfl, rfl, rfl⟩
  refine ⟨"1", .file (.bytes (ByteArray.mk #[97])) ⟨0⟩, .file (.bytes (ByteArray.mk #[97])) ⟨0⟩,
    ⟨(vacant.history rebuilding).take 2, _, (vacant.history rebuilding).drop 3, rfl,
      ⟨⟨source, rfl, rfl, rfl⟩, rfl, rfl⟩, ?_⟩, rfl, rfl, rfl, rfl⟩
  intro s hs
  simp only [rebuilding, history, List.drop_succ_cons, List.drop_zero, List.mem_cons,
    List.not_mem_nil, or_false] at hs
  rcases hs with rfl | rfl
  · exact Step.leavesAlone_of_operation (by simp) (by simp) _ _
  · exact Step.leavesAlone_of_operation (by simp) (by simp) _ _

end StaleQuery
