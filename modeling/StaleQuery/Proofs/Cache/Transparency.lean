import StaleQuery.Proofs.Cache.Commands
import StaleQuery.Project.State

/-!
# A cache is not noticed

Over a run in which files come, change and go, in which the version changes and caches are opened,
cleared and closed, every row of every cache is the result of checking some file as it once was. If
what a path holds can be told from the version, the printed time and the size, a row that is found for
a file is the result of checking the file as it is.
-/
namespace StaleQuery

/-- A step of a run. Paths are given as text. -/
inductive Event where
  | write (text : String) (data : ByteArray) (time : Time)
  | touch (text : String) (time : Time)
  | remove (text : String)
  | lintCached (text : String)
  | lintPaths (excluded : List String) (texts : List String)
  | command (session : Command.Session) (arguments : List String)
  | clearCache
  | setVersion (version : String)
  | closeCache
  | openCache (text : String)

namespace Project

def next (p : Project) : Event → Project
  | .write text data time => (p.write (Path.ofString text) data time).2
  | .touch text time =>
    match p.touch (Path.ofString text) time with
    | .ok q => q
    | .error _ => p
  | .remove text =>
    match p.remove (Path.ofString text) with
    | .ok q => q
    | .error _ => p
  | .lintCached text => (p.lintCached (Path.ofString text)).2
  | .lintPaths excluded texts => (p.lintPaths excluded (texts.map Path.ofString)).2
  | .command session arguments => (p.run session arguments).2
  | .clearCache =>
    match p.cacheClear with
    | .ok q => q
    | .error _ => p
  | .setVersion version => p.setVersion version
  | .closeCache => p.closeCache
  | .openCache text => (p.openCache (Path.ofString text)).2

/-- The projects before, between and after the steps. -/
def states (p : Project) : List Event → List Project
  | [] => [p]
  | event :: rest => p :: (p.next event).states rest

def IsAbsolute (text : String) : Prop :=
  (Path.ofString text).isAbsolute = true

/-- An absolute path that a system takes: with no NUL in it. -/
structure Leads (text : String) : Prop where
  absolute : IsAbsolute text
  unbroken : Char.ofNat 0 ∉ text.toList

/-- The file of the open cache is not the one that the path leads to. -/
def SparesCache (p : Project) (text : String) : Prop :=
  ∀ place, p.handle = some (.live place) →
    Files.resolve p.workspace.cwd (Path.ofString text) ≠ place

/-- Paths are absolute, and the file of the open cache is neither written nor removed by hand. -/
def Enabled (p : Project) : Event → Prop
  | .write text _ _ | .remove text => Leads text ∧ p.SparesCache text
  | .lintCached text | .openCache text => Leads text
  | .lintPaths _ texts => ∀ text ∈ texts, Leads text
  | .touch .. | .command .. | .clearCache | .setVersion _ | .closeCache => True

def EnabledRun (p : Project) : List Event → Prop
  | [] => True
  | event :: rest => p.Enabled event ∧ (p.next event).EnabledRun rest

/-- What a path holds is told by the version, the time as it is printed and the size. -/
def Distinguished (states : List Project) : Prop :=
  ∀ p ∈ states, ∀ q ∈ states, ∀ text, IsAbsolute text → ∀ e f,
    p.files.entry p.workspace.cwd (Path.ofString text) = .ok e →
    q.files.entry q.workspace.cwd (Path.ofString text) = .ok f →
    p.workspace.version = q.workspace.version → e.modified.text = f.modified.text →
    e.size = f.size → e.holding = f.holding

/-- The row is the result of checking a path in one of the projects. -/
def Recorded (tools : Toolchain) (states : List Project) (text : String) (row : Row) : Prop :=
  ∃ p ∈ states, ∃ path : Path, path.Rooted ∧ path.toString = text ∧ ∃ e,
    p.files.entry p.workspace.cwd path = .ok e ∧ row = tools.row p.workspace.version path e

/-- A cache in use is a cache in the tree. -/
def HandleSound (p : Project) : Prop :=
  ∀ handle, p.handle = some handle → handle = .closed ∨
    ∃ place rows t, handle = .live place ∧ p.files.get? place = some (.file (.store rows) t)

structure Invariant (tools : Toolchain) (Known : String → Row → Prop) (p : Project) : Prop where
  tools : p.workspace.tools = tools
  sound : p.files.Sound
  holds : p.files.Holds Known
  cwd : ∀ name ∈ p.workspace.cwd, Path.IsName name
  handle : p.HandleSound

/-- A sound project whose caches, if there are any, are empty. -/
structure Fresh (p : Project) : Prop where
  sound : p.files.Sound
  empty : ∀ place rows t, p.files.get? place = some (.file (.store rows) t) →
    place.getLast? = some Cache.fileName ∧ rows = []
  cwd : ∀ name ∈ p.workspace.cwd, Path.IsName name
  handle : p.HandleSound

variable {tools : Toolchain} {Known : String → Row → Prop} {p : Project} {all : List Project}

theorem Fresh.invariant (h : p.Fresh) : p.Invariant p.workspace.tools Known where
  tools := rfl
  sound := h.sound
  holds place rows t hplace := by
    obtain ⟨hname, rfl⟩ := h.empty place rows t hplace
    exact .mk hname fun _ _ hrow => by cases hrow
  cwd := h.cwd
  handle := h.handle

/-- Rows with one key that were recorded for one path are one row. -/
theorem trusts_of_distinguished (hall : Distinguished all) (hp : p ∈ all) {path : Path}
    (hpath : path.Rooted) {e : Entry} (he : p.files.entry p.workspace.cwd path = .ok e) :
    Trusts (Recorded tools all) tools p.workspace.version path e where
  right := by
    rintro row ⟨q, hq, other, hother, htext, f, hf, rfl⟩ hkey
    obtain rfl := hother.eq_of_toString hpath htext
    -- the row may come from another moment, but its key is that of the entry as it is now
    obtain ⟨hversion, htime, hsize⟩ := Entry.cacheKey_inj hkey
    have hread := hpath.ofString_toString
    have hholding : f.holding = e.holding :=
      hall q hq p hp other.toString (by rw [IsAbsolute, hread]; exact hpath.isAbsolute) f e
        (by rwa [hread]) (by rwa [hread]) hversion htime hsize
    rw [Toolchain.row, Toolchain.row, hholding]
    exact congrArg (Row.mk · _) hkey
  known := ⟨p, hp, path, hpath, rfl, e, he, rfl⟩

theorem Invariant.ready (h : p.Invariant tools (Recorded tools all)) (hall : Distinguished all)
    (hp : p ∈ all) : p.workspace.Ready (Recorded tools all) where
  sound := h.sound
  holds := h.holds
  cwd := h.cwd
  trusts hpath _ he := h.tools ▸ trusts_of_distinguished hall hp hpath he

/-! One step -/

theorem Invariant.withFiles (h : p.Invariant tools Known) {grown : Files}
    (hgrows : Files.Grows (CacheWork Known) p.files grown) :
    (p.withFiles grown).Invariant tools Known where
  tools := h.tools
  sound := hgrows.sound h.sound
  holds := hgrows.holds_of_work h.sound h.holds
  cwd := h.cwd
  handle handle hhandle := by
    rcases h.handle handle hhandle with hclosed | ⟨place, rows, t, rfl, hplace⟩
    · exact Or.inl hclosed
    · obtain ⟨rows, t, hplace⟩ := hgrows.store_of_work h.sound hplace
      exact Or.inr ⟨place, rows, t, rfl, hplace⟩

theorem invariant_write (h : p.Invariant tools Known) {text : String} (habsolute : IsAbsolute text)
    (hspares : p.SparesCache text) (data : ByteArray) (time : Time) :
    (p.write (Path.ofString text) data time).2.Invariant tools Known := by
  have hafter : (p.write (Path.ofString text) data time).2 =
      p.withFiles (p.files.write p.workspace.cwd (Path.ofString text) data time).2 := rfl
  rw [hafter]
  have hgrows := Files.write_grows p.workspace.cwd h.sound (Path.rooted_ofString habsolute) data time
  constructor
  · exact h.tools
  · exact hgrows.sound h.sound
  · refine hgrows.holds h.sound (fun place rows t hnew => ?_) h.holds
    rcases hnew with hdirectory | ⟨-, hfile⟩
    · cases hdirectory
    · cases hfile
  · exact h.cwd
  · intro handle hhandle
    rcases h.handle handle hhandle with hclosed | ⟨place, rows, t, rfl, hplace⟩
    · exact Or.inl hclosed
    · rcases hgrows.file h.sound hplace with hsame | ⟨content, s, hnew, -⟩
      · exact Or.inr ⟨place, rows, t, rfl, hsame⟩
      · rcases hnew with hdirectory | ⟨hwritten, -⟩
        · cases hdirectory
        · exact absurd hwritten.symm (hspares place hhandle)

theorem invariant_touch (h : p.Invariant tools Known) {path : Path} {time : Time} {q : Project}
    (htouch : p.touch path time = .ok q) : q.Invariant tools Known := by
  cases hfiles : p.files.touch p.workspace.cwd path time with
  | error fault => simp [touch, hfiles, bind, Except.bind] at htouch
  | ok after =>
    simp only [touch, hfiles, bind, Except.bind] at htouch
    obtain rfl := Except.ok.inj htouch
    constructor
    · exact h.tools
    · exact h.sound.touch hfiles
    · intro place rows t hplace
      obtain ⟨s, hold⟩ := Files.file_of_retimed (Files.touch_retimes hfiles place t).symm hplace
      cases h.holds place rows s hold with
      | mk hname hrows => exact .mk hname hrows
    · exact h.cwd
    · intro handle hhandle
      rcases h.handle handle hhandle with hclosed | ⟨place, rows, t, rfl, hplace⟩
      · exact Or.inl hclosed
      · obtain ⟨s, hnew⟩ := Files.file_of_retimed (Files.touch_retimes hfiles place t) hplace
        exact Or.inr ⟨place, rows, s, rfl, hnew⟩

theorem invariant_remove (h : p.Invariant tools Known) {text : String} (hspares : p.SparesCache text)
    {q : Project} (hremove : p.remove (Path.ofString text) = .ok q) : q.Invariant tools Known := by
  cases hlocate : p.files.locate p.workspace.cwd (Path.ofString text) with
  | error fault => simp [remove, Files.remove, hlocate, bind, Except.bind] at hremove
  | ok place =>
    cases hplace : p.files.get? place with
    | none => simp [remove, Files.remove, hlocate, hplace, bind, Except.bind] at hremove
    | some e =>
      rcases e with ⟨t⟩ | ⟨content, t⟩
      · simp [remove, Files.remove, hlocate, hplace, bind, Except.bind] at hremove
      · simp only [remove, Files.remove, hlocate, hplace, bind, Except.bind] at hremove
        obtain rfl := Except.ok.inj hremove
        have hne : ∀ other, p.handle = some (.live other) → other ≠ place := fun other hother heq =>
          hspares other hother (heq ▸ (Files.locate_eq_resolve hlocate).symm)
        have hdetach : p.detach (Path.ofString text) = p.handle := by
          unfold detach
          split
          · rename_i other removed hhandle hremoved
            obtain rfl := Except.ok.inj (hlocate.symm.trans hremoved)
            rw [if_neg (hne other hhandle)]
          · rfl
        constructor
        · exact h.tools
        · exact h.sound.erase hplace
        · intro other rows s hother
          have hdiffers : other ≠ place := by
            rintro rfl
            exact Files.get?_erase_self _ _ _ _ hother
          exact h.holds other rows s ((Files.erase_like hdiffers).file_origin hother)
        · exact h.cwd
        · intro handle hhandle
          rcases h.handle handle (hdetach ▸ hhandle) with hclosed | ⟨other, rows, s, rfl, hother⟩
          · exact Or.inl hclosed
          · have hdiffers := hne other (hdetach ▸ hhandle)
            exact Or.inr ⟨other, rows, s, rfl, (Files.erase_like hdiffers).file hother⟩

end Project

namespace Workspace

theorem lintCached_closed (w : Workspace) (path : Path) :
    (w.lintCached (some .closed) path).2 = w := by
  cases hkey : w.cacheKey? path with
  | none => simp [lintCached, stored?, hkey, lintAndStore, store]
  | some key => simp [lintCached, stored?, hkey, Files.rows, bind, Except.bind]

theorem lintAll_closed (w : Workspace) (paths : List Path) :
    (w.lintAll (some .closed) paths).2 = w := by
  induction paths with
  | nil => rfl
  | cons path rest ih =>
    have hfirst := w.lintCached_closed path
    rw [lintAll]
    split
    · rename_i hcached
      rwa [hcached] at hfirst
    · rename_i hcached
      rw [hcached] at hfirst
      subst hfirst
      split
      · rename_i hrest
        rwa [hrest] at ih
      · rename_i hrest
        rwa [hrest] at ih

end Workspace

namespace Project

variable {Known : String → Row → Prop} {p : Project} {all : List Project}

/-- A cache that is open, or none at all, changes nothing about the reports on a path. -/
theorem lintCached_spec (h : p.Invariant tools Known) (hready : p.workspace.Ready Known) {path : Path}
    (hpath : path.Rooted) :
    ∃ grown, (p.lintCached path).2 = p.withFiles grown ∧
      Files.Grows (CacheWork Known) p.files grown ∧
      (p.handle ≠ some .closed → (p.lintCached path).1 =
        .ok ((p.workspace.lintFile true path).map Diagnostic.record)) := by
  have hresult : (p.lintCached path).1 = (p.workspace.lintCached p.handle path).1 := rfl
  have hstate : (p.lintCached path).2 =
      { p with workspace := (p.workspace.lintCached p.handle path).2 } := rfl
  rw [hresult, hstate]
  cases hhandle : p.handle with
  | none =>
    rw [Workspace.lintCached]
    exact ⟨p.files, by rw [← hhandle]; rfl, .refl, fun _ => rfl⟩
  | some handle =>
    rcases h.handle handle hhandle with rfl | ⟨place, rows, t, rfl, hplace⟩
    · refine ⟨p.files, ?_, .refl, fun hopen => absurd rfl hopen⟩
      rw [Workspace.lintCached_closed, ← hhandle]
      rfl
    · obtain ⟨grown, hlint, hgrows⟩ := Workspace.lintCached_spec p.workspace path hready.holds hplace
        fun e he => hready.trusts hpath he
      rw [hlint]
      exact ⟨grown, by rw [← hhandle]; rfl, hgrows, fun _ => rfl⟩

theorem lintPaths_spec (h : p.Invariant tools Known) (hready : p.workspace.Ready Known)
    (excluded : List String) {paths : List Path} (hpaths : ∀ path ∈ paths, path.Rooted) :
    ∃ grown, (p.lintPaths excluded paths).2 = p.withFiles grown ∧
      Files.Grows (CacheWork Known) p.files grown ∧
      (p.handle ≠ some .closed →
        (p.lintPaths excluded paths).1 = (p.workspace.lintPaths none excluded paths).1) := by
  have hresult : (p.lintPaths excluded paths).1 =
      (p.workspace.lintAll p.handle (p.workspace.discover excluded paths)).1 := rfl
  have hstate : (p.lintPaths excluded paths).2 = { p with workspace :=
      (p.workspace.lintAll p.handle (p.workspace.discover excluded paths)).2 } := rfl
  rw [hresult, hstate, Workspace.lintPaths, Workspace.lintAll_none]
  cases hhandle : p.handle with
  | none =>
    rw [Workspace.lintAll_none]
    exact ⟨p.files, by rw [← hhandle]; rfl, .refl, fun _ => rfl⟩
  | some handle =>
    rcases h.handle handle hhandle with rfl | ⟨place, rows, t, rfl, hplace⟩
    · refine ⟨p.files, ?_, .refl, fun hopen => absurd rfl hopen⟩
      rw [Workspace.lintAll_closed, ← hhandle]
      rfl
    · obtain ⟨grown, hlint, hgrows⟩ := hready.lintAll_discover excluded hpaths
        Files.Grows.refl hplace
      have hall : p.workspace.lintAll (some (.live place)) (p.workspace.discover excluded paths) =
          (.ok (p.workspace.reports (p.workspace.discover excluded paths)),
            { p.workspace with files := grown }) := hlint
      rw [hall]
      exact ⟨grown, by rw [← hhandle]; rfl, hgrows, fun _ => rfl⟩

theorem rooted_of_mem_map {texts : List String} (h : ∀ text ∈ texts, Leads text) :
    ∀ path ∈ texts.map Path.ofString, path.Rooted := by
  intro path hpath
  obtain ⟨text, htext, rfl⟩ := List.mem_map.mp hpath
  exact Path.rooted_ofString (h text htext).absolute

theorem invariant_clear (h : p.Invariant tools Known) {q : Project} (hclear : p.cacheClear = .ok q) :
    q.Invariant tools Known := by
  cases hhandle : p.handle with
  | none => simp [cacheClear, currentHandle, hhandle, Files.setRows, Files.rows, bind, Except.bind]
      at hclear
  | some handle =>
    rcases h.handle handle hhandle with rfl | ⟨place, rows, t, rfl, hplace⟩
    · simp [cacheClear, currentHandle, hhandle, Files.setRows, Files.rows, bind, Except.bind] at hclear
    · obtain ⟨grown, hset, hgrows⟩ := Files.setRows_grows h.holds hplace []
        fun _ _ hrow => by cases hrow
      simp only [cacheClear, currentHandle, hhandle, Option.getD_some, hset, bind, Except.bind]
        at hclear
      obtain rfl := Except.ok.inj hclear
      exact h.withFiles hgrows

theorem invariant_open (h : p.Invariant tools Known) {path : Path} (hpath : path.Rooted) :
    (p.openCache path).2.Invariant tools Known := by
  obtain ⟨hgrows, hstore⟩ := Files.openCache_spec Known p.workspace.cwd h.sound hpath
  have hfiles := h.withFiles hgrows
  unfold openCache
  split
  · rename_i place files hopen
    rw [hopen] at hfiles hstore
    obtain ⟨rows, t, hplace⟩ := hstore place rfl
    refine ⟨hfiles.tools, hfiles.sound, hfiles.holds, hfiles.cwd, fun handle hhandle => ?_⟩
    obtain rfl := Option.some.inj hhandle
    exact Or.inr ⟨place, rows, t, rfl, hplace⟩
  · rename_i fault files hopen
    rw [hopen] at hfiles
    exact hfiles

theorem invariant_close (h : p.Invariant tools Known) : p.closeCache.Invariant tools Known := by
  refine ⟨h.tools, h.sound, h.holds, h.cwd, fun handle hhandle => ?_⟩
  obtain ⟨_, -, rfl⟩ := Option.map_eq_some_iff.mp hhandle
  exact Or.inl rfl

theorem step_preserves_invariant (h : p.Invariant tools Known) (hready : p.workspace.Ready Known)
    {event : Event} (henabled : p.Enabled event) : (p.next event).Invariant tools Known := by
  cases event with
  | write text data time => exact invariant_write h henabled.1.absolute henabled.2 data time
  | touch text time =>
    simp only [next]
    split
    · exact invariant_touch h ‹_›
    · exact h
  | remove text =>
    simp only [next]
    split
    · exact invariant_remove h henabled.2 ‹_›
    · exact h
  | lintCached text =>
    obtain ⟨grown, hstate, hgrows, -⟩ := lintCached_spec h hready (Path.rooted_ofString henabled.absolute)
    rw [next, hstate]
    exact h.withFiles hgrows
  | lintPaths excluded texts =>
    obtain ⟨grown, hstate, hgrows, -⟩ :=
      lintPaths_spec h hready excluded (rooted_of_mem_map henabled)
    rw [next, hstate]
    exact h.withFiles hgrows
  | command session arguments =>
    obtain ⟨grown, hrun, hgrows⟩ :=
      Command.runArguments_grows hready session p.environment arguments
    change ({ p with workspace := (Command.runArguments session p.workspace p.environment
      arguments).2 } : Project).Invariant tools Known
    rw [hrun]
    exact h.withFiles hgrows
  | clearCache =>
    simp only [next]
    split
    · exact invariant_clear h ‹_›
    · exact h
  | setVersion version => exact ⟨h.tools, h.sound, h.holds, h.cwd, h.handle⟩
  | closeCache => exact invariant_close h
  | openCache text => exact invariant_open h (Path.rooted_ofString henabled.absolute)

/-- The invariant holds all along a run whose states belong to distinguished ones. -/
theorem run_preserves_invariant {events : List Event} (hall : Distinguished all)
    (hsub : ∀ q ∈ p.states events, q ∈ all) (h : p.Invariant tools (Recorded tools all))
    (henabled : p.EnabledRun events) : ∀ q ∈ p.states events, q.Invariant tools (Recorded tools all) := by
  -- `all` is the whole run and stays fixed, since a row may have been written long before
  induction events generalizing p with
  | nil =>
    intro q hq
    obtain rfl := List.mem_singleton.mp hq
    exact h
  | cons event rest ih =>
    intro q hq
    rcases List.mem_cons.mp hq with rfl | hq
    · exact h
    · have hready := h.ready hall (hsub p List.mem_cons_self)
      exact ih (fun r hr => hsub r (List.mem_cons_of_mem _ hr))
        (step_preserves_invariant h hready henabled.1) henabled.2 q hq

end Project

/-- Through a whole run from empty caches, a cache that is open is not noticed: a path is reported on
as it would be without, all paths together are, and a command that checks files prints the same and
ends the same once its cache is open. A cache that cannot be opened ends the command. -/
theorem cache_transparent (start : Project) (events : List Event) (hfresh : start.Fresh)
    (henabled : start.EnabledRun events)
    (hdistinguished : Project.Distinguished (start.states events)) :
    ∀ p ∈ start.states events,
      (p.handle ≠ some .closed → ∀ text, Project.Leads text →
        (p.lintCached (Path.ofString text)).1 =
          .ok ((p.workspace.lintFile true (Path.ofString text)).map Diagnostic.record)) ∧
      (p.handle ≠ some .closed → ∀ excluded (texts : List String),
        (∀ text ∈ texts, Project.Leads text) →
        (p.lintPaths excluded (texts.map Path.ofString)).1 =
          (p.workspace.lintPaths none excluded (texts.map Path.ofString)).1) ∧
      ∀ session environment options,
        (∀ directory fault,
          Command.cacheDirectory? p.workspace environment options = some directory →
          (p.files.openCache p.workspace.cwd directory).1 = .error fault →
          (Command.run session p.workspace environment (.lint options)).1 =
            .error (.lint (.cache fault))) ∧
        ((∀ directory fault,
            Command.cacheDirectory? p.workspace environment options = some directory →
            (p.files.openCache p.workspace.cwd directory).1 ≠ .error fault) →
          (Command.run session p.workspace environment (.lint options)).1 =
            (Command.run session p.workspace environment
              (.lint { options with noCache := true })).1) := by
  intro p hp
  have hinvariant := Project.run_preserves_invariant hdistinguished (fun _ h => h) hfresh.invariant
    henabled p hp
  have hready := hinvariant.ready hdistinguished hp
  refine ⟨fun hopen text htext => ?_, fun hopen excluded texts htexts => ?_, ?_⟩
  · obtain ⟨_, -, -, hlint⟩ :=
      Project.lintCached_spec hinvariant hready (Path.rooted_ofString htext.absolute)
    exact hlint hopen
  · obtain ⟨_, -, -, hlint⟩ := Project.lintPaths_spec hinvariant hready excluded
      (Project.rooted_of_mem_map htexts)
    exact hlint hopen
  · exact fun session environment options => Command.lint_spec session environment hready options

namespace Project

/-- Places are enough to tell whether projects are distinguished: an absolute path leads to one place
in all of them. -/
theorem distinguished_of_places {all : List Project}
    (h : ∀ p ∈ all, ∀ q ∈ all, ∀ o ∈ p.files.entries, ∀ f ∈ q.files.get? o.1,
      o.2.holding = f.holding ∨ o.2.size ≠ f.size) : Distinguished all := by
  intro p hp q hq text htext e f he hf _ _ hsize
  obtain ⟨place, hplace, hother⟩ := Files.place_of_entries (Path.rooted_ofString htext) he hf
  have hmem : (place, e) ∈ p.files.entries := Ledger.mem_of_get? hplace
  exact (h p hp q hq (place, e) hmem f hother).resolve_right fun hne => hne hsize

theorem sparesCache_of_handle {p : Project} {text : String} (place : Location)
    (hhandle : p.handle = some (.live place))
    (hne : Files.resolve p.workspace.cwd (Path.ofString text) ≠ place) : p.SparesCache text := by
  intro other hother
  obtain rfl : place = other := by
    rw [hhandle] at hother
    exact Handle.live.inj (Option.some.inj hother)
  exact hne

/-- Nothing but an empty root. -/
def vacant : Project :=
  { workspace := { files := Files.empty 0, cwd := [], version := "1" } }

theorem vacant_fresh : vacant.Fresh where
  sound := Files.sound_empty 0
  empty place rows t h := by
    cases place with
    | nil => cases h
    | cons name rest => simp [vacant, files, Files.empty, Files.get?, Ledger.get?] at h
  cwd _ h := by cases h
  handle _ h := by cases h

/-- A file is checked, written anew in the same moment and checked again. -/
def rewriting : List Event :=
  [.openCache "/c", .write "/x.js" (ByteArray.mk #[97]) ⟨0⟩, .lintCached "/x.js",
    .write "/x.js" (ByteArray.mk #[97, 59]) ⟨0⟩, .lintCached "/x.js"]

end Project

open Project in
theorem rewritten_checked_anew :
    vacant.Fresh ∧ vacant.EnabledRun rewriting ∧ Distinguished (vacant.states rewriting) ∧
    ∀ p ∈ vacant.states rewriting,
      (p.lintCached (Path.ofString "/x.js")).1 =
        .ok ((p.workspace.lintFile true (Path.ofString "/x.js")).map Diagnostic.record) ∧
      ∀ session, (Command.run session p.workspace [] (.lint { paths := ["/"] })).1 =
        (Command.run session p.workspace [] (.lint { paths := ["/"], noCache := true })).1 := by
  have hdistinguished : Distinguished (vacant.states rewriting) :=
    distinguished_of_places (by decide +kernel)
  have henabled : vacant.EnabledRun rewriting := by
    refine ⟨⟨rfl, by decide⟩, ⟨⟨rfl, by decide⟩, ?_⟩, ⟨rfl, by decide⟩, ⟨⟨rfl, by decide⟩, ?_⟩,
      ⟨rfl, by decide⟩, trivial⟩
    · exact sparesCache_of_handle ["c", "lint.db"] rfl (by decide)
    · exact sparesCache_of_handle ["c", "lint.db"] rfl (by decide)
  have hopen : ∀ p ∈ vacant.states rewriting, p.handle ≠ some .closed := by
    intro p hp hclosed
    simp only [rewriting, states, List.mem_cons, List.not_mem_nil, or_false] at hp
    rcases hp with rfl | rfl | rfl | rfl | rfl | rfl <;> cases hclosed
  have hdirectory : ∀ p ∈ vacant.states rewriting,
      Command.cacheDirectory? p.workspace [] { paths := ["/"] } =
        some ⟨"/", [".mutation_guard_cache"]⟩ := by
    decide +kernel
  have hopens : ∀ p ∈ vacant.states rewriting,
      (p.files.openCache p.workspace.cwd ⟨"/", [".mutation_guard_cache"]⟩).1.isOk = true := by
    decide +kernel
  refine ⟨vacant_fresh, henabled, hdistinguished, fun p hp => ?_⟩
  obtain ⟨hcached, -, hcommand⟩ :=
    cache_transparent vacant rewriting vacant_fresh henabled hdistinguished p hp
  refine ⟨hcached (hopen p hp) "/x.js" ⟨rfl, by decide⟩, fun session => ?_⟩
  apply (hcommand session [] { paths := ["/"] }).2
  intro directory fault hsome hfault
  obtain rfl := Option.some.inj ((hdirectory p hp).symm.trans hsome)
  have hok := hopens p hp
  rw [hfault] at hok
  cases hok

/-- The settings are made to ask for a cache below a file. -/
def Project.blocking : List Event :=
  [.write "/.env" "MUTATION_GUARD_CACHE_DIR=a/b\n".toUTF8 ⟨0⟩, .write "/a" .empty ⟨0⟩]

open Project in
/-- A cache that cannot be opened is noticed: with it the command breaks off, without it the command
does not. -/
theorem unopenable_cache_noticed :
    vacant.Fresh ∧ vacant.EnabledRun blocking ∧ Distinguished (vacant.states blocking) ∧
    ∃ p ∈ vacant.states blocking, ∀ session,
      (Command.run session p.workspace p.environment
        (.lint { paths := ["/"], format := some "json" })).1 ≠
      (Command.run session p.workspace p.environment
        (.lint { paths := ["/"], format := some "json", noCache := true })).1 := by
  have hdistinguished : Distinguished (vacant.states blocking) :=
    distinguished_of_places (by decide +kernel)
  have henabled : vacant.EnabledRun blocking :=
    ⟨⟨⟨rfl, by decide⟩, fun _ h => by cases h⟩, ⟨⟨rfl, by decide⟩, fun _ h => by cases h⟩, trivial⟩
  refine ⟨vacant_fresh, henabled, hdistinguished, (vacant.states blocking)[2], List.getElem_mem _,
    fun session hsame => ?_⟩
  have hinvariant := run_preserves_invariant hdistinguished (fun _ h => h) vacant_fresh.invariant
    henabled _ (List.getElem_mem (show 2 < (vacant.states blocking).length by decide))
  have hready := hinvariant.ready hdistinguished (List.getElem_mem _)
  have hfault := (Command.lint_spec session [] hready
    { paths := ["/"], format := some "json" }).1 ⟨"/", ["a", "b"]⟩ (.file .notDirectory)
    (by decide +kernel) rfl
  exact Command.lint_ne_fault _ { paths := ["/"], format := some "json" } (hsame.symm.trans hfault)

end StaleQuery
