import StaleQuery.Proofs.Cache.Interleaving
import StaleQuery.Proofs.Command.Outcome

/-!
# Rows of caches

What changes of the files do to the rows of the caches among them, and what is found for a path in a
cache with given rows. Only storing and clearing change the rows of a cache, unless the file of the
cache itself is written or removed.
-/
namespace StaleQuery

namespace Files

/-- The rows of the cache at a place, if there is one. -/
def store? (files : Files) (place : Location) : Option Store :=
  match files.get? place with
  | some (.file (.store rows) _) => some rows
  | _ => none

/-- The row of a text in the cache at a place. -/
def row? (files : Files) (cache : Location) (text : String) : Option Row :=
  (files.store? cache).bind (Ledger.get? text)

variable {files after : Files} {place cache cwd : Location} {path : Path} {rows : Store}

theorem store?_eq_some_iff :
    files.store? place = some rows ↔ ∃ t, files.get? place = some (.file (.store rows) t) := by
  unfold store?
  split
  · rename_i found t hget
    simp [hget]
  · rename_i hother
    constructor
    · intro h
      cases h
    · rintro ⟨t, hget⟩
      exact absurd hget (hother rows t)

theorem Like.store? (h : Like (files.get? place) (after.get? place)) :
    after.store? place = files.store? place := by
  unfold Files.store?
  generalize files.get? place = before at *
  generalize after.get? place = behind at *
  cases h <;> rfl

/-- Every cache keeps its rows, and one that is new has none. -/
def KeepsStores (files after : Files) : Prop :=
  ∀ place, after.store? place = files.store? place ∨
    (files.store? place = none ∧ after.store? place = some [])

theorem KeepsStores.refl (files : Files) : KeepsStores files files :=
  fun _ => Or.inl rfl

theorem KeepsStores.store? (h : KeepsStores files after) (hstore : files.store? place = some rows) :
    after.store? place = some rows := by
  rcases h place with hsame | ⟨hnone, -⟩
  · rw [hsame, hstore]
  · rw [hstore] at hnone
    cases hnone

theorem KeepsStores.row? (h : KeepsStores files after) (cache : Location) (text : String) :
    after.row? cache text = files.row? cache text := by
  unfold Files.row?
  rcases h cache with hsame | ⟨hnone, hempty⟩
  · rw [hsame]
  · rw [hnone, hempty]
    rfl

theorem store?_makeDirectories (files : Files) (cwd : Location) (path : Path) (place : Location) :
    (files.makeDirectories cwd path).2.store? place = files.store? place := by
  unfold store?
  cases makeDirectories_spared files cwd path place with
  | same hsame => rw [hsame]
  | made _ _ hbefore hafter => rw [hbefore, hafter]
  | stamped hbefore hafter => rw [hbefore, hafter]

theorem store?_put_bytes (files : Files) (place : Location) (data : ByteArray) (t : Time) :
    (files.put place (.file (.bytes data) t)).store? place = none := by
  rw [store?, get?_put_file]

theorem store?_put_store (files : Files) (place : Location) (rows : Store) (t : Time) :
    (files.put place (.file (.store rows) t)).store? place = some rows := by
  rw [store?, get?_put_file]

theorem store?_put_of_ne {other : Location} (h : other ≠ place) (files : Files) (e : Entry) :
    (files.put place e).store? other = files.store? other :=
  (put_like h).store?

theorem row?_put_store (files : Files) (cache : Location) (rows : Store) (t : Time) (text : String) :
    (files.put cache (.file (.store rows) t)).row? cache text = Ledger.get? text rows := by
  rw [row?, store?_put_store, Option.bind_some]

theorem row?_put_of_ne {other : Location} (h : other ≠ place) (files : Files) (e : Entry)
    (text : String) : (files.put place e).row? other text = files.row? other text := by
  rw [row?, store?_put_of_ne h, row?]

/-! Changes of files -/

/-- Writing and removing spare the caches unless they hit the file of one. -/
theorem keepsStores_write (cwd : Location) (path : Path) (data : ByteArray) (time : Time)
    (h : files.store? (resolve cwd path) = none) :
    KeepsStores files (files.write cwd path data time).2 := by
  have hmade := store?_makeDirectories files cwd path.parent
  unfold write
  split
  · rename_i made hmake
    rw [hmake] at hmade
    exact fun place => Or.inl (hmade place)
  · rename_i made hmake
    rw [hmake] at hmade
    split
    · rename_i written hwrite
      intro place
      left
      rw [← hmade place]
      cases hlocate : made.locate cwd path with
      | error fault => simp [writeContent, hlocate, bind, Except.bind] at hwrite
      | ok target =>
        obtain rfl := locate_eq_resolve hlocate
        simp only [writeContent, hlocate, bind, Except.bind] at hwrite
        split at hwrite
        · cases hwrite
        · obtain rfl := Except.ok.inj hwrite
          by_cases hplace : place = resolve cwd path
          · rw [hplace, store?_put_bytes, hmade, h]
          · exact store?_put_of_ne hplace made _
    · exact fun place => Or.inl (hmade place)

theorem keepsStores_touch {time : Time} (h : files.touch cwd path time = .ok after) :
    KeepsStores files after := by
  intro place
  left
  have hretimed := fun s => touch_retimes h place s
  cases hstore : files.store? place with
  | some rows =>
    obtain ⟨t, hget⟩ := store?_eq_some_iff.mp hstore
    exact store?_eq_some_iff.mpr (file_of_retimed (hretimed t) hget)
  | none =>
    cases hafter : after.store? place with
    | none => rfl
    | some rows =>
      obtain ⟨t, hget⟩ := store?_eq_some_iff.mp hafter
      have hback := store?_eq_some_iff.mpr (file_of_retimed (hretimed t).symm hget)
      rw [hstore] at hback
      cases hback

theorem keepsStores_remove (hremove : files.remove cwd path = .ok after)
    (h : files.store? (resolve cwd path) = none) : KeepsStores files after := by
  cases hlocate : files.locate cwd path with
  | error fault => simp [remove, hlocate, bind, Except.bind] at hremove
  | ok target =>
    obtain rfl := locate_eq_resolve hlocate
    simp only [remove, hlocate, bind, Except.bind] at hremove
    split at hremove
    · cases hremove
    · cases hremove
    · obtain rfl := Except.ok.inj hremove
      intro place
      left
      by_cases hplace : place = resolve cwd path
      · rw [hplace, h]
        cases herased : (files.erase (resolve cwd path)).store? (resolve cwd path) with
        | none => rfl
        | some rows =>
          obtain ⟨t, hget⟩ := store?_eq_some_iff.mp herased
          exact absurd hget (get?_erase_self files _ _ t)
      · exact (erase_like hplace).store?

theorem keepsStores_put_empty (h : files.store? cache = none) (t : Time) :
    KeepsStores files (files.put cache (.file (.store []) t)) := by
  intro place
  by_cases hplace : place = cache
  · subst hplace
    exact Or.inr ⟨h, store?_put_store files place [] t⟩
  · exact Or.inl (store?_put_of_ne hplace files _)

theorem keepsStores_openRows (h : files.openRows cache = .ok after) :
    KeepsStores files after ∧ ∃ rows, after.store? cache = some rows := by
  unfold openRows at h
  split at h
  · cases h
  · rename_i rows t hget
    obtain rfl := Except.ok.inj h
    exact ⟨.refl files, rows, store?_eq_some_iff.mpr ⟨t, hget⟩⟩
  · rename_i data t hget
    split at h
    · obtain rfl := Except.ok.inj h
      have hnone : files.store? cache = none := by rw [store?, hget]
      exact ⟨keepsStores_put_empty hnone _, [], store?_put_store files cache [] _⟩
    · cases h
  · rename_i hget
    obtain rfl := Except.ok.inj h
    have hnone : files.store? cache = none := by rw [store?, hget]
    exact ⟨keepsStores_put_empty hnone _, [], store?_put_store files cache [] _⟩

theorem keepsStores_openCache (files : Files) (cwd : Location) (path : Path) :
    KeepsStores files (files.openCache cwd path).2 ∧
      ∀ cache, (files.openCache cwd path).1 = .ok cache →
        ∃ rows, (files.openCache cwd path).2.store? cache = some rows := by
  have hmade := store?_makeDirectories files cwd path
  unfold openCache
  split
  · rename_i made hmake
    rw [hmake] at hmade
    exact ⟨fun place => Or.inl (hmade place), fun _ h => by cases h⟩
  · rename_i made hmake
    rw [hmake] at hmade
    split
    · exact ⟨fun place => Or.inl (hmade place), fun _ h => by cases h⟩
    · split
      · rename_i hready
        obtain ⟨hkeeps, hstore⟩ := keepsStores_openRows hready
        refine ⟨fun place => ?_, ?_⟩
        · have hplace := hkeeps place
          rwa [hmade place] at hplace
        · rintro cache ⟨⟩
          exact hstore
      · exact ⟨fun place => Or.inl (hmade place), fun _ h => by cases h⟩

/-! What a file holds -/

variable {old content : Content} {s t : Time}

/-- Following names does not depend on what a file holds. -/
theorem walk_put_file (h : files.get? cache = some (.file old s)) (place : Location)
    (names : List String) :
    (files.put cache (.file content t)).walk place names = files.walk place names := by
  induction names generalizing place with
  | nil => rfl
  | cons name rest ih =>
    by_cases hplace : place = cache
    · subst hplace
      simp only [walk, h, get?_put_file]
    · simp only [walk, get?_put_of_ne h hplace, ih]

theorem entry_put_file (h : files.get? cache = some (.file old s)) {path : Path}
    (hpath : resolve cwd path ≠ cache) :
    (files.put cache (.file content t)).entry cwd path = files.entry cwd path := by
  have hlocate : (files.put cache (.file content t)).locate cwd path = files.locate cwd path :=
    walk_put_file h _ _
  unfold entry
  rw [hlocate]
  cases hplace : files.locate cwd path with
  | error fault => rfl
  | ok place =>
    have hne : place ≠ cache := by
      rw [locate_eq_resolve hplace]
      exact hpath
    simp only [bind, Except.bind, get?_put_of_ne h hne]

end Files

theorem Entry.cacheKey_eq_iff {e f : Entry} {v w : String} : e.cacheKey v = f.cacheKey w ↔
    v = w ∧ e.modified.text = f.modified.text ∧ e.size = f.size := by
  constructor
  · exact Entry.cacheKey_inj
  · rintro ⟨rfl, htime, hsize⟩
    rw [cacheKey, cacheKey, htime, hsize]

/-- What is found for a path depends on its own row only, unless the path leads to the cache. -/
theorem Workspace.stored?_put_store {w : Workspace} {cache : Location} {rows after : Store} {s : Time}
    (hget : w.files.get? cache = some (.file (.store rows) s)) (t : Time) {handle : Handle}
    {other : Path} (hplace : Files.resolve w.cwd other ≠ cache)
    (hrow : handle = .live cache →
      Ledger.get? other.toString after = Ledger.get? other.toString rows) :
    ({ w with files := w.files.put cache (.file (.store after) t) } : Workspace).stored? handle other =
      w.stored? handle other := by
  have hentry : (w.files.put cache (.file (.store after) t)).entry w.cwd other =
      w.files.entry w.cwd other := Files.entry_put_file hget hplace
  unfold stored? cacheKey? Files.cacheKey?
  rw [hentry]
  cases w.files.entry w.cwd other with
  | error fault => rfl
  | ok e =>
    cases handle with
    | closed => rfl
    | detached found => rfl
    | live place =>
      by_cases heq : place = cache
      · subst heq
        have hafter := Files.rows_of_live (Files.get?_put_file w.files place (.store after) t)
        have hbefore := Files.rows_of_live hget
        simp only [hafter, hbefore, bind, Except.bind, Store.lookup, hrow rfl]
      · have hrows : (w.files.put cache (.file (.store after) t)).rows (.live place) =
            w.files.rows (.live place) := by
          rw [Files.rows, Files.rows, Files.get?_put_of_ne hget heq]
        simp only [hrows]

namespace Project

variable {p : Project} {cache : Location} {path : Path}

theorem HandleSound.store? (h : p.HandleSound) (hopen : p.handle = some (.live cache)) :
    ∃ rows, p.files.store? cache = some rows := by
  rcases h _ hopen with hclosed | ⟨place, rows, t, hlive, hget⟩
  · cases hclosed
  · obtain rfl := Handle.live.inj hlive
    exact ⟨rows, Files.store?_eq_some_iff.mpr ⟨t, hget⟩⟩

theorem HandleSound.closed_or_live (h : p.HandleSound) :
    p.currentHandle = .closed ∨ ∃ cache, p.handle = some (.live cache) := by
  unfold currentHandle
  cases hhandle : p.handle with
  | none => exact Or.inl rfl
  | some handle =>
    rcases h handle hhandle with rfl | ⟨place, rows, t, rfl, -⟩
    · exact Or.inl rfl
    · exact Or.inr ⟨place, rfl⟩

theorem files_openCache (p : Project) (directory : Path) :
    (p.openCache directory).2.files = (p.files.openCache p.workspace.cwd directory).2 := by
  unfold openCache
  split <;> rename_i hopen <;> rw [hopen] <;> rfl

theorem handle_openCache (p : Project) (directory : Path) :
    (p.openCache directory).2.handle = p.handle ∨ ∃ cache rows,
      (p.openCache directory).2.handle = some (.live cache) ∧
        (p.openCache directory).2.files.store? cache = some rows := by
  have hstore := (Files.keepsStores_openCache p.files p.workspace.cwd directory).2
  rw [files_openCache]
  unfold openCache
  split
  · rename_i cache files hopen
    rw [hopen] at hstore ⊢
    obtain ⟨rows, hrows⟩ := hstore cache rfl
    exact Or.inr ⟨cache, rows, rfl, hrows⟩
  · exact Or.inl rfl

theorem detach_of_spared (h : p.HandleSound)
    (hspares : p.files.store? (Files.resolve p.workspace.cwd path) = none) :
    p.detach path = p.handle := by
  unfold detach
  split
  · rename_i place removed hopen hlocate
    obtain ⟨rows, hstore⟩ := h.store? hopen
    rw [← Files.locate_eq_resolve hlocate] at hspares
    have hne : place ≠ removed := by
      rintro rfl
      rw [hstore] at hspares
      cases hspares
    rw [if_neg hne]
  · rfl

/-- What an open cache answers for a path that leads to something, if its text can be read. -/
theorem exists_cacheGet (h : p.HandleSound) (hopen : p.handle = some (.live cache)) {now : Entry}
    (hentry : p.files.entry p.workspace.cwd path = .ok now)
    (hread : ∀ row, p.files.row? cache path.toString = some row →
      ∃ value, Json.parse p.workspace.tools.limits row.text = .ok value) :
    ∃ answer, p.cacheGet path = .ok answer ∧ ∀ value, answer = some value ↔
      ∃ row, p.files.row? cache path.toString = some row ∧
        row.key = now.cacheKey p.workspace.version ∧
        Json.parse p.workspace.tools.limits row.text = .ok value ∧ value ≠ .null := by
  obtain ⟨rows, hstore⟩ := h.store? hopen
  obtain ⟨t, hget⟩ := Files.store?_eq_some_iff.mp hstore
  have hcurrent : p.currentHandle = .live cache := by rw [currentHandle, hopen, Option.getD_some]
  have hrows : p.workspace.files.rows (.live cache) = .ok rows := Files.rows_of_live hget
  rw [Files.row?, hstore, Option.bind_some] at hread ⊢
  simp only [cacheGet, hcurrent, Workspace.stored?, Workspace.cacheKey?_of_entry hentry, hrows, bind,
    Except.bind, Store.lookup]
  cases hrow : Ledger.get? path.toString rows with
  | none => exact ⟨none, rfl, by simp⟩
  | some row =>
    by_cases hkey : row.key = now.cacheKey p.workspace.version
    · simp only [if_pos hkey]
      obtain ⟨found, hparse⟩ := hread row hrow
      cases found with
      | null => exact ⟨none, by rw [hparse]; rfl, by simp [hparse]⟩
      | bool | int | decimal | str | arr | obj =>
        exact ⟨some _, by rw [hparse]; rfl, by simp [hparse, hkey]⟩
    · simp only [if_neg hkey]
      exact ⟨none, rfl, by simp [hkey]⟩

/-- Storing a value for one path is not noticed by any other, in whatever cache it is looked up. -/
theorem stored?_cacheSet (h : p.HandleSound) (hopen : p.handle = some (.live cache)) (path : Path)
    (value : Json) :
    ∃ q, p.cacheSet path value = .ok q ∧ ∀ handle other,
      (handle = .live cache → other.toString ≠ path.toString) →
      Files.resolve p.workspace.cwd other ≠ cache →
      q.workspace.stored? handle other = p.workspace.stored? handle other := by
  obtain ⟨rows, hstore⟩ := h.store? hopen
  obtain ⟨t, hget⟩ := Files.store?_eq_some_iff.mp hstore
  rcases hentry : p.files.entry p.workspace.cwd path with fault | e
  · exact ⟨p, cacheSet_of_error hentry, fun _ _ _ _ => rfl⟩
  · refine ⟨_, cacheSet_of_entry hopen hget hentry, fun handle other hother hplace => ?_⟩
    exact Workspace.stored?_put_store hget _ hplace fun hlive =>
      Ledger.get?_put_of_ne (hother hlive) _ _

end Project
end StaleQuery
