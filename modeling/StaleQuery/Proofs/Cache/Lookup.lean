import StaleQuery.Proofs.Cache.Key
import StaleQuery.Proofs.Cache.Records
import StaleQuery.Proofs.Files.Growth

/-!
# Checking through a cache

What checking a file gives depends on its path, on what it holds and on the parser. A row of a cache is
the key of a file with that result as text, and the text can be read back. So a cache answers as
checking would if its rows are right for the file at hand; whatever it does not know it learns on the
way.
-/
namespace StaleQuery

/-! What checking depends on -/

/-- What an entry holds as far as checking can tell. -/
inductive Holding where
  | directory
  | bytes (data : ByteArray)
  | store

instance : DecidableEq Holding
  | .directory, .directory | .store, .store => isTrue rfl
  | .bytes data, .bytes other =>
    @decidable_of_iff _ (data = other) (by simp) (ByteArray.instDecidableEq data other)
  | .directory, .bytes _ | .directory, .store | .bytes _, .directory | .bytes _, .store
  | .store, .directory | .store, .bytes _ => isFalse nofun

def Entry.holding : Entry → Holding
  | .directory _ => .directory
  | .file (.bytes data) _ => .bytes data
  | .file (.store _) _ => .store

namespace Toolchain

/-- The reports on a path that leads to this. -/
def verdict (tools : Toolchain) (path : Path) (holding : Holding) : List Diagnostic :=
  match path.dialect?, holding with
  | some dialect, .bytes data =>
    Rule.standard.reports depthLimit path.toString (tools.parse dialect data)
  | _, _ => []

/-- The row that checking an entry leaves. -/
def row (tools : Toolchain) (version : String) (path : Path) (e : Entry) : Row :=
  ⟨e.cacheKey version,
    (Record.listToJson ((tools.verdict path e.holding).map Diagnostic.record)).line⟩

theorem parse_verdict (limits : Json.Limits) (tools : Toolchain) (path : Path) (holding : Holding) :
    Json.parse limits (Record.listToJson ((tools.verdict path holding).map Diagnostic.record)).line =
      .ok (Record.listToJson ((tools.verdict path holding).map Diagnostic.record)) := by
  apply parse_records
  intro d hd
  unfold verdict at hd
  split at hd
  · exact Rule.short_of_mem_reports (tools.narrow _ _) hd
  · cases hd

end Toolchain

namespace Workspace

variable {w : Workspace} {path : Path} {e : Entry}

theorem lintFile_of_entry (h : w.files.entry w.cwd path = .ok e) :
    w.lintFile true path = w.tools.verdict path e.holding := by
  unfold lintFile Toolchain.verdict
  rw [h]
  rcases path.dialect? with _ | dialect
  · rfl
  · rcases e with ⟨t⟩ | ⟨data | rows, t⟩
    · rfl
    · simp only [if_true, Entry.holding]
    · rfl

theorem exists_verdict (w : Workspace) (path : Path) :
    ∃ holding, w.lintFile true path = w.tools.verdict path holding := by
  rcases hentry : w.files.entry w.cwd path with fault | e
  · refine ⟨.directory, ?_⟩
    unfold lintFile Toolchain.verdict
    rw [hentry]
    cases path.dialect? <;> rfl
  · exact ⟨e.holding, lintFile_of_entry hentry⟩

theorem cacheKey?_of_entry (h : w.files.entry w.cwd path = .ok e) :
    w.cacheKey? path = some (e.cacheKey w.version) := by
  rw [cacheKey?, Files.cacheKey?, h]

theorem cacheKey?_of_error {fault : FileFault} (h : w.files.entry w.cwd path = .error fault) :
    w.cacheKey? path = none := by
  rw [cacheKey?, Files.cacheKey?, h]

end Workspace

/-! Caches with known rows -/

section

variable (Known : String → Row → Prop)

/-- A cache in a file of its name, with known rows only. -/
inductive KnownCache (place : Location) : Entry → Prop where
  | mk {rows t} : place.getLast? = some Cache.fileName →
      (∀ path row, Ledger.get? path rows = some row → Known path row) →
      KnownCache place (.file (.store rows) t)

/-- Every cache of the tree has known rows. -/
def Files.Holds (files : Files) : Prop :=
  ∀ place rows t, files.get? place = some (.file (.store rows) t) →
    KnownCache Known place (.file (.store rows) t)

/-- What working with a cache may add to the tree. -/
def CacheWork (place : Location) (e : Entry) : Prop :=
  e.isDirectory = true ∨ KnownCache Known place e

/-- The known rows for an entry are right, and its own row is one of them. -/
structure Trusts (tools : Toolchain) (version : String) (path : Path) (e : Entry) : Prop where
  right : ∀ row, Known path.toString row → row.key = e.cacheKey version →
    row = tools.row version path e
  known : Known path.toString (tools.row version path e)

end

variable {Known : String → Row → Prop}

namespace Files

variable {files grown : Files} {place : Location}

theorem Grows.holds {New : Location → Entry → Prop} (h : Grows New files grown) (hs : files.Sound)
    (hnew : ∀ place rows t, New place (.file (.store rows) t) →
      KnownCache Known place (.file (.store rows) t))
    (hholds : files.Holds Known) : grown.Holds Known := by
  intro place rows t hplace
  rcases h.file_origin hs hplace with hold | hadded
  · exact hholds place rows t hold
  · exact hnew place rows t hadded

theorem Grows.holds_of_work (h : Grows (CacheWork Known) files grown) (hs : files.Sound)
    (hholds : files.Holds Known) : grown.Holds Known := by
  refine h.holds hs (fun place rows t hnew => ?_) hholds
  rcases hnew with hdirectory | hcache
  · cases hdirectory
  · exact hcache

theorem Grows.store_of_work (h : Grows (CacheWork Known) files grown) (hs : files.Sound)
    {rows : Store} {t : Time} (hplace : files.get? place = some (.file (.store rows) t)) :
    ∃ rows t, grown.get? place = some (.file (.store rows) t) := by
  rcases h.file hs hplace with hsame | ⟨content, s, hnew, hplace⟩
  · exact ⟨rows, t, hsame⟩
  · rcases hnew with hdirectory | hcache
    · cases hdirectory
    · cases hcache
      exact ⟨_, _, hplace⟩

/-- A path to a file that is no cache. -/
def Regular (files : Files) (cwd : Location) (path : Path) : Prop :=
  ∃ place content t, files.locate cwd path = .ok place ∧
    files.get? place = some (.file content t) ∧ place.getLast? ≠ some Cache.fileName

theorem entry_of_locate {cwd : Location} {path : Path} {e : Entry}
    (hlocate : files.locate cwd path = .ok place) (hplace : files.get? place = some e) :
    files.entry cwd path = .ok e := by
  simp only [entry, hlocate, bind, Except.bind, hplace]
  rfl

theorem Grows.regular (h : Grows (CacheWork Known) files grown) (hs : files.Sound) {cwd : Location}
    {path : Path} (hregular : files.Regular cwd path) :
    grown.Regular cwd path ∧ grown.entry cwd path = files.entry cwd path := by
  obtain ⟨place, content, t, hlocate, hplace, hname⟩ := hregular
  have hsame : grown.get? place = some (.file content t) := by
    rcases h.file hs hplace with hsame | ⟨content, s, hnew, -⟩
    · exact hsame
    · rcases hnew with hdirectory | hcache
      · cases hdirectory
      · cases hcache with
        | mk hcache => exact absurd hcache hname
  have hwalk : grown.locate cwd path = .ok place := h.walk hlocate
  exact ⟨⟨place, content, t, hwalk, hsame, hname⟩,
    (entry_of_locate hwalk hsame).trans (entry_of_locate hlocate hplace).symm⟩

theorem rows_of_live {rows : Store} {t : Time}
    (hplace : files.get? place = some (.file (.store rows) t)) :
    files.rows (.live place) = .ok rows := by
  rw [Files.rows, hplace]

theorem exists_of_rows_live {rows : Store} (h : files.rows (.live place) = .ok rows) :
    ∃ t, files.get? place = some (.file (.store rows) t) := by
  simp only [Files.rows] at h
  split at h
  · rename_i found t hget
    exact ⟨t, Except.ok.inj h ▸ hget⟩
  · cases h
  · cases h

theorem setRows_of_live {rows after : Store} {t : Time}
    (hplace : files.get? place = some (.file (.store rows) t)) :
    files.setRows (.live place) after =
      .ok (files.put place (.file (.store after) (Time.ofSeconds files.clock 0))) := by
  rw [setRows, rows_of_live hplace]
  rfl

theorem setRows_grows (hholds : files.Holds Known) {rows : Store} {t : Time}
    (hplace : files.get? place = some (.file (.store rows) t)) (after : Store)
    (hrows : ∀ path row, Ledger.get? path after = some row → Known path row) :
    ∃ grown, files.setRows (.live place) after = .ok grown ∧
      Grows (CacheWork Known) files grown := by
  cases hholds place rows t hplace with
  | mk hname =>
    exact ⟨_, setRows_of_live hplace, .replace .refl hplace (Or.inr (.mk hname hrows))⟩

end Files

namespace Store

theorem known_save {rows : Store} {path key text : String}
    (hrows : ∀ path row, Ledger.get? path rows = some row → Known path row)
    (hnew : Known path ⟨key, text⟩) :
    ∀ other row, Ledger.get? other (rows.save path key text) = some row → Known other row := by
  intro other row hget
  by_cases h : other = path
  · subst h
    rw [save, Ledger.get?_put_self] at hget
    exact Option.some.inj hget ▸ hnew
  · rw [save, Ledger.get?_put_of_ne h] at hget
    exact hrows other row hget

theorem exists_row_of_lookup {rows : Store} {path key text : String}
    (h : rows.lookup path key = some text) :
    ∃ row, Ledger.get? path rows = some row ∧ row.key = key ∧ row.text = text := by
  unfold lookup at h
  split at h
  · rename_i row hrow
    split at h
    · exact ⟨row, hrow, ‹_›, Option.some.inj h⟩
    · cases h
  · cases h

end Store

namespace Workspace

variable {w : Workspace} {path : Path} {place : Location}

theorem stored?_spec (hholds : w.files.Holds Known) {rows : Store} {t : Time}
    (hplace : w.files.get? place = some (.file (.store rows) t))
    (htrust : ∀ e, w.files.entry w.cwd path = .ok e → Trusts Known w.tools w.version path e) :
    w.stored? (.live place) path = .ok none ∨ w.stored? (.live place) path =
      .ok (some (Record.listToJson ((w.lintFile true path).map Diagnostic.record))) := by
  rcases hentry : w.files.entry w.cwd path with fault | e
  · exact Or.inl (by rw [stored?, cacheKey?_of_error hentry])
  · simp only [stored?, cacheKey?_of_entry hentry, Files.rows_of_live hplace, bind, Except.bind]
    cases hlookup : rows.lookup path.toString (e.cacheKey w.version) with
    | none => exact Or.inl rfl
    | some text =>
      obtain ⟨row, hrow, hkey, rfl⟩ := Store.exists_row_of_lookup hlookup
      have hknown : Known path.toString row := by
        cases hholds place rows t hplace with
        | mk _ hrows => exact hrows _ _ hrow
      have hright := (htrust e hentry).right row hknown hkey
      rw [hright, lintFile_of_entry hentry]
      simp only [Toolchain.row, Toolchain.parse_verdict]
      exact Or.inr rfl

/-- Checking through a cache gives what checking gives, and the cache stays one with known rows. -/
theorem lintCached_spec (w : Workspace) (path : Path) (hholds : w.files.Holds Known) {rows : Store}
    {t : Time}
    (hplace : w.files.get? place = some (.file (.store rows) t))
    (htrust : ∀ e, w.files.entry w.cwd path = .ok e → Trusts Known w.tools w.version path e) :
    ∃ grown, w.lintCached (some (.live place)) path =
        (.ok ((w.lintFile true path).map Diagnostic.record), { w with files := grown }) ∧
      Files.Grows (CacheWork Known) w.files grown := by
  rcases stored?_spec hholds hplace htrust with hmiss | hhit
  · simp only [lintCached, hmiss, lintAndStore]
    rcases hentry : w.files.entry w.cwd path with fault | e
    · exact ⟨w.files, by rw [store, cacheKey?_of_error hentry], .refl⟩
    · have hrows : ∀ path row, Ledger.get? path rows = some row → Known path row := by
        cases hholds place rows t hplace with
        | mk _ hrows => exact hrows
      have hrow := (htrust e hentry).known
      rw [Toolchain.row, ← lintFile_of_entry hentry] at hrow
      obtain ⟨grown, hset, hgrows⟩ :=
        Files.setRows_grows hholds hplace _ (Store.known_save hrows hrow)
      refine ⟨grown, ?_, hgrows⟩
      simp only [store, cacheKey?_of_entry hentry, Files.rows_of_live hplace, bind, Except.bind, hset]
      rfl
  · exact ⟨w.files, by simp only [lintCached, hhit, Record.listOfJson_listToJson], .refl⟩

/-- The reports on files one after the other. -/
def reports (w : Workspace) (paths : List Path) : List Record :=
  paths.flatMap fun path => (w.lintFile true path).map Diagnostic.record

theorem lintAll_none (w : Workspace) (paths : List Path) :
    w.lintAll none paths = (.ok (w.reports paths), w) := by
  induction paths with
  | nil => rfl
  | cons path rest ih =>
    rw [lintAll, lintCached]
    simp only [ih, reports, List.flatMap_cons]

/-- The same through a cache. While the cache grows, the files that are checked stay as they are. -/
theorem lintAll_spec (hs : w.files.Sound) (hholds : w.files.Holds Known) {paths : List Path}
    (hregular : ∀ path ∈ paths, w.files.Regular w.cwd path)
    (htrust : ∀ path ∈ paths, ∀ e, w.files.entry w.cwd path = .ok e →
      Trusts Known w.tools w.version path e)
    {files : Files} (hgrows : Files.Grows (CacheWork Known) w.files files) {rows : Store} {t : Time}
    (hplace : files.get? place = some (.file (.store rows) t)) :
    ∃ grown, ({ w with files } : Workspace).lintAll (some (.live place)) paths =
        (.ok (w.reports paths), { w with files := grown }) ∧
      Files.Grows (CacheWork Known) w.files grown := by
  induction paths generalizing files rows t with
  | nil => exact ⟨files, rfl, hgrows⟩
  | cons path rest ih =>
    obtain ⟨-, hentry⟩ := hgrows.regular hs (hregular path List.mem_cons_self)
    have hlint : ({ w with files } : Workspace).lintFile true path = w.lintFile true path := by
      unfold lintFile
      rw [hentry]
    obtain ⟨next, hcached, hnext⟩ := lintCached_spec { w with files } path
      (hgrows.holds_of_work hs hholds) hplace fun e he =>
        htrust path List.mem_cons_self e (hentry ▸ he)
    obtain ⟨rows', t', hplace'⟩ := hnext.store_of_work (hgrows.sound hs) hplace
    obtain ⟨grown, hall, hgrown⟩ := ih (fun p hp => hregular p (List.mem_cons_of_mem _ hp))
      (fun p hp => htrust p (List.mem_cons_of_mem _ hp)) (hgrows.trans hnext) hplace'
    refine ⟨grown, ?_, hgrown⟩
    rw [lintAll, hcached]
    simp only [hall, hlint, reports, List.flatMap_cons]

end Workspace
end StaleQuery
