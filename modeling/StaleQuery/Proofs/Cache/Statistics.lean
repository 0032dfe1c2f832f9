import Mathlib.Data.Set.Card
import StaleQuery.Proofs.Cache.Histories

/-!
# What the statistics count

The statistics of a cache are counted over its rows. A row is there for each text that was stored
since the cache was cleared, and once only. Its text is that of an empty list exactly if an empty list
was stored. So over any run that spares the files of the caches the numbers are those of the texts
that were stored, and checking a file that is found does not change them.
-/
namespace StaleQuery

/-- What may be done in a run: operations, checking a file through the cache, making directories and
going to them. -/
inductive Move where
  | operation (operation : Operation)
  | lint (path : Path)
  | makeDirectory (path : Path)
  | changeDirectory (path : Path)

/-- A move along paths that a system takes, with data that the reader has room for. -/
def Move.Meant (limits : Json.Limits) : Move → Prop
  | .operation deed => deed.Meant limits
  | .lint path | .makeDirectory path | .changeDirectory path => path.Unbroken

namespace Project

/-- The project after a move, also after one that fails. -/
def follow (p : Project) : Move → Project
  | .operation operation => p.after operation
  | .lint path => (p.lintCached path).2
  | .makeDirectory path => (p.makeDirectory path).2
  | .changeDirectory path =>
    match p.changeDirectory path with
    | .ok q => q
    | .error _ => p

def followAll (p : Project) (moves : List Move) : Project :=
  moves.foldl follow p

/-- The operation that a move comes to. Checking a file that is not found stores the result. -/
def performed? (p : Project) : Move → Option Operation
  | .operation operation => some operation
  | .lint path =>
    match p.cacheGet path with
    | .ok none =>
      some (.store path (Record.listToJson
        ((p.workspace.lintFile true path).map Diagnostic.record)))
    | _ => none
  | .makeDirectory _ | .changeDirectory _ => none

/-- The operations that a run comes to, each with the project it meets. -/
def deeds (p : Project) : List Move → List Step
  | [] => []
  | move :: rest => (p.performed? move).toList.map (Step.mk p) ++ (p.follow move).deeds rest

theorem deeds_concat (p : Project) (moves : List Move) (last : Move) :
    p.deeds (moves ++ [last]) =
      p.deeds moves ++
        ((p.followAll moves).performed? last).toList.map (Step.mk (p.followAll moves)) := by
  induction moves generalizing p with
  | nil => simp [deeds, followAll]
  | cons move rest ih =>
    rw [List.cons_append, deeds, ih, deeds, List.append_assoc]
    rfl

end Project

/-! Rows and their number -/

namespace Ledger

variable {κ α : Type} [DecidableEq κ]

/-- Where every key stands once, rows are counted by their keys. -/
theorem length_filter_eq_ncard {ledger : Ledger κ α} (hnodup : (ledger.map Prod.fst).Nodup)
    (counts : α → Bool) :
    (ledger.filter fun entry => counts entry.2).length =
      {key | ∃ value, get? key ledger = some value ∧ counts value = true}.ncard := by
  have hkept : ((ledger.filter fun entry => counts entry.2).map Prod.fst).Nodup :=
    hnodup.sublist (List.filter_sublist.map Prod.fst)
  have hkeys : {key | ∃ value, get? key ledger = some value ∧ counts value = true} =
      ↑((ledger.filter fun entry => counts entry.2).map Prod.fst).toFinset := by
    ext key
    simp [get?_eq_some_iff hnodup, and_comm]
  rw [hkeys, Set.ncard_coe_finset, List.toFinset_card_of_nodup hkept, List.length_map]

end Ledger

/-- Of what can be read only an empty list is written as one. -/
theorem Json.line_eq_emptyText_iff {limits : Limits} {value : Json} (h : value.Readable limits) :
    value.line = Store.emptyText ↔ value = .arr [] := by
  have hempty : (arr []).line = Store.emptyText := rfl
  constructor
  · intro hline
    have hread := h.parse_line
    have hwithin : Within limits.digits limits.depth (arr []) :=
      Within.mono (.arr (fun _ hv => by cases hv) : Within 10 1 (arr [])) limits.ten_le_digits
        (Nat.le_of_succ_le limits.two_le_depth)
    rw [hline, ← hempty, parse_line (.arr fun _ hv => by cases hv) hwithin] at hread
    exact (Except.ok.inj hread).symm
  · rintro rfl
    exact hempty

namespace Files

/-- In every cache there is one row for a text at most. -/
def Tidy (files : Files) : Prop :=
  ∀ cache rows, files.store? cache = some rows → (rows.map Prod.fst).Nodup

theorem KeepsStores.tidy {files after : Files} (h : KeepsStores files after) (htidy : files.Tidy) :
    after.Tidy := by
  intro cache rows hrows
  rcases h cache with hsame | ⟨-, hempty⟩
  · exact htidy cache rows (hsame ▸ hrows)
  · obtain rfl := Option.some.inj (hempty.symm.trans hrows)
    exact List.nodup_nil

theorem Tidy.put_store {files : Files} (htidy : files.Tidy) (cache : Location) {rows : Store}
    (hrows : (rows.map Prod.fst).Nodup) (t : Time) :
    (files.put cache (.file (.store rows) t)).Tidy := by
  intro place found hfound
  by_cases hplace : place = cache
  · subst hplace
    rw [store?_put_store] at hfound
    exact Option.some.inj hfound ▸ hrows
  · rw [store?_put_of_ne hplace] at hfound
    exact htidy place found hfound

end Files

theorem Step.Effect.tidy {s : Step} {q : Project} (h : s.Effect q) (htidy : s.project.files.Tidy) :
    q.files.Tidy := by
  cases h with
  | quiet hkeeps => exact hkeeps.tidy htidy
  | clears => exact htidy.put_store _ (by simp) _
  | stores _ hstore => exact htidy.put_store _ (Ledger.nodup_keys_put (htidy _ _ hstore)) _

/-! One move -/

namespace Project

variable {p q : Project} {steps : List Step}

/-- Checking a file does nothing to a project but what it stores. -/
theorem follow_lint (p : Project) (path : Path) :
    p.follow (.lint path) = ((p.performed? (.lint path)).map p.after).getD p := by
  obtain ⟨w, environment, configured, handle⟩ := p
  cases handle with
  | none =>
    have hnothing : ∀ value, (Project.mk w environment configured none).after (.store path value) =
        Project.mk w environment configured none := fun value =>
      after_store_of_closed rfl
    simp only [follow, lintCached, Workspace.lintCached, performed?]
    split
    · simp only [Option.map_some, Option.getD_some, hnothing]
    · rfl
  | some handle =>
    simp only [follow, lintCached, Workspace.lintCached, performed?, cacheGet, currentHandle,
      Option.getD_some]
    cases hstored : w.stored? handle path with
    | error fault => rfl
    | ok found =>
      cases found with
      | some value =>
        dsimp only
        cases Record.listOfJson value with
        | error fault => rfl
        | ok records => rfl
      | none =>
        simp only [Workspace.lintAndStore, Option.map_some, Option.getD_some, after, cacheSet,
          currentHandle, bind, Except.bind]
        cases w.store handle path (Record.listToJson
          ((w.lintFile true path).map Diagnostic.record)) with
        | error fault => rfl
        | ok w => rfl

/-- The rows are what was stored last, each once. -/
structure Tallies (p : Project) (steps : List Step) : Prop where
  remembers : p.Remembers steps
  tidy : p.files.Tidy

theorem Unwritten.tallies (h : p.Unwritten) : p.Tallies [] where
  remembers := h.remembers
  tidy cache rows hstore := by
    cases rows with
    | nil => exact List.nodup_nil
    | cons entry rest =>
      have hrow := h.empty cache entry.1
      rw [Files.row?, hstore, Option.bind_some, Ledger.get?, if_pos rfl] at hrow
      cases hrow

theorem Tallies.keep (h : p.Tallies steps) (hkeeps : Files.KeepsStores p.files q.files)
    (hhandle : q.handle = p.handle) : q.Tallies steps where
  remembers :=
    { rows := fun cache text row => by rw [hkeeps.row?, h.remembers.rows]
      handle := by
        intro handle hq
        rcases h.remembers.handle handle (hhandle ▸ hq) with hclosed | ⟨cache, rows, t, rfl, hget⟩
        · exact Or.inl hclosed
        · have hstore := hkeeps.store? (Files.store?_eq_some_iff.mpr ⟨t, hget⟩)
          obtain ⟨t, hget⟩ := Files.store?_eq_some_iff.mp hstore
          exact Or.inr ⟨cache, rows, t, rfl, hget⟩ }
  tidy := hkeeps.tidy h.tidy

theorem Tallies.operation (h : p.Tallies steps) {operation : Operation}
    (hspares : (Step.mk p operation).SparesCaches) :
    (p.after operation).Tallies (steps ++ [⟨p, operation⟩]) := by
  have heffect := Step.effect h.remembers.handle hspares
  exact ⟨h.remembers.step heffect, heffect.tidy h.tidy⟩

/-- A move counts as the operation that it comes to, if there is one. -/
theorem Tallies.follow (h : p.Tallies steps) (move : Move)
    (hspares : ∀ operation ∈ p.performed? move, (Step.mk p operation).SparesCaches) :
    (p.follow move).Tallies (steps ++ (p.performed? move).toList.map (Step.mk p)) := by
  cases move with
  | operation operation => exact h.operation (hspares operation rfl)
  | lint path =>
    rw [follow_lint]
    cases hperformed : p.performed? (.lint path) with
    | none => simpa using h
    | some operation => exact h.operation (hspares operation hperformed)
  | makeDirectory path =>
    simp only [performed?, Option.toList_none, List.map_nil, List.append_nil]
    exact h.keep (fun place => Or.inl (Files.store?_makeDirectories _ _ _ _)) rfl
  | changeDirectory path =>
    simp only [performed?, Option.toList_none, List.map_nil, List.append_nil]
    cases hchange : p.changeDirectory path with
    | error fault => simpa [Project.follow, hchange] using h
    | ok q =>
      have hsame : q.files = p.files ∧ q.handle = p.handle := by
        simp only [changeDirectory, bind, Except.bind] at hchange
        split at hchange
        · cases hchange
        · split at hchange
          · obtain rfl := Except.ok.inj hchange
            exact ⟨rfl, rfl⟩
          · cases hchange
          · cases hchange
      simp only [Project.follow, hchange]
      exact h.keep (hsame.1 ▸ .refl _) hsame.2

theorem tools_follow (p : Project) (move : Move) :
    (p.follow move).workspace.tools = p.workspace.tools := by
  cases move with
  | operation operation => exact p.tools_after operation
  | lint path =>
    rw [follow_lint]
    cases p.performed? (.lint path) with
    | none => rfl
    | some operation => exact p.tools_after operation
  | makeDirectory path => rfl
  | changeDirectory path =>
    simp only [follow, changeDirectory, bind, Except.bind]
    cases p.files.locate p.workspace.cwd path with
    | error fault => rfl
    | ok place =>
      dsimp only
      rcases p.files.get? place with _ | ⟨t⟩ | ⟨content, t⟩ <;> rfl

theorem tools_followAll (p : Project) (moves : List Move) :
    (p.followAll moves).workspace.tools = p.workspace.tools := by
  induction moves generalizing p with
  | nil => rfl
  | cons move rest ih => exact (ih _).trans (p.tools_follow move)

theorem tallies_followAll {start : Project} (hstart : start.Unwritten) (moves : List Move)
    (hspares : ∀ s ∈ start.deeds moves, s.SparesCaches) :
    (start.followAll moves).Tallies (start.deeds moves) := by
  induction moves using List.reverseRecOn with
  | nil => exact hstart.tallies
  | append_singleton moves last ih =>
    rw [deeds_concat] at hspares ⊢
    have hbefore := ih fun s hs => hspares s (List.mem_append_left _ hs)
    have hafter : start.followAll (moves ++ [last]) = (start.followAll moves).follow last := by
      rw [followAll, List.foldl_append]
      rfl
    rw [hafter]
    apply hbefore.follow
    intro operation hperformed
    refine hspares _ (List.mem_append_right _ (List.mem_map.mpr ⟨operation, ?_, rfl⟩))
    simpa using hperformed

/-- Whatever is stored in a run can be read, if all that is stored by hand can be. -/
theorem readable_of_mem_deeds {start : Project} {moves : List Move} {limits : Json.Limits}
    (hmeant : ∀ move ∈ moves, move.Meant limits) {s : Step} (hs : s ∈ start.deeds moves)
    {path : Path} {value : Json} (hoperation : s.operation = .store path value) :
    value.Readable limits := by
  induction moves generalizing start with
  | nil => cases hs
  | cons move rest ih =>
    rw [deeds, List.mem_append] at hs
    rcases hs with hs | hs
    · obtain ⟨operation, hperformed, rfl⟩ := List.mem_map.mp hs
      obtain rfl : operation = .store path value := hoperation
      rw [Option.mem_toList] at hperformed
      cases move with
      | operation operation =>
        obtain rfl : operation = .store path value := Option.some.inj hperformed
        exact (hmeant _ List.mem_cons_self).2
      | lint other =>
        simp only [performed?] at hperformed
        split at hperformed
        · obtain ⟨-, rfl⟩ := Operation.store.inj (Option.some.inj hperformed)
          obtain ⟨holding, hverdict⟩ := start.workspace.exists_verdict other
          rw [hverdict]
          exact ⟨_, Toolchain.parse_verdict limits _ _ _⟩
        · cases hperformed
      | makeDirectory | changeDirectory => cases hperformed
    · exact ih (fun move hmem => hmeant move (List.mem_cons_of_mem _ hmem)) hs

theorem readable_of_lastStored {limits : Json.Limits}
    (hreadable : ∀ s ∈ steps, ∀ path value, s.operation = .store path value →
      value.Readable limits) {cache : Location} {text : String} {value : Json} {version : String}
    {e : Entry} (hlast : LastStored steps cache text value version e) : value.Readable limits := by
  obtain ⟨earlier, s, later, hsteps, hstores, -⟩ := hlast
  obtain ⟨path, hoperation, -⟩ := hstores.stored
  exact hreadable s (by simp [hsteps]) path value hoperation

/-- Rows are counted by the texts that were stored, if it can be told from a row what was. -/
theorem Tallies.length_filter (h : p.Tallies steps) {cache : Location} {rows : Store}
    (hstore : p.files.store? cache = some rows) (counts : Row → Bool) (Wanted : Json → Prop)
    (hcounts : ∀ text value version e, LastStored steps cache text value version e →
      (counts ⟨e.cacheKey version, value.line⟩ = true ↔ Wanted value)) :
    (rows.filter fun entry => counts entry.2).length =
      {text | ∃ value version e, LastStored steps cache text value version e ∧
        Wanted value}.ncard := by
  rw [Ledger.length_filter_eq_ncard (h.tidy cache rows hstore)]
  have hrow : ∀ text row, Ledger.get? text rows = some row ↔ ∃ value version e,
      LastStored steps cache text value version e ∧ row = ⟨e.cacheKey version, value.line⟩ := by
    intro text row
    rw [← h.remembers.rows, Files.row?, hstore, Option.bind_some]
  congr 1
  ext text
  simp only [hrow, Set.mem_ofPred_eq]
  constructor
  · rintro ⟨_, ⟨value, version, e, hlast, rfl⟩, hcounted⟩
    exact ⟨value, version, e, hlast, (hcounts _ _ _ _ hlast).mp hcounted⟩
  · rintro ⟨value, version, e, hlast, hwanted⟩
    exact ⟨_, ⟨value, version, e, hlast, rfl⟩, (hcounts _ _ _ _ hlast).mpr hwanted⟩

theorem Tallies.statistics (h : p.Tallies steps) {limits : Json.Limits}
    (hreadable : ∀ s ∈ steps, ∀ path value, s.operation = .store path value →
      value.Readable limits) {cache : Location} (hopen : p.handle = some (.live cache)) :
    ∃ rows : Store, p.cacheStatistics = .ok rows.statistics ∧
      rows.statistics.cachedFiles =
        {text | ∃ value version e, LastStored steps cache text value version e}.ncard ∧
      rows.statistics.filesWithDiagnostics =
        {text | ∃ value version e, LastStored steps cache text value version e ∧
          value ≠ .arr []}.ncard := by
  obtain ⟨rows, hstore⟩ := h.remembers.handle.store? hopen
  obtain ⟨t, hget⟩ := Files.store?_eq_some_iff.mp hstore
  have hall := h.length_filter hstore (fun _ => true) (fun _ => True) fun _ _ _ _ _ => by simp
  rw [List.filter_true] at hall
  simp only [and_true] at hall
  have hfull := h.length_filter hstore (·.text ≠ Store.emptyText) (· ≠ .arr []) (by
    intro text value version e hlast
    simp [Json.line_eq_emptyText_iff (readable_of_lastStored hreadable hlast)])
  have hcurrent : p.currentHandle = .live cache := by rw [currentHandle, hopen, Option.getD_some]
  refine ⟨rows, ?_, hall, hfull⟩
  rw [cacheStatistics, hcurrent, Files.rows_of_live hget]
  rfl

/-- Reports that were stored for a file as it is now are given, and nothing is done. -/
theorem Tallies.lintCached_of_current (h : p.Tallies steps)
    (hreadable : ∀ s ∈ steps, ∀ path value, s.operation = .store path value →
      value.Readable p.workspace.tools.limits) {cache : Location}
    (hopen : p.handle = some (.live cache)) {path : Path} {reports : List Diagnostic}
    (hcurrent : p.Current steps cache path (Record.listToJson (reports.map Diagnostic.record))) :
    p.lintCached path = (.ok (reports.map Diagnostic.record), p) := by
  obtain ⟨version, e, now, hlast, hentry, hversion, htime, hsize⟩ := hcurrent
  obtain ⟨rows, hstore⟩ := h.remembers.handle.store? hopen
  obtain ⟨t, hget⟩ := Files.store?_eq_some_iff.mp hstore
  have hrow := (h.remembers.rows cache path.toString _).mpr ⟨_, version, e, hlast, rfl⟩
  rw [Files.row?, hstore, Option.bind_some,
    Entry.cacheKey_eq_iff.mpr ⟨hversion, htime, hsize⟩] at hrow
  have hstored : p.workspace.stored? (.live cache) path =
      .ok (some (Record.listToJson (reports.map Diagnostic.record))) :=
    Workspace.stored?_of_row hentry hget hrow (readable_of_lastStored hreadable hlast).parse_line
  rw [lintCached, hopen]
  simp only [Workspace.lintCached, hstored, Record.listOfJson_listToJson]
  rw [← hopen]

end Project

/-- After any run that spares the files of the caches, the statistics of the open cache give the number
of texts for which something was stored since the cache was cleared, and the number of those for which
the last value was not an empty list. Checking a file for which reports were stored as it is now gives
these reports and changes nothing. -/
theorem statistics_exact (start : Project) (moves : List Move) (hstart : start.Unwritten)
    (hspares : ∀ s ∈ start.deeds moves, s.SparesCaches)
    (hmeant : ∀ move ∈ moves, move.Meant start.workspace.tools.limits) :
    let p := start.followAll moves
    let steps := start.deeds moves
    ∀ cache, p.handle = some (.live cache) →
      (∃ counts, p.cacheStatistics = .ok counts ∧
        counts.cachedFiles =
          {text | ∃ value version e, LastStored steps cache text value version e}.ncard ∧
        counts.filesWithDiagnostics =
          {text | ∃ value version e, LastStored steps cache text value version e ∧
            value ≠ .arr []}.ncard ∧
        counts.filesWithDiagnostics ≤ counts.cachedFiles) ∧
      ∀ path (reports : List Diagnostic),
        p.Current steps cache path (Record.listToJson (reports.map Diagnostic.record)) →
        p.lintCached path = (.ok (reports.map Diagnostic.record), p) := by
  intro p steps cache hopen
  have htallies : p.Tallies steps := Project.tallies_followAll hstart moves hspares
  have hreadable : ∀ s ∈ steps, ∀ path value, s.operation = .store path value →
      value.Readable p.workspace.tools.limits := by
    intro s hs path value hoperation
    rw [start.tools_followAll moves]
    exact Project.readable_of_mem_deeds hmeant hs hoperation
  obtain ⟨rows, hok, hall, hfull⟩ := htallies.statistics hreadable hopen
  exact ⟨⟨rows.statistics, hok, hall, hfull, List.length_filter_le _ _⟩,
    fun path reports => htallies.lintCached_of_current hreadable hopen⟩

namespace Project

def notes : Path := ⟨"/", ["notes"]⟩

/-- Two files get a row, one of them by being checked, and the other is removed again. -/
def tallied : List Move :=
  [.operation (.openAt ⟨"/", ["c"]⟩), .operation (.write notes (ByteArray.mk #[97]) ⟨0⟩),
    .operation (.write source (ByteArray.mk #[97]) ⟨0⟩),
    .operation (.store source (.arr [.int 1])), .operation (.remove source), .lint notes,
    .changeDirectory ⟨"/", ["c"]⟩, .lint notes]

theorem sparesCaches_lint (p : Project) (path : Path) :
    ∀ s ∈ (p.performed? (.lint path)).toList.map (Step.mk p), s.SparesCaches := by
  intro s hs
  obtain ⟨operation, hperformed, rfl⟩ := List.mem_map.mp hs
  rw [Option.mem_toList, performed?] at hperformed
  split at hperformed
  · obtain rfl := Option.some.inj hperformed
    trivial
  · cases hperformed

theorem tallied_spares : ∀ s ∈ vacant.deeds tallied, s.SparesCaches := by
  intro s hs
  simp only [tallied, deeds, List.mem_append, List.not_mem_nil, or_false] at hs
  rcases hs with hs | hs | hs | hs | hs | hs | hs | hs
  · exact List.mem_singleton.mp hs ▸ trivial
  · exact List.mem_singleton.mp hs ▸ rfl
  · exact List.mem_singleton.mp hs ▸ rfl
  · exact List.mem_singleton.mp hs ▸ trivial
  · exact List.mem_singleton.mp hs ▸ rfl
  · exact sparesCaches_lint _ _ s hs
  · cases hs
  · exact sparesCaches_lint _ _ s hs

theorem tallied_meant : ∀ move ∈ tallied, move.Meant .standard := by
  have hcache : Path.Unbroken ⟨"/", ["c"]⟩ := by decide
  have hnotes : notes.Unbroken := by decide
  have hone : Json.Readable .standard (.arr [.int 1]) := ⟨"[1]", rfl⟩
  simp [tallied, Move.Meant, Operation.Meant, source_unbroken, hcache, hnotes, hone]

end Project

open Project in
theorem removed_file_still_counted :
    vacant.Unwritten ∧ (∀ s ∈ vacant.deeds tallied, s.SparesCaches) ∧
    (∀ move ∈ tallied, move.Meant .standard) ∧
    (vacant.followAll tallied).handle = some (.live ["c", "lint.db"]) ∧
    (vacant.followAll tallied).cacheStatistics = .ok ⟨2, 1⟩ ∧
    {text | ∃ value version e, LastStored (vacant.deeds tallied) ["c", "lint.db"] text value
      version e}.ncard = 2 := by
  have hstart := vacant_fresh.unwritten
  have hopen : (vacant.followAll tallied).handle = some (.live ["c", "lint.db"]) := rfl
  have hcounts : (vacant.followAll tallied).cacheStatistics = .ok ⟨2, 1⟩ := rfl
  obtain ⟨⟨counts, hok, hall, -⟩, -⟩ :=
    statistics_exact vacant tallied hstart tallied_spares tallied_meant ["c", "lint.db"] hopen
  obtain rfl := Except.ok.inj (hcounts.symm.trans hok)
  exact ⟨hstart, tallied_spares, tallied_meant, hopen, hcounts, hall.symm⟩

open Project in
/-- A cache whose file was removed counts nothing, though a value was stored and it was not cleared. -/
theorem removed_cache_counts_nothing :
    vacant.Unwritten ∧
    (vacant.followAll (rebuilding.map .operation)).handle = some (.live ["c", "lint.db"]) ∧
    (vacant.followAll (rebuilding.map .operation)).cacheStatistics = .ok ⟨0, 0⟩ ∧
    {text | ∃ value version e, LastStored (vacant.deeds (rebuilding.map .operation))
      ["c", "lint.db"] text value version e}.ncard = 1 := by
  refine ⟨vacant_fresh.unwritten, rfl, rfl, ?_⟩
  rw [Set.ncard_eq_one]
  refine ⟨source.toString, ?_⟩
  have hdeeds : vacant.deeds (rebuilding.map .operation) = vacant.history rebuilding := rfl
  rw [hdeeds]
  ext text
  constructor
  · rintro ⟨value, version, e, earlier, s, later, hsteps, hstores, -⟩
    have hs : s ∈ vacant.history rebuilding := by simp [hsteps]
    obtain ⟨path, hoperation, rfl, -⟩ := hstores.stored
    have hmem := operation_mem_of_mem_history hs
    rw [hoperation] at hmem
    simp only [rebuilding, List.mem_cons, List.not_mem_nil, or_false, reduceCtorEq, false_or,
      Operation.store.injEq] at hmem
    rw [hmem.1]
    rfl
  · rintro rfl
    refine ⟨.arr [.int 1], "1", .file (.bytes (ByteArray.mk #[97])) ⟨0⟩,
      (vacant.history rebuilding).take 2, _, (vacant.history rebuilding).drop 3, rfl,
      ⟨⟨source, rfl, rfl, rfl⟩, rfl, rfl⟩, ?_⟩
    intro s hs
    simp only [rebuilding, history, List.drop_succ_cons, List.drop_zero, List.mem_cons,
      List.not_mem_nil, or_false] at hs
    rcases hs with rfl | rfl
    · exact Step.leavesAlone_of_operation (by simp) (by simp) _ _
    · exact Step.leavesAlone_of_operation (by simp) (by simp) _ _

end StaleQuery
