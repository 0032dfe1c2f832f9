import Mathlib.Data.List.Induction
import Mathlib.Data.List.Nodup
import StaleQuery.Files.Change
import StaleQuery.Proofs.Files.Paths

/-!
# How a tree of files grows

What is written at one place leaves the others as they were, but for the time of the directory above.
A sound tree has a directory above everything in it. Making directories and writing files is a
sequence of two kinds of steps, a new entry in a directory or new content of a file, and each
invariant is shown for these steps only.
-/
namespace StaleQuery

namespace Ledger

variable {κ α : Type} [DecidableEq κ]

theorem mem_keys_put {key other : κ} {value : α} {ledger : Ledger κ α} :
    other ∈ (put key value ledger).map Prod.fst ↔ other = key ∨ other ∈ ledger.map Prod.fst := by
  induction ledger with
  | nil => simp [put]
  | cons entry rest ih =>
    by_cases h : entry.1 = key
    · simp [put, h]
    · simp only [put, h, if_false, List.map_cons, List.mem_cons, ih]
      tauto

theorem nodup_keys_put {key : κ} {value : α} {ledger : Ledger κ α}
    (h : (ledger.map Prod.fst).Nodup) : ((put key value ledger).map Prod.fst).Nodup := by
  induction ledger with
  | nil => simp [put]
  | cons entry rest ih =>
    obtain ⟨hentry, hrest⟩ := List.nodup_cons.mp h
    by_cases hk : entry.1 = key
    · simpa [put, hk] using h
    · rw [put, if_neg hk, List.map_cons, List.nodup_cons, mem_keys_put, not_or]
      exact ⟨⟨hk, hentry⟩, ih hrest⟩

theorem get?_of_mem {key : κ} {value : α} {ledger : Ledger κ α} (hnodup : (ledger.map Prod.fst).Nodup)
    (h : (key, value) ∈ ledger) : get? key ledger = some value := by
  induction ledger with
  | nil => cases h
  | cons entry rest ih =>
    obtain ⟨hentry, hrest⟩ := List.nodup_cons.mp hnodup
    rcases List.mem_cons.mp h with rfl | h
    · simp [get?]
    · have hne : entry.1 ≠ key := by
        rintro rfl
        exact hentry (List.mem_map.mpr ⟨_, h, rfl⟩)
      rw [get?, if_neg hne, ih hrest h]

theorem mem_of_get? {key : κ} {value : α} {ledger : Ledger κ α} (h : get? key ledger = some value) :
    (key, value) ∈ ledger := by
  induction ledger with
  | nil => cases h
  | cons entry rest ih =>
    by_cases hk : entry.1 = key
    · rw [get?, if_pos hk] at h
      obtain rfl := Option.some.inj h
      exact hk ▸ List.mem_cons_self
    · rw [get?, if_neg hk] at h
      exact List.mem_cons_of_mem _ (ih h)

theorem get?_eq_some_iff {key : κ} {value : α} {ledger : Ledger κ α}
    (hnodup : (ledger.map Prod.fst).Nodup) : get? key ledger = some value ↔ (key, value) ∈ ledger :=
  ⟨mem_of_get?, get?_of_mem hnodup⟩

theorem get?_eq_none_iff {key : κ} {ledger : Ledger κ α} :
    get? key ledger = none ↔ key ∉ ledger.map Prod.fst := by
  induction ledger with
  | nil => simp [get?]
  | cons entry rest ih =>
    by_cases h : entry.1 = key
    · simp [get?, h]
    · have hne : key ≠ entry.1 := fun heq => h heq.symm
      simp only [get?, h, if_false, ih, List.map_cons, List.mem_cons, hne, false_or]

end Ledger

namespace Files

/-- What may become of an entry while something else is written: a directory may get a new time. -/
inductive Like : Option Entry → Option Entry → Prop where
  | same (o) : Like o o
  | stamped (s t) : Like (some (.directory s)) (some (.directory t))

section

variable {o o' : Option Entry} (h : Like o o')
include h

theorem Like.directory {t : Time} (ho : o = some (.directory t)) : ∃ s, o' = some (.directory s) := by
  cases h with
  | same => exact ⟨t, ho⟩
  | stamped _ s => exact ⟨s, rfl⟩

theorem Like.file {content : Content} {t : Time} (ho : o = some (.file content t)) :
    o' = some (.file content t) := by
  cases h with
  | same => exact ho
  | stamped => cases ho

theorem Like.file_origin {content : Content} {t : Time} (ho : o' = some (.file content t)) :
    o = some (.file content t) := by
  cases h with
  | same => exact ho
  | stamped => cases ho

theorem Like.exists_origin {e : Entry} (ho : o' = some e) : ∃ e', o = some e' := by
  cases h with
  | same => exact ⟨e, ho⟩
  | stamped s => exact ⟨_, rfl⟩

end

variable {files : Files} {place other : Location} {e : Entry}

theorem stampDirectory_like (files : Files) (place other : Location) :
    Like (files.get? other) ((files.stampDirectory place).get? other) := by
  unfold stampDirectory
  split
  · rename_i t hplace
    by_cases h : other = place
    · subst h
      rw [hplace, get?, Ledger.get?_put_self]
      exact .stamped _ _
    · rw [get?, get?, Ledger.get?_put_of_ne h]
      exact .same _
  · exact .same _

theorem stampDirectory_of_ne (h : other ≠ place) :
    (files.stampDirectory place).get? other = files.get? other := by
  unfold stampDirectory
  split
  · rw [get?, get?, Ledger.get?_put_of_ne h]
  · rfl

theorem put_like (h : other ≠ place) : Like (files.get? other) ((files.put place e).get? other) := by
  have hwritten : ({ files with entries := Ledger.put place e files.entries } : Files).get? other =
      files.get? other := Ledger.get?_put_of_ne h _ _
  unfold put
  dsimp only
  split
  · rw [hwritten]
    exact .same _
  · rw [← hwritten]
    exact stampDirectory_like _ _ _

theorem get?_put_of_ne {old : Entry} (hold : files.get? place = some old) (hne : other ≠ place) :
    (files.put place e).get? other = files.get? other := by
  rw [put, hold]
  exact Ledger.get?_put_of_ne hne _ _

theorem get?_put_self (h : place ≠ []) : (files.put place e).get? place = some e := by
  have hwritten : ({ files with entries := Ledger.put place e files.entries } : Files).get? place =
      some e := Ledger.get?_put_self _ _ _
  have hne : place ≠ place.dropLast := by
    intro heq
    have hlength := congrArg List.length heq
    have := List.length_pos_of_ne_nil h
    rw [List.length_dropLast] at hlength
    omega
  unfold put
  dsimp only
  split
  · exact hwritten
  · rw [stampDirectory_of_ne hne]
    exact hwritten

theorem get?_put_file (files : Files) (place : Location) (content : Content) (t : Time) :
    (files.put place (.file content t)).get? place = some (.file content t) := by
  have hwritten : ({ files with entries := Ledger.put place (.file content t) files.entries } :
      Files).get? place = some (.file content t) := Ledger.get?_put_self _ _ _
  unfold put
  dsimp only
  split
  · exact hwritten
  · exact (stampDirectory_like _ _ _).file hwritten

theorem erase_like (h : other ≠ place) : Like (files.get? other) ((files.erase place).get? other) := by
  have hleft : ({ files with entries := Ledger.erase place files.entries } : Files).get? other =
      files.get? other := Ledger.get?_erase_of_ne h _
  rw [← hleft]
  exact stampDirectory_like _ _ _

theorem get?_erase_self (files : Files) (place : Location) :
    ∀ content t, (files.erase place).get? place ≠ some (.file content t) := by
  intro content t h
  have hgone : ({ files with entries := Ledger.erase place files.entries } : Files).get? place =
      none := Ledger.get?_erase_self _ _
  have hlike := stampDirectory_like
    ({ files with entries := Ledger.erase place files.entries } : Files) place.dropLast place
  have horigin := hlike.file_origin h
  rw [hgone] at horigin
  cases horigin

/-- A tree with a directory above everything in it, and with names that a path can spell. -/
structure Sound (files : Files) : Prop where
  root : ∃ t, files.get? [] = some (.directory t)
  above : ∀ {place name e}, files.get? (place ++ [name]) = some e →
    ∃ t, files.get? place = some (.directory t)
  names : ∀ {place e}, files.get? place = some e → ∀ name ∈ place, Path.IsName name
  once : (files.entries.map Prod.fst).Nodup

theorem sound_empty (clock : Nat) : (empty clock).Sound where
  root := ⟨_, rfl⟩
  above := by
    intro place name e h
    simp [empty, get?, Ledger.get?] at h
  names := by
    intro place e h
    cases place with
    | nil => simp
    | cons name rest => simp [empty, get?, Ledger.get?] at h
  once := by simp [empty]

theorem Sound.dropLast (h : files.Sound) (hplace : files.get? place = some e) :
    ∃ t, files.get? place.dropLast = some (.directory t) := by
  rcases List.eq_nil_or_concat' place with rfl | ⟨above, name, rfl⟩
  · exact h.root
  · rw [List.dropLast_concat]
    exact h.above hplace

theorem Sound.eq_concat_of_file (h : files.Sound) {content : Content} {t : Time}
    (hplace : files.get? place = some (.file content t)) : ∃ above name, place = above ++ [name] := by
  rcases List.eq_nil_or_concat' place with rfl | hconcat
  · obtain ⟨s, hroot⟩ := h.root
    rw [hroot] at hplace
    cases hplace
  · exact hconcat

theorem nodup_keys_stampDirectory (h : (files.entries.map Prod.fst).Nodup) :
    ((files.stampDirectory place).entries.map Prod.fst).Nodup := by
  unfold stampDirectory
  split
  · exact Ledger.nodup_keys_put h
  · exact h

theorem nodup_keys_put (h : (files.entries.map Prod.fst).Nodup) :
    ((files.put place e).entries.map Prod.fst).Nodup := by
  unfold put
  dsimp only
  split
  · exact Ledger.nodup_keys_put h
  · exact nodup_keys_stampDirectory (Ledger.nodup_keys_put h)

/-- Writing into a directory, but not over another one, keeps a tree sound. -/
theorem Sound.put (h : files.Sound) {name : String} {t : Time}
    (habove : files.get? place = some (.directory t)) (hname : Path.IsName name)
    (hfree : ∀ s, files.get? (place ++ [name]) ≠ some (.directory s)) :
    (files.put (place ++ [name]) e).Sound where
  root := by
    obtain ⟨s, hroot⟩ := h.root
    exact (put_like (by simp)).directory hroot
  above := by
    intro parent child entry hentry
    have hparent : ∃ s, files.get? parent = some (.directory s) := by
      by_cases heq : parent ++ [child] = place ++ [name]
      · obtain ⟨rfl, -⟩ := List.append_inj' heq rfl
        exact ⟨t, habove⟩
      · obtain ⟨old, hold⟩ := (put_like heq).exists_origin hentry
        exact h.above hold
    obtain ⟨s, hparent⟩ := hparent
    have hne : parent ≠ place ++ [name] := by
      rintro rfl
      exact hfree s hparent
    exact (put_like hne).directory hparent
  names := by
    intro target entry hentry
    by_cases heq : target = place ++ [name]
    · subst heq
      intro part hpart
      rcases List.mem_append.mp hpart with hpart | hpart
      · exact h.names habove part hpart
      · obtain rfl := List.mem_singleton.mp hpart
        exact hname
    · obtain ⟨old, hold⟩ := (put_like heq).exists_origin hentry
      exact h.names hold
  once := nodup_keys_put h.once

theorem Sound.put_file (h : files.Sound) {content : Content} {t : Time}
    (hplace : files.get? place = some (.file content t)) : (files.put place e).Sound := by
  obtain ⟨above, name, rfl⟩ := h.eq_concat_of_file hplace
  obtain ⟨s, habove⟩ := h.above hplace
  apply h.put habove (h.names hplace name (by simp))
  intro r hr
  rw [hplace] at hr
  cases hr

theorem Sound.erase (h : files.Sound) {content : Content} {t : Time}
    (hplace : files.get? place = some (.file content t)) : (files.erase place).Sound where
  root := by
    obtain ⟨s, hroot⟩ := h.root
    have hne : [] ≠ place := by
      rintro rfl
      rw [hroot] at hplace
      cases hplace
    exact (erase_like hne).directory hroot
  above := by
    intro parent child entry hentry
    obtain ⟨old, hold⟩ : ∃ old, files.get? (parent ++ [child]) = some old := by
      by_cases heq : parent ++ [child] = place
      · exact ⟨_, heq ▸ hplace⟩
      · exact (erase_like heq).exists_origin hentry
    obtain ⟨s, hparent⟩ := h.above hold
    have hne : parent ≠ place := by
      rintro rfl
      rw [hparent] at hplace
      cases hplace
    exact (erase_like hne).directory hparent
  names := by
    intro target entry hentry
    by_cases heq : target = place
    · exact heq ▸ h.names hplace
    · obtain ⟨old, hold⟩ := (erase_like heq).exists_origin hentry
      exact h.names hold
  once := nodup_keys_stampDirectory (h.once.sublist (List.filter_sublist.map _))

theorem touched_touched (e : Entry) (s t : Time) : (e.touched s).touched t = e.touched t := by
  cases e <;> rfl

theorem touch_retimes {cwd : Location} {path : Path} {time : Time} {after : Files}
    (h : files.touch cwd path time = .ok after) (other : Location) (s : Time) :
    (after.get? other).map (Entry.touched s) = (files.get? other).map (Entry.touched s) := by
  cases hlocate : files.locate cwd path with
  | error fault => simp [touch, hlocate, bind, Except.bind] at h
  | ok place =>
    simp only [touch, hlocate, bind, Except.bind] at h
    split at h
    · cases h
    · rename_i e he
      obtain rfl := Except.ok.inj h
      by_cases heq : other = place
      · subst heq
        rw [he, get?, Ledger.get?_put_self, Option.map_some, Option.map_some, touched_touched]
      · rw [get?, get?, Ledger.get?_put_of_ne heq]

theorem directory_of_retimed {o o' : Option Entry} {t : Time}
    (h : o'.map (Entry.touched t) = o.map (Entry.touched t)) (ho : o = some (.directory t)) :
    ∃ s, o' = some (.directory s) := by
  subst ho
  rcases o' with _ | ⟨s⟩ | ⟨content, s⟩
  · cases h
  · exact ⟨s, rfl⟩
  · cases h

theorem file_of_retimed {o o' : Option Entry} {content : Content} {t : Time}
    (h : o'.map (Entry.touched t) = o.map (Entry.touched t)) (ho : o = some (.file content t)) :
    ∃ s, o' = some (.file content s) := by
  subst ho
  rcases o' with _ | ⟨s⟩ | ⟨content', s⟩
  · cases h
  · cases h
  · obtain ⟨rfl, -⟩ := Entry.file.inj (Option.some.inj h)
    exact ⟨s, rfl⟩

theorem exists_of_retimed {o o' : Option Entry} {e : Entry}
    (h : ∀ s, o'.map (Entry.touched s) = o.map (Entry.touched s)) (ho : o' = some e) :
    ∃ e', o = some e' := by
  subst ho
  rcases o with _ | e'
  · cases h default
  · exact ⟨e', rfl⟩

theorem nodup_keys_touch {cwd : Location} {path : Path} {time : Time} {after : Files}
    (hfiles : (files.entries.map Prod.fst).Nodup) (h : files.touch cwd path time = .ok after) :
    (after.entries.map Prod.fst).Nodup := by
  cases hlocate : files.locate cwd path with
  | error fault => simp [touch, hlocate, bind, Except.bind] at h
  | ok place =>
    simp only [touch, hlocate, bind, Except.bind] at h
    split at h
    · cases h
    · obtain rfl := Except.ok.inj h
      exact Ledger.nodup_keys_put hfiles

theorem Sound.touch (h : files.Sound) {cwd : Location} {path : Path} {time : Time} {after : Files}
    (htouch : files.touch cwd path time = .ok after) : after.Sound where
  root := by
    obtain ⟨t, hroot⟩ := h.root
    exact directory_of_retimed (touch_retimes htouch [] t) hroot
  above := by
    intro place name e he
    obtain ⟨old, hold⟩ := exists_of_retimed (touch_retimes htouch (place ++ [name])) he
    obtain ⟨t, habove⟩ := h.above hold
    exact directory_of_retimed (touch_retimes htouch place t) habove
  names := by
    intro place e he
    obtain ⟨old, hold⟩ := exists_of_retimed (touch_retimes htouch place) he
    exact h.names hold
  once := nodup_keys_touch h.once htouch

/-! Following paths -/

theorem walk_append (files : Files) (place : Location) (first second : List String) :
    files.walk place (first ++ second) =
      (files.walk place first).bind fun middle => files.walk middle second := by
  induction first generalizing place with
  | nil => rfl
  | cons name rest ih =>
    rw [List.cons_append, walk, walk]
    split
    · rfl
    · rfl
    · exact ih _

theorem walk_eq_resolveParts {names : List String} {target : Location}
    (h : files.walk place names = .ok target) : resolveParts place names = target := by
  induction names generalizing place with
  | nil => exact Except.ok.inj h
  | cons name rest ih =>
    rw [walk] at h
    split at h
    · cases h
    · cases h
    · exact ih h

theorem walk_concat {names : List String} {name : String} {target : Location}
    (h : files.walk place (names ++ [name]) = .ok target) :
    ∃ middle t, files.walk place names = .ok middle ∧
      files.get? middle = some (.directory t) ∧
      target = if name = ".." then middle.dropLast else middle ++ [name] := by
  rw [walk_append] at h
  cases hfirst : files.walk place names with
  | error fault =>
    rw [hfirst] at h
    cases h
  | ok middle =>
    rw [hfirst] at h
    change files.walk middle [name] = .ok target at h
    rw [walk] at h
    split at h
    · cases h
    · cases h
    · rename_i t ht
      exact ⟨middle, t, rfl, ht, (Except.ok.inj h).symm⟩

/-- Whatever is in a sound tree is reached by its names. -/
theorem Sound.walk (h : files.Sound) {names : List String}
    (hplace : files.get? (place ++ names) = some e) :
    files.walk place names = .ok (place ++ names) := by
  induction names using List.reverseRecOn generalizing e with
  | nil => rw [List.append_nil]; rfl
  | append_singleton names name ih =>
    rw [← List.append_assoc] at hplace ⊢
    obtain ⟨t, habove⟩ := h.above hplace
    have hname : name ≠ ".." := (h.names hplace name (by simp)).2
    rw [walk_append, ih habove]
    change files.walk (place ++ names) [name] = _
    rw [Files.walk, habove]
    simp [Files.walk, hname]

variable {cwd : Location} {path : Path}

theorem locate_of_rooted (h : path.Rooted) (files : Files) (cwd : Location) :
    files.locate cwd path = files.walk [] path.parts := by
  rw [locate, if_pos h.isAbsolute]

theorem resolve_of_rooted (h : path.Rooted) (cwd : Location) :
    resolve cwd path = resolveParts [] path.parts := by
  rw [resolve, if_pos h.isAbsolute]

theorem locate_eq_resolve {target : Location} (h : files.locate cwd path = .ok target) :
    target = resolve cwd path :=
  (walk_eq_resolveParts h).symm

/-- A place that a path leads to and that is free has a directory above it. -/
theorem Sound.above_of_free (h : files.Sound) (hpath : path.Rooted)
    (hlocate : files.locate cwd path = .ok place) (hfree : files.get? place = none) :
    ∃ above name t, place = above ++ [name] ∧ files.get? above = some (.directory t) ∧
      Path.IsName name := by
  rw [locate_of_rooted hpath] at hlocate
  rcases List.eq_nil_or_concat' path.parts with hnil | ⟨names, name, hparts⟩
  · obtain ⟨t, hroot⟩ := h.root
    rw [hnil] at hlocate
    obtain rfl := Except.ok.inj hlocate
    rw [hroot] at hfree
    cases hfree
  · rw [hparts] at hlocate
    obtain ⟨middle, t, -, hmiddle, rfl⟩ := walk_concat hlocate
    by_cases hup : name = ".."
    · obtain ⟨s, habove⟩ := h.dropLast hmiddle
      rw [if_pos hup, habove] at hfree
      cases hfree
    · rw [if_neg hup]
      exact ⟨middle, name, t, rfl, hmiddle, hpath.parts name (by simp [hparts]), hup⟩

/-! Growth -/

/-- Entries of a kind are added in directories, or put in place of files. -/
inductive Grows (New : Location → Entry → Prop) (files : Files) : Files → Prop where
  | refl : Grows New files files
  | create {grown place name t e} : Grows New files grown →
      grown.get? place = some (.directory t) → Path.IsName name →
      grown.get? (place ++ [name]) = none → New (place ++ [name]) e →
      Grows New files (grown.put (place ++ [name]) e)
  | replace {grown place old s content t} : Grows New files grown →
      grown.get? place = some (.file old s) → New place (.file content t) →
      Grows New files (grown.put place (.file content t))

variable {New : Location → Entry → Prop} {grown : Files}

theorem Grows.trans {between : Files} (h : Grows New files between) (k : Grows New between grown) :
    Grows New files grown := by
  induction k with
  | refl => exact h
  | create _ habove hname hfree hnew ih => exact .create ih habove hname hfree hnew
  | replace _ hold hnew ih => exact .replace ih hold hnew

theorem Grows.mono {Other : Location → Entry → Prop} (h : Grows New files grown)
    (himp : ∀ place e, New place e → Other place e) : Grows Other files grown := by
  induction h with
  | refl => exact .refl
  | create _ habove hname hfree hnew ih => exact .create ih habove hname hfree (himp _ _ hnew)
  | replace _ hold hnew ih => exact .replace ih hold (himp _ _ hnew)

theorem Grows.sound (h : Grows New files grown) (hs : files.Sound) : grown.Sound := by
  induction h with
  | refl => exact hs
  | create _ habove hname hfree _ ih =>
    apply ih.put habove hname
    intro s hs
    rw [hfree] at hs
    cases hs
  | replace _ hold _ ih => exact ih.put_file hold

theorem Grows.directory (h : Grows New files grown) {t : Time}
    (hplace : files.get? place = some (.directory t)) :
    ∃ s, grown.get? place = some (.directory s) := by
  induction h with
  | refl => exact ⟨t, hplace⟩
  | @create grown above name t e _ habove hname hfree hnew ih =>
    obtain ⟨s, hs⟩ := ih
    refine (put_like ?_).directory hs
    rintro rfl
    rw [hfree] at hs
    cases hs
  | replace _ hold _ ih =>
    obtain ⟨s, hs⟩ := ih
    refine (put_like ?_).directory hs
    rintro rfl
    rw [hold] at hs
    cases hs

/-- A file stays, or a new one has come in its place. -/
theorem Grows.file (h : Grows New files grown) (hs : files.Sound) {content : Content} {t : Time}
    (hplace : files.get? place = some (.file content t)) :
    grown.get? place = some (.file content t) ∨
      ∃ content t, New place (.file content t) ∧ grown.get? place = some (.file content t) := by
  induction h with
  | refl => exact Or.inl hplace
  | @create grown above name t e hgrows habove hname hfree hnew ih =>
    have hne : place ≠ above ++ [name] := by
      rintro rfl
      rcases ih with ih | ⟨_, _, -, ih⟩
      · rw [hfree] at ih
        cases ih
      · rw [hfree] at ih
        cases ih
    rcases ih with ih | ⟨content, t, hcontent, ih⟩
    · exact Or.inl ((put_like hne).file ih)
    · exact Or.inr ⟨content, t, hcontent, (put_like hne).file ih⟩
  | @replace grown target old s content t hgrows hold hnew ih =>
    by_cases heq : place = target
    · subst heq
      obtain ⟨above, name, rfl⟩ := (hgrows.sound hs).eq_concat_of_file hold
      exact Or.inr ⟨content, t, hnew, get?_put_self (by simp)⟩
    · rcases ih with ih | ⟨content, t, hcontent, ih⟩
      · exact Or.inl ((put_like heq).file ih)
      · exact Or.inr ⟨content, t, hcontent, (put_like heq).file ih⟩

/-- A file that was not there is one of those that were added. -/
theorem Grows.file_origin (h : Grows New files grown) (hs : files.Sound) {content : Content}
    {t : Time} (hplace : grown.get? place = some (.file content t)) :
    files.get? place = some (.file content t) ∨ New place (.file content t) := by
  induction h with
  | refl => exact Or.inl hplace
  | @create grown above name s e hgrows habove hname hfree hnew ih =>
    by_cases heq : place = above ++ [name]
    · subst heq
      rw [get?_put_self (by simp)] at hplace
      exact Or.inr (Option.some.inj hplace ▸ hnew)
    · exact ih ((put_like heq).file_origin hplace)
  | @replace grown target old s content t hgrows hold hnew ih =>
    by_cases heq : place = target
    · subst heq
      obtain ⟨above, name, rfl⟩ := (hgrows.sound hs).eq_concat_of_file hold
      rw [get?_put_self (by simp)] at hplace
      exact Or.inr (Option.some.inj hplace ▸ hnew)
    · exact ih ((put_like heq).file_origin hplace)

theorem Grows.walk (h : Grows New files grown) {names : List String} {target : Location}
    (hwalk : files.walk place names = .ok target) : grown.walk place names = .ok target := by
  induction names generalizing place with
  | nil => exact hwalk
  | cons name rest ih =>
    rw [Files.walk] at hwalk ⊢
    split at hwalk
    · cases hwalk
    · cases hwalk
    · rename_i t ht
      obtain ⟨s, hs⟩ := h.directory ht
      rw [hs]
      exact ih hwalk

/-! Operations -/

theorem makeDirectory_grows (h : files.Sound) (hpath : path.Rooted)
    (hmade : files.makeDirectory cwd path = .ok grown) :
    Grows (fun _ e => e.isDirectory = true) files grown := by
  cases hlocate : files.locate cwd path with
  | error fault => simp [makeDirectory, hlocate, bind, Except.bind] at hmade
  | ok place =>
    simp only [makeDirectory, hlocate, bind, Except.bind] at hmade
    split at hmade
    · cases hmade
    · rename_i hfree
      obtain rfl := Except.ok.inj hmade
      obtain ⟨above, name, t, rfl, habove, hname⟩ := h.above_of_free hpath hlocate hfree
      exact .create .refl habove hname hfree rfl

theorem makeDirectoriesRev_grows (h : files.Sound) {anchor : String} {names : List String}
    (hpath : Path.Rooted ⟨anchor, names.reverse⟩) :
    Grows (fun _ e => e.isDirectory = true) files
      (files.makeDirectoriesRev cwd anchor names).2 := by
  induction names with
  | nil => exact .refl
  | cons name above ih =>
    have habove : Path.Rooted ⟨anchor, above.reverse⟩ := by
      have hparent := hpath.parent
      rwa [Path.parent, List.reverse_cons, List.dropLast_concat] at hparent
    rw [makeDirectoriesRev]
    split
    · rename_i made hmade
      exact makeDirectory_grows h hpath hmade
    · have hbelow := ih habove
      split
      · rename_i made hrest
        rwa [hrest] at hbelow
      · rename_i made hrest
        rw [hrest] at hbelow
        split
        · rename_i complete hcomplete
          exact hbelow.trans (makeDirectory_grows (hbelow.sound h) hpath hcomplete)
        · exact hbelow
    · exact .refl

theorem makeDirectories_grows (cwd : Location) (h : files.Sound) (hpath : path.Rooted) :
    Grows (fun _ e => e.isDirectory = true) files (files.makeDirectories cwd path).2 := by
  have hreverse : Path.Rooted ⟨path.anchor, path.parts.reverse.reverse⟩ := by
    rw [List.reverse_reverse]
    exact hpath
  exact makeDirectoriesRev_grows h hreverse

theorem writeContent_grows (h : files.Sound) (hpath : path.Rooted) {content : Content} {time : Time}
    (hwritten : files.writeContent cwd path content time = .ok grown) :
    Grows (fun place e => place = resolve cwd path ∧ e = .file content time) files grown := by
  cases hlocate : files.locate cwd path with
  | error fault => simp [writeContent, hlocate, bind, Except.bind] at hwritten
  | ok place =>
    have hplace := locate_eq_resolve hlocate
    simp only [writeContent, hlocate, bind, Except.bind] at hwritten
    split at hwritten
    · cases hwritten
    · rename_i hopen
      obtain rfl := Except.ok.inj hwritten
      rcases hold : files.get? place with _ | ⟨t⟩ | ⟨old, t⟩
      · obtain ⟨above, name, t, rfl, habove, hname⟩ := h.above_of_free hpath hlocate hold
        exact .create .refl habove hname hold ⟨hplace, rfl⟩
      · exact absurd hold (hopen t)
      · exact .replace .refl hold ⟨hplace, rfl⟩

theorem write_grows (cwd : Location) (h : files.Sound) (hpath : path.Rooted) (data : ByteArray)
    (time : Time) :
    Grows (fun place e => e.isDirectory = true ∨
      (place = resolve cwd path ∧ e = .file (.bytes data) time)) files
      (files.write cwd path data time).2 := by
  have hmade := makeDirectories_grows cwd h hpath.parent
  have hfirst : Grows (fun place e => e.isDirectory = true ∨
      (place = resolve cwd path ∧ e = .file (.bytes data) time)) files
      (files.makeDirectories cwd path.parent).2 := hmade.mono fun _ _ => Or.inl
  rw [write]
  split
  · rename_i made hmake
    rwa [hmake] at hfirst
  · rename_i made hmake
    rw [hmake] at hfirst hmade
    split
    · rename_i written hwritten
      exact hfirst.trans
        ((writeContent_grows (hmade.sound h) hpath hwritten).mono fun _ _ => Or.inr)
    · exact hfirst

end Files
end StaleQuery
