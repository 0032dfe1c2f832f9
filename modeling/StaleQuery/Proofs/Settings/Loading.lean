import Mathlib.Data.List.TakeWhile
import StaleQuery.Proofs.Files.Growth
import StaleQuery.Settings.Basic

/-!
# What one variable does to the settings

A variable that is set stays as it is when a settings file is loaded, and all other variables come
out the same whatever its value is, unless a value in the file refers to it. A file is loaded as far
as its values can be set. The variable that lists names is decoded to exactly the names in it, however
they are padded.
-/
namespace StaleQuery

namespace Text

def Blank (cs : List Char) : Prop :=
  ∀ c ∈ cs, isBlank c = true

theorem dropWhile_blank {gap cs : List Char} (hgap : Blank gap)
    (hcs : ∀ c ∈ cs.head?, isBlank c = false) : (gap ++ cs).dropWhile isBlank = cs := by
  rw [List.dropWhile_append_of_pos hgap]
  cases cs with
  | nil => rfl
  | cons c rest => exact List.dropWhile_cons_of_neg (by simp [hcs c rfl])

theorem trim_of_blank {gap : List Char} (h : Blank gap) : trim (String.ofList gap) = "" := by
  have hstart : trimStart gap = [] := by
    have hdrop : (gap ++ []).dropWhile isBlank = [] := dropWhile_blank h (by simp)
    rwa [List.append_nil] at hdrop
  rw [trim, String.toList_ofList, hstart]
  rfl

/-- Trimming takes away the blanks around a text that has none at its ends. -/
theorem trim_padded {before cs after : List Char} (hbefore : Blank before) (hafter : Blank after)
    (hne : cs ≠ []) (hhead : ∀ c ∈ cs.head?, isBlank c = false)
    (hlast : ∀ c ∈ cs.getLast?, isBlank c = false) :
    trim (String.ofList (before ++ cs ++ after)) = String.ofList cs := by
  have hstart : trimStart (before ++ cs ++ after) = cs ++ after := by
    rw [trimStart, List.append_assoc]
    apply dropWhile_blank hbefore
    obtain ⟨c, rest, rfl⟩ := List.exists_cons_of_ne_nil hne
    exact hhead
  have hend : trimEnd (cs ++ after) = cs := by
    have hreverse : Blank after.reverse := fun c hc => hafter c (List.mem_reverse.mp hc)
    have hdrop : (after.reverse ++ cs.reverse).dropWhile isBlank = cs.reverse := by
      apply dropWhile_blank hreverse
      rwa [List.head?_reverse]
    rw [trimEnd, List.reverse_append, hdrop, List.reverse_reverse]
  rw [trim, String.toList_ofList, hstart, hend]

end Text

namespace Settings

/-! Names in a list -/

/-- A name that can stand in a list: it is not empty, has no comma in it and no blank at its ends. -/
structure Listable (name : String) : Prop where
  nonempty : name ≠ ""
  noComma : ',' ∉ name.toList
  start : ∀ c ∈ name.toList.head?, Text.isBlank c = false
  stop : ∀ c ∈ name.toList.getLast?, Text.isBlank c = false

/-- The fields of a list of names: the names in their order, each with blanks around it, and between
them any number of fields with nothing but blanks. -/
inductive Fields : List String → List (List Char) → Prop where
  | nil : Fields [] []
  | blank {gap names fields} : Text.Blank gap → Fields names fields → Fields names (gap :: fields)
  | name {name before after names fields} : Text.Blank before → Text.Blank after →
      Fields names fields → Fields (name :: names) ((before ++ name.toList ++ after) :: fields)

/-- A text that lists the names between commas. -/
def Spells (names : List String) (text : String) : Prop :=
  ∃ fields, Fields names fields ∧ text.toList = [','].intercalate fields

theorem comma_notMem_of_blank {gap : List Char} (h : Text.Blank gap) : ',' ∉ gap := by
  intro hmem
  have hblank := h ',' hmem
  exact absurd hblank (by decide)

theorem Fields.noComma {names : List String} {fields : List (List Char)} (h : Fields names fields)
    (hnames : ∀ name ∈ names, Listable name) : ∀ field ∈ fields, ',' ∉ field := by
  induction h with
  | nil => simp
  | blank hgap _ ih =>
    rw [List.forall_mem_cons]
    exact ⟨comma_notMem_of_blank hgap, ih hnames⟩
  | name hbefore hafter _ ih =>
    rw [List.forall_mem_cons] at hnames ⊢
    refine ⟨?_, ih hnames.2⟩
    simp [comma_notMem_of_blank hbefore, comma_notMem_of_blank hafter, hnames.1.noComma]

theorem Fields.decoded {names : List String} {fields : List (List Char)} (h : Fields names fields)
    (hnames : ∀ name ∈ names, Listable name) :
    ((fields.map String.ofList).map Text.trim).filter (· ≠ "") = names := by
  induction h with
  | nil => rfl
  | blank hgap _ ih =>
    rw [List.map_cons, List.map_cons, Text.trim_of_blank hgap]
    exact ih hnames
  | @name name before after names fields hbefore hafter _ ih =>
    rw [List.forall_mem_cons] at hnames
    obtain ⟨hname, hrest⟩ := hnames
    have hne : name.toList ≠ [] := by simpa using hname.nonempty
    rw [List.map_cons, List.map_cons, Text.trim_padded hbefore hafter hne hname.start hname.stop,
      String.ofList_toList, List.filter_cons_of_pos (by simp [hname.nonempty]), ih hrest]

theorem excluded_of_fields {environment : Environment} {names : List String}
    {fields : List (List Char)} (hnames : ∀ name ∈ names, Listable name) (hfields : Fields names fields)
    (hsplit : Text.splitAt ',' (value environment excludeVariable "").toList = fields) :
    excluded environment = names := by
  rw [excluded, Text.split, hsplit]
  exact hfields.decoded hnames

theorem fields_empty : Fields [] [[]] :=
  .blank (fun _ hc => by cases hc) .nil

/-- The names that are left out are those in the list. -/
theorem excluded_of_spells {environment : Environment} {names : List String} {text : String}
    (hnames : ∀ name ∈ names, Listable name) (hspells : Spells names text)
    (hset : Ledger.get? excludeVariable environment = some text) : excluded environment = names := by
  obtain ⟨fields, hfields, htext⟩ := hspells
  have hvalue : (value environment excludeVariable "").toList = [','].intercalate fields := by
    rw [value, hset, Option.getD_some, htext]
  by_cases hne : fields = []
  · subst hne
    cases hfields
    refine excluded_of_fields hnames fields_empty ?_
    rw [hvalue, List.intercalate_nil, Text.splitAt]
  · refine excluded_of_fields hnames hfields ?_
    rw [hvalue, Text.splitAt_intercalate hne (hfields.noComma hnames)]

theorem excluded_of_unset {environment : Environment}
    (hunset : Ledger.get? excludeVariable environment = none) : excluded environment = [] := by
  refine excluded_of_fields (by simp) fields_empty ?_
  rw [value, hunset, Option.getD_none, String.toList_empty, Text.splitAt]

/-! Loading -/

/-- The environments differ in one variable at most. -/
def AgreeBut (key : String) (first second : Environment) : Prop :=
  ∀ name, name ≠ key → Ledger.get? name first = Ledger.get? name second

theorem agreeBut_put (key value : String) (environment : Environment) :
    AgreeBut key (Ledger.put key value environment) environment :=
  fun _ hname => Ledger.get?_put_of_ne hname value environment

/-- Some value of the statements refers to the variable. -/
def RefersTo (assignments : List Assignment) (key : String) : Prop :=
  ∃ name value, (name, some value) ∈ assignments ∧
    key ∈ references (value.length + 1) value.toList

/-- Expanding a text asks for the names that it refers to, and for no others. -/
theorem expand_congr {f g : String → Option String} {fuel : Nat} {cs : List Char}
    (h : ∀ name ∈ references fuel cs, f name = g name) : expand f fuel cs = expand g fuel cs := by
  fun_induction references fuel cs with
  | case1 => rfl
  | case2 => rfl
  | case3 fuel rest name default after hread ih =>
    rw [List.forall_mem_cons] at h
    simp only [expand, hread, h.1, ih h.2]
  | case4 fuel rest hread ih => simp only [expand, hread, ih h]
  | case5 fuel c rest hopen ih =>
    rw [expand, expand, ih h]
    · exact hopen
    · exact hopen

theorem reference_congr {first second : Environment} {name : String}
    (h : Ledger.get? name first = Ledger.get? name second) (seen : Ledger String (Option String)) :
    reference first seen name = reference second seen name := by
  rw [reference, reference, h]

/-- What one statement does to the values so far. -/
def assign (environment : Environment) (seen : Ledger String (Option String)) (a : Assignment) :
    Ledger String (Option String) :=
  Ledger.put a.1 (a.2.map fun v =>
    String.ofList (expand (reference environment seen) (v.length + 1) v.toList)) seen

theorem evaluate_eq (environment : Environment) (assignments : List Assignment) :
    evaluate environment assignments = assignments.foldl (assign environment) [] := rfl

theorem assign_congr {first second : Environment} {a : Assignment}
    (h : ∀ name, RefersTo [a] name → Ledger.get? name first = Ledger.get? name second)
    (seen : Ledger String (Option String)) : assign first seen a = assign second seen a := by
  obtain ⟨name, value⟩ := a
  cases value with
  | none => simp only [assign, Option.map_none]
  | some v =>
    have htext : expand (reference first seen) (v.length + 1) v.toList =
        expand (reference second seen) (v.length + 1) v.toList := by
      apply expand_congr
      intro other hother
      exact reference_congr (h other ⟨name, v, List.mem_singleton_self _, hother⟩) seen
    simp only [assign, Option.map_some, htext]

/-- The values depend on the variables that are referred to, and on no others. -/
theorem evaluate_congr {first second : Environment} {assignments : List Assignment}
    (h : ∀ name, RefersTo assignments name → Ledger.get? name first = Ledger.get? name second) :
    evaluate first assignments = evaluate second assignments := by
  rw [evaluate_eq, evaluate_eq]
  generalize ([] : Ledger String (Option String)) = seen
  induction assignments generalizing seen with
  | nil => rw [List.foldl_nil, List.foldl_nil]
  | cons a rest ih =>
    have hfirst : ∀ name, RefersTo [a] name → Ledger.get? name first = Ledger.get? name second := by
      rintro name ⟨given, v, hmem, href⟩
      exact h name ⟨given, v, List.mem_cons.mpr (Or.inl (List.mem_singleton.mp hmem)), href⟩
    have hrest : ∀ name, RefersTo rest name → Ledger.get? name first = Ledger.get? name second := by
      rintro name ⟨given, v, hmem, href⟩
      exact h name ⟨given, v, List.mem_cons_of_mem _ hmem, href⟩
    rw [List.foldl_cons, List.foldl_cons, assign_congr hfirst]
    exact ih hrest _

theorem nodup_keys_evaluate (environment : Environment) (assignments : List Assignment) :
    ((evaluate environment assignments).map Prod.fst).Nodup := by
  rw [evaluate_eq]
  have hrun : ∀ seen : Ledger String (Option String), (seen.map Prod.fst).Nodup →
      ((assignments.foldl (assign environment) seen).map Prod.fst).Nodup := by
    induction assignments with
    | nil => exact fun _ hseen => hseen
    | cons a rest ih => exact fun seen hseen => ih _ (Ledger.nodup_keys_put hseen)
  exact hrun [] List.nodup_nil

/-! What is added -/

/-- One value of the statements is added if its variable is not set yet. -/
def addEntry (environment : Environment) (entry : String × Option String) : Environment :=
  match entry.2 with
  | some v =>
    if (Ledger.get? entry.1 environment).isSome then environment
    else Ledger.put entry.1 v environment
  | none => environment

theorem get?_addEntry (environment : Environment) (entry : String × Option String) (key : String) :
    Ledger.get? key (addEntry environment entry) =
      if entry.1 = key then (Ledger.get? key environment).or entry.2
      else Ledger.get? key environment := by
  obtain ⟨name, value⟩ := entry
  cases value with
  | none => simp [addEntry]
  | some v =>
    by_cases hname : name = key
    · subst hname
      cases hset : Ledger.get? name environment with
      | none => simp [addEntry, hset, Ledger.get?_put_self]
      | some old => simp [addEntry, hset]
    · rw [if_neg hname, addEntry]
      dsimp only
      split
      · rfl
      · exact Ledger.get?_put_of_ne (Ne.symm hname) v environment

/-- An environment has no value for a variable and cannot be given this one. -/
def Refuses (environment : Environment) (entry : String × Option String) : Prop :=
  Ledger.get? entry.1 environment = none ∧ entry.2.bind (setFault? entry.1) ≠ none

instance (environment : Environment) (entry : String × Option String) :
    Decidable (Refuses environment entry) :=
  inferInstanceAs (Decidable (_ ∧ _))

/-- The values up to the first that is refused. -/
def accepted (environment : Environment) (entries : List (String × Option String)) :
    List (String × Option String) :=
  entries.takeWhile fun entry => ¬ Refuses environment entry

section

variable {environment : Environment} {entry : String × Option String}
  {rest : List (String × Option String)}

theorem addAll_cons_of_refuses (rest : List (String × Option String))
    (h : Refuses environment entry) :
    ∃ fault, addAll environment (entry :: rest) = (some fault, environment) := by
  obtain ⟨name, value⟩ := entry
  obtain ⟨hunset, hfault⟩ := h
  obtain ⟨fault, hfault⟩ := Option.ne_none_iff_exists'.mp hfault
  obtain ⟨value, rfl, hfault⟩ := Option.bind_eq_some_iff.mp hfault
  exact ⟨fault, by simp [addAll, set, hunset, hfault]⟩

theorem addAll_cons_of_not_refuses (h : ¬ Refuses environment entry) :
    addAll environment (entry :: rest) = addAll (addEntry environment entry) rest := by
  obtain ⟨name, value⟩ := entry
  cases value with
  | none => rfl
  | some value =>
    simp only [addAll, addEntry]
    split
    · rfl
    · rename_i hunset
      have hfault : setFault? name value = none := by
        by_contra hfault
        exact h ⟨by simpa using hunset, hfault⟩
      simp only [set, hfault]

/-- A value for one variable makes no difference to whether another can be set. -/
theorem refuses_addEntry_iff {other : String × Option String} (h : other.1 ≠ entry.1) :
    Refuses (addEntry environment entry) other ↔ Refuses environment other := by
  rw [Refuses, Refuses, get?_addEntry, if_neg (Ne.symm h)]

end

/-- Whether a value can be set does not depend on those for other variables. -/
theorem refuses_addEntry_congr (environment : Environment) {entry : String × Option String}
    {rest : List (String × Option String)} (hentry : entry.1 ∉ rest.map Prod.fst) :
    ∀ other ∈ rest, (Refuses (addEntry environment entry) other ↔ Refuses environment other) := by
  intro other hother
  apply refuses_addEntry_iff
  intro heq
  exact hentry (heq ▸ List.mem_map_of_mem hother)

theorem accepted_congr {first second : Environment} {entries : List (String × Option String)}
    (h : ∀ entry ∈ entries, (Refuses first entry ↔ Refuses second entry)) :
    accepted first entries = accepted second entries := by
  induction entries with
  | nil => rfl
  | cons entry rest ih =>
    obtain ⟨hentry, hrest⟩ := List.forall_mem_cons.mp h
    have hrest := ih hrest
    rw [accepted, accepted] at hrest ⊢
    simp only [List.takeWhile_cons, hentry, hrest]

theorem get?_accepted_of_notMem {environment : Environment} {entries : List (String × Option String)}
    {key : String} (h : key ∉ entries.map Prod.fst) :
    Ledger.get? key (accepted environment entries) = none := by
  refine Ledger.get?_eq_none_iff.mpr fun hmem => h ?_
  exact (List.takeWhile_sublist _).map Prod.fst |>.subset hmem

/-- A variable that is set is not changed, and any other has the value that it is given before one is
refused. -/
theorem get?_addAll {environment : Environment} {entries : List (String × Option String)}
    (hnodup : (entries.map Prod.fst).Nodup) (key : String) :
    Ledger.get? key (addAll environment entries).2 =
      (Ledger.get? key environment).or (Ledger.get? key (accepted environment entries)).join := by
  induction entries generalizing environment with
  | nil => simp [addAll, accepted, Ledger.get?]
  | cons entry rest ih =>
    obtain ⟨hentry, hrest⟩ := List.nodup_cons.mp hnodup
    by_cases hrefuses : Refuses environment entry
    · obtain ⟨fault, hadd⟩ := addAll_cons_of_refuses rest hrefuses
      simp [hadd, accepted, hrefuses, Ledger.get?]
    · have htaken : accepted environment (entry :: rest) = entry :: accepted environment rest := by
        simp [accepted, hrefuses]
      rw [addAll_cons_of_not_refuses hrefuses, ih hrest, get?_addEntry, htaken,
        accepted_congr (refuses_addEntry_congr environment hentry)]
      by_cases hkey : entry.1 = key
      · have hgone : Ledger.get? key (accepted environment rest) = none :=
          get?_accepted_of_notMem (hkey ▸ hentry)
        simp [hkey, hgone, Ledger.get?]
      · simp [hkey, Ledger.get?]

theorem addAll_fault_eq_none_iff {environment : Environment} {entries : List (String × Option String)}
    (hnodup : (entries.map Prod.fst).Nodup) :
    (addAll environment entries).1 = none ↔ ∀ entry ∈ entries, ¬ Refuses environment entry := by
  induction entries generalizing environment with
  | nil => simp [addAll]
  | cons entry rest ih =>
    obtain ⟨hentry, hrest⟩ := List.nodup_cons.mp hnodup
    rw [List.forall_mem_cons]
    by_cases hrefuses : Refuses environment entry
    · obtain ⟨fault, hadd⟩ := addAll_cons_of_refuses rest hrefuses
      simp [hadd, hrefuses]
    · have hsame := refuses_addEntry_congr environment hentry
      rw [addAll_cons_of_not_refuses hrefuses, ih hrest, and_iff_right hrefuses]
      exact forall₂_congr fun other hother => not_congr (hsame other hother)

theorem accepted_eq_self {environment : Environment} {entries : List (String × Option String)}
    (h : ∀ entry ∈ entries, ¬ Refuses environment entry) : accepted environment entries = entries := by
  rw [accepted, List.takeWhile_eq_self_iff]
  exact fun entry hentry => decide_eq_true (h entry hentry)

/-! Loading -/

/-- The value that the statements give a variable, if they come so far. -/
def given? (environment : Environment) (assignments : List Assignment) (key : String) :
    Option String :=
  (Ledger.get? key (accepted environment (evaluate environment assignments))).join

/-- A variable that is set is not changed, and any other has the value that the statements give it. -/
theorem get?_extend (environment : Environment) (assignments : List Assignment) (key : String) :
    Ledger.get? key (extend environment assignments).2 =
      (Ledger.get? key environment).or (given? environment assignments key) :=
  get?_addAll (nodup_keys_evaluate environment assignments) key

theorem extend_fault_eq_none_iff (environment : Environment) (assignments : List Assignment) :
    (extend environment assignments).1 = none ↔
      ∀ entry ∈ evaluate environment assignments, ¬ Refuses environment entry :=
  addAll_fault_eq_none_iff (nodup_keys_evaluate environment assignments)

/-- The statements come to their end if nothing is refused. -/
theorem given?_of_complete {environment : Environment} {assignments : List Assignment}
    (h : (extend environment assignments).1 = none) (key : String) :
    given? environment assignments key = (Ledger.get? key (evaluate environment assignments)).join := by
  rw [given?, accepted_eq_self ((extend_fault_eq_none_iff environment assignments).mp h)]

theorem get?_extend_of_some {key value : String} {environment : Environment}
    (h : Ledger.get? key environment = some value) (assignments : List Assignment) :
    Ledger.get? key (extend environment assignments).2 = some value := by
  rw [get?_extend, h, Option.some_or]

/-- A variable that is not set and is given no value stays so. -/
theorem get?_extend_of_none {key : String} {environment : Environment} {assignments : List Assignment}
    (hunset : Ledger.get? key environment = none)
    (hgives : (Ledger.get? key (evaluate environment assignments)).join = none) :
    Ledger.get? key (extend environment assignments).2 = none := by
  have hnodup := nodup_keys_evaluate environment assignments
  rw [get?_extend, hunset, Option.none_or, given?]
  cases hgiven : Ledger.get? key (accepted environment (evaluate environment assignments)) with
  | none => rfl
  | some value =>
    have hmem := (List.takeWhile_sublist _).subset (Ledger.mem_of_get? hgiven)
    rwa [Ledger.get?_of_mem hnodup hmem] at hgives

/-- Values for other variables make a difference in one variable alone, or in none. -/
theorem AgreeBut.addAll {key : String} {first second : Environment}
    {entries : List (String × Option String)} (h : AgreeBut key first second)
    (hkey : ∀ value, (key, some value) ∉ entries) :
    (Settings.addAll first entries).1 = (Settings.addAll second entries).1 ∧
      AgreeBut key (Settings.addAll first entries).2 (Settings.addAll second entries).2 := by
  induction entries generalizing first second with
  | nil => exact ⟨rfl, h⟩
  | cons entry rest ih =>
    obtain ⟨name, value⟩ := entry
    have hrest : ∀ value, (key, some value) ∉ rest := fun value hmem =>
      hkey value (List.mem_cons_of_mem _ hmem)
    cases value with
    | none => exact ih h hrest
    | some value =>
      have hname : name ≠ key := by
        rintro rfl
        exact hkey value List.mem_cons_self
      simp only [Settings.addAll, h name hname]
      split
      · exact ih h hrest
      · unfold Settings.set
        cases setFault? name value with
        | some fault => exact ⟨rfl, h⟩
        | none =>
          refine ih (fun other hother => ?_) hrest
          by_cases hsame : other = name
          · rw [hsame, Ledger.get?_put_self, Ledger.get?_put_self]
          · rw [Ledger.get?_put_of_ne hsame, Ledger.get?_put_of_ne hsame, h other hother]

/-- Loading statements that neither refer to a variable nor give it a value makes a difference in it
alone. -/
theorem AgreeBut.extend {key : String} {first second : Environment} {assignments : List Assignment}
    (h : AgreeBut key first second) (hrefers : ¬ RefersTo assignments key)
    (hgives : (Ledger.get? key (evaluate second assignments)).join = none) :
    (extend first assignments).1 = (extend second assignments).1 ∧
      AgreeBut key (extend first assignments).2 (extend second assignments).2 := by
  have hvalues : evaluate first assignments = evaluate second assignments := by
    apply evaluate_congr
    intro name hname
    exact h name fun heq => hrefers (heq ▸ hname)
  rw [Settings.extend, Settings.extend, hvalues]
  refine h.addAll fun value hmem => ?_
  rw [Ledger.get?_of_mem (nodup_keys_evaluate second assignments) hmem] at hgives
  cases hgives

/-- The statements of a settings file; none, if it is not text. -/
def assignments? (files : Files) (cwd : Location) (path : Path) : Option (List Assignment) :=
  match files.entry cwd path with
  | .ok (.file (.bytes data) _) => (String.fromUTF8? data).map parse
  | .ok (.file (.store _) _) => none
  | _ => some []

theorem load_eq (files : Files) (cwd : Location) (path : Path) (environment : Environment) :
    load files cwd path environment =
      match assignments? files cwd path with
      | some assignments => extend environment assignments
      | none => (some .notText, environment) := by
  rw [load, assignments?]
  rcases files.entry cwd path with fault | t | ⟨data | rows, t⟩
  · rfl
  · rfl
  · cases htext : String.fromUTF8? data <;> simp only [htext, Option.map_some, Option.map_none]
  · rfl

end Settings
end StaleQuery
