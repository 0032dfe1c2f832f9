import StaleQuery.Proofs.Json.RoundTrip

/-!
# Indented values

A value without fractions that is written with each item and member on a line of its own is read back
as it was, and it is written in ASCII whatever its texts hold.
-/
namespace StaleQuery.Json

/-- A value without fractions in which each member has a key of its own. -/
inductive Whole : Json → Prop where
  | null : Whole null
  | bool (b) : Whole (bool b)
  | int (n) : Whole (int n)
  | str (s) : Whole (str s)
  | arr {items} : (∀ v ∈ items, Whole v) → Whole (arr items)
  | obj {members} : (∀ m ∈ members, Whole m.2) → (members.map Prod.fst).Nodup → Whole (obj members)

theorem Whole.plain {v : Json} (h : v.Whole) : v.Plain := by
  induction h with
  | null => exact .null
  | bool b => exact .bool b
  | int n => exact .int n
  | str s => exact .str s
  | arr _ ih => exact .arr ih
  | obj _ hkeys ih => exact .obj ih hkeys

/-! The layout -/

theorem blanks_newline (depth : Nat) : Blanks (newline depth) := by
  intro c hc
  rcases List.mem_cons.mp hc with rfl | hc
  · rfl
  · rw [List.eq_of_mem_replicate hc]
    rfl

theorem indentItems_eq (depth : Nat) (items : List Json) (k : List Char) :
    indentItems depth items k = layItems (writeIndented depth) (newline depth) items k := by
  induction items with
  | nil => rfl
  | cons v rest ih => rw [indentItems, layItems, ih]

theorem indentMembers_eq (depth : Nat) (members : List (String × Json)) (k : List Char) :
    indentMembers depth members k = layMembers (writeIndented depth) (newline depth) members k := by
  induction members with
  | nil => rfl
  | cons m rest ih => rw [indentMembers, layMembers, ih]

theorem writeIndented_arr_cons (depth : Nat) (v : Json) (rest : List Json) (k : List Char) :
    writeIndented depth (arr (v :: rest)) k =
      '[' :: (newline (depth + 1) ++ writeIndented (depth + 1) v
        (layItems (writeIndented (depth + 1)) (newline (depth + 1)) rest
          (newline depth ++ ']' :: k))) := by
  rw [writeIndented, indentItems_eq]

theorem writeIndented_obj_cons (depth : Nat) (key : String) (v : Json)
    (rest : List (String × Json)) (k : List Char) :
    writeIndented depth (obj ((key, v) :: rest)) k =
      '{' :: (newline (depth + 1) ++ (quote key ++ ':' :: ' ' :: writeIndented (depth + 1) v
        (layMembers (writeIndented (depth + 1)) (newline (depth + 1)) rest
          (newline depth ++ '}' :: k)))) := by
  rw [writeIndented, indentMembers_eq, List.append_assoc]

section

variable (write : Write)

theorem layItems_append {items : List Json}
    (h : ∀ u ∈ items, ∀ k, write u k = write u [] ++ k) (gap k : List Char) :
    layItems write gap items k = layItems write gap items [] ++ k := by
  induction items with
  | nil => rfl
  | cons u rest ih =>
    have hu := h u List.mem_cons_self
    rw [layItems, layItems, ih fun w hw => h w (List.mem_cons_of_mem _ hw), hu, hu (layItems _ _ _ [])]
    simp only [List.append_assoc, List.cons_append]

theorem layMembers_append {members : List (String × Json)}
    (h : ∀ m ∈ members, ∀ k, write m.2 k = write m.2 [] ++ k) (gap k : List Char) :
    layMembers write gap members k = layMembers write gap members [] ++ k := by
  induction members with
  | nil => rfl
  | cons m rest ih =>
    have hm := h m List.mem_cons_self
    rw [layMembers, layMembers, ih fun w hw => h w (List.mem_cons_of_mem _ hw), hm,
      hm (layMembers _ _ _ [])]
    simp only [List.append_assoc, List.cons_append]

end

theorem Whole.append {v : Json} (h : v.Whole) (depth : Nat) (k : List Char) :
    writeIndented depth v k = writeIndented depth v [] ++ k := by
  induction h generalizing depth k with
  | null | int n | str s => simp [writeIndented]
  | bool b => cases b <;> simp [writeIndented]
  | @arr items _ ih =>
    cases items with
    | nil => rfl
    | cons v rest =>
      have hv := ih v List.mem_cons_self (depth + 1)
      have hrest := layItems_append (writeIndented (depth + 1))
        (fun u hu k => ih u (List.mem_cons_of_mem _ hu) (depth + 1) k) (newline (depth + 1))
      rw [writeIndented_arr_cons, writeIndented_arr_cons, hv, hv (layItems _ _ _ _), hrest,
        hrest (newline depth ++ [']'])]
      simp only [List.append_assoc, List.cons_append, List.nil_append]
  | @obj members _ _ ih =>
    cases members with
    | nil => rfl
    | cons m rest =>
      have hv := ih m List.mem_cons_self (depth + 1)
      have hrest := layMembers_append (writeIndented (depth + 1))
        (fun u hu k => ih u (List.mem_cons_of_mem _ hu) (depth + 1) k) (newline (depth + 1))
      rw [writeIndented_obj_cons, writeIndented_obj_cons, hv, hv (layMembers _ _ _ _), hrest,
        hrest (newline depth ++ ['}'])]
      simp only [List.append_assoc, List.cons_append, List.nil_append]

theorem Whole.lays {v : Json} (h : v.Whole) (depth : Nat) : Lays (writeIndented depth) v where
  appends := h.append depth
  starts := by
    have hline := writeLine_head h.plain []
    cases h with
    | null | int n | str s => exact hline
    | bool b => cases b <;> exact hline
    | @arr items _ => cases items <;> exact ⟨'[', _, rfl, by decide⟩
    | @obj members _ _ => cases members <;> exact ⟨'{', _, rfl, by decide⟩

/-! Reading back -/

theorem ends_layItems {write : Write} (gap : List Char) (items : List Json) (depth : Nat)
    (k : List Char) : Ends (layItems write gap items (newline depth ++ k)) := by
  cases items <;> rintro c ⟨⟩ <;> simp

theorem ends_layMembers {write : Write} (gap : List Char) (members : List (String × Json))
    (depth : Nat) (k : List Char) : Ends (layMembers write gap members (newline depth ++ k)) := by
  cases members <;> rintro c ⟨⟩ <;> simp

theorem skipBlanks_newline (depth : Nat) {c : Char} (hc : isBlank c = false) (k : List Char) :
    skipBlanks (newline depth ++ c :: k) = c :: k := by
  rw [skipBlanks_append (blanks_newline depth), skipBlanks,
    List.dropWhile_cons_of_neg (by simp [hc])]

/-- A reader with room for a value reads it back from its lines. -/
theorem Whole.read_eq {most limit depth : Nat} {v : Json} (h : v.Whole)
    (hwithin : Within most limit v) {k : List Char} (hk : Ends k) :
    read most limit (writeIndented depth v k) = .ok (v, k) := by
  obtain ⟨nested, hlevel⟩ := read_eq_readLevel most limit
  induction hwithin generalizing depth k nested with
  | null => exact hlevel ▸ rfl
  | bool b => cases b <;> exact hlevel ▸ rfl
  | int hn => exact hlevel ▸ readLevel_digits hn hk
  | decimal text => cases h
  | str s => exact hlevel ▸ readLevel_quote s k
  | @arr limit items _ ih =>
    obtain ⟨inner, hinner⟩ := read_eq_readLevel most limit
    cases h with
    | arr hitems =>
      cases items with
      | nil => rfl
      | cons v rest =>
        rw [writeIndented_arr_cons]
        exact readLevel_items (blanks_newline _) (blanks_newline _)
          (fun u hu => (hitems u hu).lays (depth + 1))
          (fun u hu k hk => ih u hu (hitems u hu) hk inner hinner)
          (skipBlanks_newline depth rfl k) fun items => ends_layItems _ items depth _
  | @obj limit members _ ih =>
    obtain ⟨inner, hinner⟩ := read_eq_readLevel most limit
    cases h with
    | obj hmembers hkeys =>
      cases members with
      | nil => rfl
      | cons first rest =>
        rw [writeIndented_obj_cons]
        exact readLevel_members (blanks_newline _) (blanks_newline _)
          (fun m hm => (hmembers m hm).lays (depth + 1))
          (fun m hm k hk => ih m hm (hmembers m hm) hk inner hinner)
          (skipBlanks_newline depth rfl k) (fun members => ends_layMembers _ members depth _) hkeys

theorem length_toDigits_le (n : Int) : (Nat.toDigits 10 n.natAbs).length ≤ (digits n).length := by
  cases n with
  | ofNat n => exact Nat.le_refl _
  | negSucc n => exact Nat.le_succ _

/-- Every bracket and every digit takes a character at least, so a text is never longer than the room
that it needs. -/
theorem Whole.within {most limit depth : Nat} {v : Json} (h : v.Whole)
    (hlimit : (writeIndented depth v []).length ≤ limit) (hmost : limit ≤ most) :
    Within most limit v := by
  induction limit generalizing v depth with
  | zero =>
    obtain ⟨c, rest, hc, -⟩ := (h.lays depth).starts
    rw [hc] at hlimit
    cases hlimit
  | succ limit ih =>
    have hless : limit ≤ most := Nat.le_of_succ_le hmost
    cases h with
    | null => exact .null
    | bool b => exact .bool b
    | int n =>
      rw [writeIndented, List.append_nil] at hlimit
      exact .int (Nat.le_trans (length_toDigits_le n) (Nat.le_trans hlimit hmost))
    | str s => exact .str s
    | @arr items hitems =>
      refine .arr fun u hu => ?_
      cases items with
      | nil => cases hu
      | cons v rest =>
        have hlays : ∀ u ∈ v :: rest, Lays (writeIndented (depth + 1)) u := fun u hu =>
          (hitems u hu).lays (depth + 1)
        have hlength := length_le_items hlays hu (newline (depth + 1)) (newline depth ++ [']'])
        rw [writeIndented_arr_cons] at hlimit
        simp only [List.length_append, List.length_cons] at hlimit
        have hroom : (writeIndented (depth + 1) u []).length ≤ limit := by omega
        exact ih (hitems u hu) hroom hless
    | @obj members hmembers hkeys =>
      refine .obj fun m hm => ?_
      cases members with
      | nil => cases hm
      | cons first rest =>
        have hlays : ∀ m ∈ first :: rest, Lays (writeIndented (depth + 1)) m.2 := fun m hm =>
          (hmembers m hm).lays (depth + 1)
        have hlength := length_le_members hlays hm (newline (depth + 1)) (newline depth ++ ['}'])
        rw [writeIndented_obj_cons] at hlimit
        simp only [List.length_append, List.length_cons] at hlimit
        have hroom : (writeIndented (depth + 1) m.2 []).length ≤ limit := by omega
        exact ih (hmembers m hm) hroom hless

/-- A value that is written over several lines is read back from them, also with the end of the last
line behind it. -/
theorem parse?_indented {v : Json} (h : v.Whole) {ending : String} (hends : Ends ending.toList)
    (hblanks : Blanks ending.toList) : parse? (v.indented ++ ending) = some v := by
  have htext : (v.indented ++ ending).toList = writeIndented 0 v ending.toList := by
    rw [String.toList_append, indented, String.toList_ofList, ← h.append]
  have hlength : (writeIndented 0 v []).length ≤ (writeIndented 0 v ending.toList).length := by
    rw [h.append 0 ending.toList, List.length_append]
    exact Nat.le_add_right _ _
  have hwithin : Within ((writeIndented 0 v ending.toList).length + 10)
      ((writeIndented 0 v ending.toList).length + 2) v :=
    (h.within hlength (Nat.le_refl _)).mono (Nat.le_add_right _ _) (Nat.le_add_right _ _)
  have hrest : skipBlanks ending.toList = [] := by
    have hskip := skipBlanks_append hblanks []
    rwa [List.append_nil] at hskip
  rw [parse?, parse, htext, parseChars, (h.lays 0).skipBlanks_eq, Limits.ample,
    h.read_eq hwithin hends]
  simp [bind, Except.bind, hrest, pure, Except.pure, Except.toOption]

/-! ASCII -/

def Ascii (cs : List Char) : Prop :=
  ∀ c ∈ cs, c.toNat < 128

@[simp] theorem ascii_nil : Ascii [] := by
  intro c hc
  cases hc

@[simp] theorem ascii_cons {c : Char} {cs : List Char} :
    Ascii (c :: cs) ↔ c.toNat < 128 ∧ Ascii cs :=
  List.forall_mem_cons

@[simp] theorem ascii_append {cs ds : List Char} : Ascii (cs ++ ds) ↔ Ascii cs ∧ Ascii ds :=
  List.forall_mem_append

theorem ascii_escapeUnit (n : Nat) : Ascii (escapeUnit n) := by
  have hdigit : ∀ d < 16, (hexDigit d).toNat < 128 := by decide
  have hmod : ∀ m, (hexDigit (m % 16)).toNat < 128 := fun m => hdigit _ (Nat.mod_lt m (by decide))
  simp [escapeUnit, hmod]

theorem ascii_escapeChar (c : Char) : Ascii (escapeChar c) := by
  by_cases hplain : 32 ≤ c.toNat ∧ c.toNat < 127
  · simp only [escapeChar, hplain, and_self, if_true]
    split_ifs
    all_goals simp
    omega
  · simp only [escapeChar, hplain, if_false]
    split_ifs
    all_goals simp [ascii_escapeUnit]

theorem ascii_quote (s : String) : Ascii (quote s) := by
  have htext : Ascii (s.toList.flatMap escapeChar) := by
    intro c hc
    obtain ⟨d, -, hc⟩ := List.mem_flatMap.mp hc
    exact ascii_escapeChar d c hc
  simp [quote, htext]

theorem ascii_digits (n : Int) : Ascii (digits n) := by
  have hdigits : ∀ m, Ascii (Nat.toDigits 10 m) := by
    intro m c hc
    have hdigit := isDigit_of_mem_toDigits hc
    simp only [isDigit, Bool.and_eq_true, decide_eq_true_eq, Char.le_def, UInt32.le_iff_toNat_le] at hdigit
    have hnine : c.toNat ≤ 57 := hdigit.2
    omega
  cases n with
  | ofNat m => exact hdigits m
  | negSucc m =>
    rw [digits, ascii_cons]
    exact ⟨by decide, hdigits _⟩

theorem ascii_newline (depth : Nat) : Ascii (newline depth) := by
  rw [newline, ascii_cons]
  refine ⟨by decide, fun c hc => ?_⟩
  rw [List.eq_of_mem_replicate hc]
  decide

section

variable {write : Write} {gap k : List Char}

theorem ascii_layItems {items : List Json} (h : ∀ u ∈ items, ∀ k, Ascii k → Ascii (write u k))
    (hgap : Ascii gap) (hk : Ascii k) : Ascii (layItems write gap items k) := by
  induction items with
  | nil => exact hk
  | cons u rest ih =>
    have hrest := ih fun w hw => h w (List.mem_cons_of_mem _ hw)
    simp [layItems, hgap, h u List.mem_cons_self _ hrest]

theorem ascii_layMembers {members : List (String × Json)}
    (h : ∀ m ∈ members, ∀ k, Ascii k → Ascii (write m.2 k)) (hgap : Ascii gap) (hk : Ascii k) :
    Ascii (layMembers write gap members k) := by
  induction members with
  | nil => exact hk
  | cons m rest ih =>
    have hrest := ih fun w hw => h w (List.mem_cons_of_mem _ hw)
    simp [layMembers, hgap, ascii_quote, h m List.mem_cons_self _ hrest]

end

theorem Whole.ascii {v : Json} (h : v.Whole) (depth : Nat) {k : List Char} (hk : Ascii k) :
    Ascii (writeIndented depth v k) := by
  induction h generalizing depth k with
  | null => simp [writeIndented, hk]
  | bool b => cases b <;> simp [writeIndented, hk]
  | int n => simp [writeIndented, hk, ascii_digits]
  | str s => simp [writeIndented, hk, ascii_quote]
  | @arr items _ ih =>
    cases items with
    | nil => simp [writeIndented, hk]
    | cons v rest =>
      have hclose : Ascii (newline depth ++ ']' :: k) := by simp [ascii_newline, hk]
      have hrest := ascii_layItems
        (fun u hu k hk => ih u (List.mem_cons_of_mem _ hu) (depth + 1) hk)
        (ascii_newline (depth + 1)) hclose
      rw [writeIndented_arr_cons]
      simp [ascii_newline, ih v List.mem_cons_self (depth + 1) hrest]
  | @obj members _ _ ih =>
    cases members with
    | nil => simp [writeIndented, hk]
    | cons m rest =>
      have hclose : Ascii (newline depth ++ '}' :: k) := by simp [ascii_newline, hk]
      have hrest := ascii_layMembers
        (fun u hu k hk => ih u (List.mem_cons_of_mem _ hu) (depth + 1) hk)
        (ascii_newline (depth + 1)) hclose
      rw [writeIndented_obj_cons]
      simp [ascii_newline, ascii_quote, ih m List.mem_cons_self (depth + 1) hrest]

end StaleQuery.Json
