import StaleQuery.Console.Terminal
import StaleQuery.Proofs.Files.Growth

/-!
# Icons are spelled out all at once

Icons are spelled out in passes over the whole text, one for each icon. No spelling has an icon in
it, so a later pass never meets what an earlier one has written, and the passes together put the
spelling of each icon in its place and leave all else as it is.
-/
namespace StaleQuery

namespace Icon

abbrev Table := List (Char × String)

/-- The passes of a table over a text. -/
def passes (table : Table) (cs : List Char) : List Char :=
  table.foldl (fun cs entry => replace entry.1 entry.2.toList cs) cs

/-- What stands for one character: the spelling of an icon, and anything else itself. -/
def spelled (table : Table) (c : Char) : List Char :=
  match Ledger.get? c table with
  | some spelling => spelling.toList
  | none => [c]

/-- No spelling has an icon in it. -/
def Table.Settled (table : Table) : Prop :=
  ∀ entry ∈ table, ∀ other ∈ table, other.1 ∉ entry.2.toList

def IsIcon (c : Char) : Prop :=
  c ∈ spellings.map Prod.fst

theorem spellOut_eq_passes (text : String) :
    spellOut text = String.ofList (passes spellings text.toList) := rfl

section

variable {table : Table} {c : Char} {cs : List Char}

theorem spelled_of_notMem (h : c ∉ table.map Prod.fst) : spelled table c = [c] := by
  rw [spelled, Ledger.get?_eq_none_iff.mpr h]

theorem flatMap_spelled_of_notMem (h : ∀ c ∈ cs, c ∉ table.map Prod.fst) :
    cs.flatMap (spelled table) = cs := by
  induction cs with
  | nil => rfl
  | cons c rest ih =>
    obtain ⟨hc, hrest⟩ := List.forall_mem_cons.mp h
    rw [List.flatMap_cons, spelled_of_notMem hc, ih hrest, List.singleton_append]

/-- A character is an icon with its spelling, or it stays. -/
theorem spelled_cases (table : Table) (c : Char) :
    (∃ spelling, (c, spelling) ∈ table ∧ spelled table c = spelling.toList) ∨
      (c ∉ table.map Prod.fst ∧ spelled table c = [c]) := by
  cases hget : Ledger.get? c table with
  | some spelling =>
    exact Or.inl ⟨spelling, Ledger.mem_of_get? hget, by rw [spelled, hget]⟩
  | none =>
    have hnew := Ledger.get?_eq_none_iff.mp hget
    exact Or.inr ⟨hnew, spelled_of_notMem hnew⟩

/-- The passes come to one substitution. Each pass goes over what the ones before have written, which
has none of its icons beyond those of the text. -/
theorem passes_eq_flatMap (h : table.Settled) (cs : List Char) :
    passes table cs = cs.flatMap (spelled table) := by
  induction table generalizing cs with
  | nil =>
    exact (flatMap_spelled_of_notMem fun _ _ => List.not_mem_nil).symm
  | cons entry rest ih =>
    obtain ⟨icon, spelling⟩ := entry
    have hrest : Table.Settled rest := fun e he f hf =>
      h e (List.mem_cons_of_mem _ he) f (List.mem_cons_of_mem _ hf)
    have hkept : spelling.toList.flatMap (spelled rest) = spelling.toList := by
      apply flatMap_spelled_of_notMem
      intro c hc hmem
      obtain ⟨other, hother, rfl⟩ := List.mem_map.mp hmem
      exact h (icon, spelling) List.mem_cons_self other (List.mem_cons_of_mem _ hother) hc
    have hpass : passes ((icon, spelling) :: rest) cs =
        (replace icon spelling.toList cs).flatMap (spelled rest) := ih hrest _
    rw [hpass, replace, List.flatMap_assoc]
    congr 1
    funext c
    by_cases hc : c = icon
    · subst hc
      rw [if_pos rfl, hkept, spelled, Ledger.get?, if_pos rfl]
    · have hne : icon ≠ c := fun heq => hc heq.symm
      rw [if_neg hc, List.flatMap_singleton, spelled, spelled, Ledger.get?, if_neg hne]

/-- Where every icon has one spelling the order of the table does not count. -/
theorem spelled_perm {other : Table} (hnodup : (table.map Prod.fst).Nodup) (h : other.Perm table) :
    spelled other = spelled table := by
  have hother : (other.map Prod.fst).Nodup := (h.map Prod.fst).nodup_iff.mpr hnodup
  have hget : ∀ c, Ledger.get? c other = Ledger.get? c table := by
    intro c
    apply Option.ext
    intro spelling
    rw [Ledger.get?_eq_some_iff hother, Ledger.get?_eq_some_iff hnodup, h.mem_iff]
  funext c
  rw [spelled, spelled, hget]

theorem Table.Settled.perm {other : Table} (hsettled : table.Settled) (h : other.Perm table) :
    other.Settled := fun e he f hf => hsettled e (h.mem_iff.mp he) f (h.mem_iff.mp hf)

/-- What is written has no icon in it. -/
theorem notMem_flatMap_spelled (h : table.Settled) {icon : Char} (hicon : icon ∈ table.map Prod.fst) :
    icon ∉ cs.flatMap (spelled table) := by
  intro hmem
  obtain ⟨c, -, hwritten⟩ := List.mem_flatMap.mp hmem
  obtain ⟨entry, hentry, rfl⟩ := List.mem_map.mp hicon
  rcases spelled_cases table c with ⟨spelling, hspelling, heq⟩ | ⟨hnew, heq⟩
  · rw [heq] at hwritten
    exact h _ hspelling entry hentry hwritten
  · rw [heq, List.mem_singleton] at hwritten
    exact hnew (hwritten ▸ hicon)

end

/-! The table of spellings -/

theorem settled_spellings : Table.Settled spellings := by
  unfold Table.Settled
  decide

theorem nodup_spellings : (spellings.map Prod.fst).Nodup := by
  decide

theorem ascii_of_mem_spellings : ∀ entry ∈ spellings,
    128 ≤ entry.1.toNat ∧ ∀ c ∈ entry.2.toList, c.toNat < 128 := by
  have hall : ∀ entry ∈ spellings,
      128 ≤ entry.1.toNat ∧ entry.2.toList.all (fun c => c.toNat < 128) = true := by decide
  simpa only [List.all_eq_true, decide_eq_true_eq] using hall

theorem not_isIcon_of_ascii {c : Char} (h : c.toNat < 128) : ¬ IsIcon c := by
  intro hicon
  obtain ⟨entry, hentry, rfl⟩ := List.mem_map.mp hicon
  have hhigh := (ascii_of_mem_spellings entry hentry).1
  omega

theorem toList_spellOut (text : String) :
    (spellOut text).toList = text.toList.flatMap (spelled spellings) := by
  rw [spellOut_eq_passes, String.toList_ofList, passes_eq_flatMap settled_spellings]

/-- What is written for a character is ASCII if and only if the character is, or is an icon. -/
theorem ascii_spelled_iff (c : Char) :
    (∀ d ∈ spelled spellings c, d.toNat < 128) ↔ (128 ≤ c.toNat → IsIcon c) := by
  rcases spelled_cases spellings c with ⟨spelling, hmem, heq⟩ | ⟨hnew, heq⟩
  · have hicon : IsIcon c := List.mem_map.mpr ⟨_, hmem, rfl⟩
    rw [heq]
    exact iff_of_true (ascii_of_mem_spellings _ hmem).2 fun _ => hicon
  · rw [heq, List.forall_mem_singleton]
    constructor
    · intro hlow hhigh
      omega
    · intro hicon
      by_contra hhigh
      exact hnew (hicon (by omega))

end Icon

namespace Console

variable {encoding : String} (h : isUtf8 encoding = false)
include h

theorem sanitize_eq_spellOut (text : String) : sanitize encoding text = Icon.spellOut text := by
  rw [sanitize, h]
  rfl

theorem toList_sanitize (text : String) :
    (sanitize encoding text).toList = text.toList.flatMap (Icon.spelled Icon.spellings) := by
  rw [sanitize_eq_spellOut h, Icon.toList_spellOut]

theorem icon_notMem_sanitize (text : String) {c : Char} (hicon : Icon.IsIcon c) :
    c ∉ (sanitize encoding text).toList := by
  rw [toList_sanitize h]
  exact Icon.notMem_flatMap_spelled Icon.settled_spellings hicon

theorem sanitize_of_no_icon {text : String} (hno : ∀ c ∈ text.toList, ¬ Icon.IsIcon c) :
    sanitize encoding text = text := by
  rw [← String.toList_inj, toList_sanitize h]
  exact Icon.flatMap_spelled_of_notMem hno

theorem sanitize_append (text other : String) :
    sanitize encoding (text ++ other) = sanitize encoding text ++ sanitize encoding other := by
  rw [← String.toList_inj, String.toList_append, toList_sanitize h, toList_sanitize h,
    toList_sanitize h, String.toList_append, List.flatMap_append]

end Console

open Console in
/-- Where an encoding is not UTF-8, spelling out the icons in passes is one substitution, character by
character. The order of the passes does not count, no icon is left, a second time changes nothing,
parts of a text can be done apart, every other character stays between what becomes of the text before
it and after it, and the result is ASCII if and only if all that was not ASCII was icons. -/
theorem icons_spelled_at_once (encoding : String) (h : isUtf8 encoding = false) (text : String) :
    (sanitize encoding text).toList = text.toList.flatMap (Icon.spelled Icon.spellings) ∧
    (∀ table, table.Perm Icon.spellings →
      sanitize encoding text = String.ofList (Icon.passes table text.toList)) ∧
    (∀ c, Icon.IsIcon c → c ∉ (sanitize encoding text).toList) ∧
    sanitize encoding (sanitize encoding text) = sanitize encoding text ∧
    (∀ other, sanitize encoding (text ++ other) =
      sanitize encoding text ++ sanitize encoding other) ∧
    (∀ before c after, text = before ++ String.singleton c ++ after → ¬ Icon.IsIcon c →
      sanitize encoding text =
        sanitize encoding before ++ String.singleton c ++ sanitize encoding after) ∧
    ((∀ c ∈ (sanitize encoding text).toList, c.toNat < 128) ↔
      ∀ c ∈ text.toList, 128 ≤ c.toNat → Icon.IsIcon c) := by
  have hnone : ∀ c ∈ (sanitize encoding text).toList, ¬ Icon.IsIcon c := fun c hc hicon =>
    icon_notMem_sanitize h text hicon hc
  refine ⟨toList_sanitize h text, ?_, fun c => icon_notMem_sanitize h text,
    sanitize_of_no_icon h hnone, sanitize_append h text, ?_, ?_⟩
  · intro table hperm
    rw [← String.toList_inj, String.toList_ofList, toList_sanitize h,
      Icon.passes_eq_flatMap (Icon.settled_spellings.perm hperm),
      Icon.spelled_perm Icon.nodup_spellings hperm]
  · rintro before c after rfl hother
    have hstays : sanitize encoding (String.singleton c) = String.singleton c :=
      sanitize_of_no_icon h (by simpa using hother)
    rw [sanitize_append h, sanitize_append h, hstays]
  · rw [toList_sanitize h]
    simp only [List.forall_mem_flatMap, Icon.ascii_spelled_iff]

/-- A mark and an arrow are spelled out around a letter that stays, so the text does not become ASCII. -/
theorem arrow_spelled_letter_stays :
    Console.isUtf8 "ascii" = false ∧ ¬ Icon.IsIcon 'é' ∧
    Console.sanitize "ascii" "✓é→" = "[OK]é->" ∧
    ¬ ∀ c ∈ (Console.sanitize "ascii" "✓é→").toList, c.toNat < 128 := by
  have hutf8 : Console.isUtf8 "ascii" = false := by decide
  have hletter : ¬ Icon.IsIcon 'é' := by unfold Icon.IsIcon; decide
  obtain ⟨hall, -, -, -, -, -, hascii⟩ := icons_spelled_at_once "ascii" hutf8 "✓é→"
  refine ⟨hutf8, hletter, ?_, ?_⟩
  · rw [← String.toList_inj, hall]
    decide
  · rw [hascii]
    intro hicons
    exact hletter (hicons 'é' (by decide) (by decide))

end StaleQuery
