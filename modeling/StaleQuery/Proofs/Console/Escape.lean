import StaleQuery.Proofs.Text.Icons

/-!
# An escaped text prints

Markup takes a bracket for a tag unless an odd number of backslashes stands before it. In an escaped
text that is so for every bracket that would open a tag, and spelling out icons leaves it so: a
spelling has no backslash in it and opens no tag. Such a text has nothing in it that could be closed
without being open, so it can be printed behind any lead whose own tags are closed.
-/
namespace StaleQuery

namespace Markup

/-- Whether the first bracket of a text is a closing one. -/
def closes : List Char → Bool
  | [] => false
  | c :: rest => c == ']' || (c != '[' && closes rest)

/-- Whether what follows an opening bracket makes it a tag. -/
def opens : List Char → Bool
  | [] => false
  | c :: rest => startsTag c && closes rest

/-- No tag is left: each bracket that would open one is escaped. `slashes` counts the backslashes just
before the text. -/
def Shielded (slashes : Nat) : List Char → Prop
  | [] => True
  | c :: rest => (c = '[' → opens rest = true → slashes % 2 = 1) ∧
      Shielded (if c = '\\' then slashes + 1 else 0) rest

/-! Tags -/

section

variable {cs content after : List Char}

theorem startsTag_ne {c : Char} (h : startsTag c = true) : c ≠ '[' ∧ c ≠ '\\' := by
  constructor <;> rintro rfl <;> exact absurd h (by decide)

theorem opens_bracket (cs : List Char) : opens ('[' :: cs) = false := rfl

theorem opens_backslash (cs : List Char) : opens ('\\' :: cs) = false := rfl

theorem closes_append (h : ∀ c ∈ content, c ≠ '[') : closes (content ++ ']' :: after) = true := by
  induction content with
  | nil => rfl
  | cons c rest ih =>
    obtain ⟨hc, hrest⟩ := List.forall_mem_cons.mp h
    simp [closes, hc, ih hrest]

theorem drop_of_closes (h : closes cs = true) : ∃ after,
    cs.drop (cs.takeWhile fun d => d ≠ ']' && d ≠ '[').length = ']' :: after := by
  induction cs with
  | nil => cases h
  | cons c rest ih =>
    by_cases hclose : c = ']'
    · exact ⟨rest, by simp [hclose]⟩
    · have hstep : c ≠ '[' ∧ closes rest = true := by simpa [closes, hclose] using h
      obtain ⟨after, hafter⟩ := ih hstep.2
      exact ⟨after, by simpa [hclose, hstep.1] using hafter⟩

/-- A tag is what opens one, up to the closing bracket. -/
theorem readTag?_eq_some (h : readTag? cs = some (content, after)) :
    cs = content ++ ']' :: after ∧ (∀ c ∈ content, c ≠ '[') ∧ opens cs = true := by
  cases cs with
  | nil => cases h
  | cons c rest =>
    simp only [readTag?] at h
    split at h
    · cases h
    · rename_i hstart
      have hc : startsTag c = true := by simpa using hstart
      split at h
      · rename_i found hfound
        obtain ⟨rfl, rfl⟩ := Prod.mk.inj (Option.some.inj h)
        have htake := List.prefix_iff_eq_take.mp
          (List.takeWhile_prefix (l := rest) fun d => d ≠ ']' && d ≠ '[')
        have hsplit := rest.take_append_drop
          (rest.takeWhile fun d => d ≠ ']' && d ≠ '[').length
        rw [← htake, hfound] at hsplit
        have hcontent : ∀ d ∈ c :: rest.takeWhile fun d => d ≠ ']' && d ≠ '[', d ≠ '[' := by
          refine List.forall_mem_cons.mpr ⟨(startsTag_ne hc).1, fun d hd => ?_⟩
          have hd := List.all_eq_true.mp List.all_takeWhile d hd
          simp only [Bool.and_eq_true, decide_eq_true_eq] at hd
          exact hd.2
        have hcloses : closes (_ ++ ']' :: found) = true :=
          closes_append (List.forall_mem_cons.mp hcontent).2
        rw [hsplit] at hcloses
        exact ⟨by rw [List.cons_append, hsplit], hcontent, by rw [opens, hc, hcloses]; rfl⟩
      · cases h

theorem opens_of_readTag?_eq_none (h : readTag? cs = none) : opens cs = false := by
  cases cs with
  | nil => rfl
  | cons c rest =>
    by_contra hopens
    have hboth : startsTag c = true ∧ closes rest = true := by simpa [opens] using hopens
    obtain ⟨after, hafter⟩ := drop_of_closes hboth.2
    simp only [readTag?, hboth.1, hafter, Bool.not_true, Bool.false_eq_true, if_false] at h
    cases h

end

/-! Shielded texts -/

section

variable {cs content after : List Char} {slashes n : Nat}

theorem shielded_after (h : Shielded slashes (content ++ ']' :: after)) : Shielded 0 after := by
  induction content generalizing slashes with
  | nil => exact h.2
  | cons c rest ih => exact ih h.2

theorem shielded_append (hno : ∀ c ∈ content, c ≠ '[') (h : ∀ k, Shielded k after) :
    Shielded slashes (content ++ after) := by
  induction content generalizing slashes with
  | nil => exact h slashes
  | cons c rest ih =>
    obtain ⟨hc, hrest⟩ := List.forall_mem_cons.mp hno
    exact ⟨fun hopen => absurd hopen hc, ih hrest⟩

theorem shielded_replicate (h : Shielded (slashes + n) cs) :
    Shielded slashes (List.replicate n '\\' ++ cs) := by
  induction n generalizing slashes with
  | zero => exact h
  | succ n ih =>
    refine ⟨fun hopen => absurd hopen (by decide), ih ?_⟩
    rwa [if_pos rfl, Nat.add_assoc, Nat.add_comm 1]

theorem escapedTag_of_odd (h : slashes % 2 = 1) :
    ∀ piece ∈ escapedTag slashes content, ∃ text, piece = .plain text := by
  intro piece hpiece
  rw [escapedTag, if_pos h] at hpiece
  rcases List.mem_append.mp hpiece with hslashes | hliteral
  · split at hslashes
    · cases hslashes
    · exact ⟨_, List.mem_singleton.mp hslashes⟩
  · exact ⟨_, List.mem_singleton.mp hliteral⟩

/-- Nothing of a shielded text is taken for a tag. -/
theorem pieces_of_shielded {read : List Char} {fuel : Nat} (h : Shielded slashes cs) :
    ∀ piece ∈ pieces read slashes fuel cs, ∃ text, piece = .plain text := by
  -- what has been read does not count: it is printed as it is
  induction fuel generalizing read slashes cs with
  | zero => exact fun _ hpiece => by cases hpiece
  | succ fuel ih =>
    cases cs with
    | nil =>
      intro piece hpiece
      simp only [pieces] at hpiece
      split at hpiece
      · cases hpiece
      · exact ⟨_, List.mem_singleton.mp hpiece⟩
    | cons c rest =>
      obtain ⟨hopen, hrest⟩ := h
      rw [pieces]
      by_cases hc : c = '['
      · rw [if_pos hc]
        have hrest : Shielded 0 rest := by rwa [hc, if_neg (by decide)] at hrest
        cases htag : readTag? rest with
        | none => exact ih hrest
        | some tag =>
          obtain ⟨content, after⟩ := tag
          obtain ⟨rfl, -, hopens⟩ := readTag?_eq_some htag
          simp only [List.forall_mem_append]
          refine ⟨⟨fun piece hpiece => ?_, escapedTag_of_odd (hopen hc hopens)⟩,
            ih (shielded_after hrest)⟩
          split at hpiece
          · cases hpiece
          · exact ⟨_, List.mem_singleton.mp hpiece⟩
      · rw [if_neg hc]
        exact ih hrest

/-- Where there is no tag everything is printed, whatever styles are open. -/
theorem plainText?_isSome {styles : List String} {pieces : List Piece}
    (h : ∀ piece ∈ pieces, ∃ text, piece = .plain text) : (plainText? styles pieces).isSome := by
  induction pieces with
  | nil => rfl
  | cons piece rest ih =>
    obtain ⟨⟨text, rfl⟩, hrest⟩ := List.forall_mem_cons.mp h
    have hprinted : plainText? styles (.plain text :: rest) =
        (plainText? styles rest).map (unescape text ++ ·) := rfl
    rw [hprinted, Option.isSome_map]
    exact ih hrest

end

/-! Escaping -/

section

variable {cs : List Char}

theorem closes_replicate (n : Nat) (cs : List Char) :
    closes (List.replicate n '\\' ++ cs) = closes cs := by
  induction n with
  | zero => rfl
  | succ n ih => exact ih

theorem closes_escapeFrom (fuel : Nat) (cs : List Char) (slashes : Nat) :
    closes (escapeFrom slashes fuel cs) = closes cs := by
  induction fuel generalizing cs slashes with
  | zero => rfl
  | succ fuel ih =>
    cases cs with
    | nil => rfl
    | cons c rest =>
      rw [escapeFrom]
      by_cases hc : c = '['
      · subst hc
        rw [if_pos rfl]
        cases readTag? rest with
        | none => rfl
        | some tag =>
          dsimp only
          rw [List.append_assoc, closes_replicate]
          rfl
      · rw [if_neg hc, closes, closes, ih]

theorem opens_escapeFrom {fuel : Nat} (h : opens (escapeFrom 0 fuel cs) = true) :
    opens cs = true := by
  cases fuel with
  | zero => exact h
  | succ fuel =>
    cases cs with
    | nil => exact h
    | cons c rest =>
      rw [escapeFrom] at h
      by_cases hc : c = '['
      · subst hc
        rw [if_pos rfl] at h
        cases htag : readTag? rest with
        | none =>
          rw [htag] at h
          cases (opens_bracket _).symm.trans h
        | some tag =>
          rw [htag] at h
          cases (opens_backslash _).symm.trans h
      · rwa [if_neg hc, opens, closes_escapeFrom, ← opens] at h

theorem shielded_escapeFrom {fuel slashes : Nat} (hfuel : cs.length < fuel) :
    Shielded slashes (escapeFrom slashes fuel cs) := by
  induction fuel generalizing cs slashes with
  | zero => cases hfuel
  | succ fuel ih =>
    cases cs with
    | nil => trivial
    | cons c rest =>
      have hrest : rest.length < fuel := Nat.lt_of_succ_lt_succ hfuel
      rw [escapeFrom]
      by_cases hc : c = '['
      · subst hc
        rw [if_pos rfl]
        cases htag : readTag? rest with
        | none =>
          refine ⟨fun _ hopens => ?_, ih hrest⟩
          have hnone := opens_of_readTag?_eq_none htag
          rw [opens_escapeFrom hopens] at hnone
          cases hnone
        | some tag =>
          obtain ⟨content, after⟩ := tag
          obtain ⟨rfl, hno, -⟩ := readTag?_eq_some htag
          have hafter : after.length < fuel := by
            simp only [List.length_append, List.length_cons] at hrest
            omega
          dsimp only
          rw [List.append_assoc]
          refine shielded_replicate ⟨fun _ _ => by omega, ?_⟩
          exact shielded_append hno fun k => ⟨fun h => absurd h (by decide), ih hafter⟩
      · rw [if_neg hc]
        exact ⟨fun h => absurd h hc, ih hrest⟩

theorem closes_append_backslash (cs : List Char) : closes (cs ++ ['\\']) = closes cs := by
  induction cs with
  | nil => rfl
  | cons c rest ih => rw [List.cons_append, closes, closes, ih]

theorem opens_append_backslash (cs : List Char) : opens (cs ++ ['\\']) = opens cs := by
  cases cs with
  | nil => rfl
  | cons c rest => rw [List.cons_append, opens, opens, closes_append_backslash]

theorem shielded_append_backslash {slashes : Nat} (h : Shielded slashes cs) :
    Shielded slashes (cs ++ ['\\']) := by
  induction cs generalizing slashes with
  | nil => exact ⟨fun hopen => absurd hopen (by decide), trivial⟩
  | cons c rest ih =>
    refine ⟨fun hopen hopens => h.1 hopen ?_, ih h.2⟩
    rwa [← opens_append_backslash]

theorem shielded_escape (text : String) : Shielded 0 (escape text).toList := by
  have hescaped : Shielded 0 (escapeFrom 0 (text.length + 1) text.toList) :=
    shielded_escapeFrom (by rw [String.length_toList]; omega)
  unfold escape
  dsimp only
  rw [String.toList_ofList]
  split
  · exact shielded_append_backslash hescaped
  · exact hescaped

end

/-! Spelling out icons -/

/-- A spelling that opens and closes no tag, whatever stands around it. -/
def quiet : List Char → Bool
  | [] => false
  | c :: rest => !startsTag c && c != ']' && c != '\\' &&
      if c = '[' then
        match rest with
        | [] => false
        | d :: _ => !startsTag d && rest.all fun e => e != '[' && e != '\\'
      else rest.all fun e => e != '[' && e != ']' && e != '\\'

theorem quiet_of_mem_spellings : ∀ entry ∈ Icon.spellings, quiet entry.2.toList = true := by
  decide

section

variable {cs spelling : List Char} {slashes : Nat}

theorem closes_append_of_no_bracket (h : ∀ c ∈ spelling, c ≠ '[' ∧ c ≠ ']') (k : List Char) :
    closes (spelling ++ k) = closes k := by
  induction spelling with
  | nil => rfl
  | cons c rest ih =>
    obtain ⟨⟨hopen, hclose⟩, hrest⟩ := List.forall_mem_cons.mp h
    rw [List.cons_append, closes, ih hrest, beq_false_of_ne hclose, bne_iff_ne.mpr hopen, Bool.true_and,
      Bool.false_or]

theorem shielded_append_of_no_slash (h : ∀ c ∈ spelling, c ≠ '[' ∧ c ≠ '\\') {k : List Char}
    (hk : Shielded 0 k) : Shielded 0 (spelling ++ k) := by
  induction spelling with
  | nil => exact hk
  | cons c rest ih =>
    obtain ⟨⟨hopen, hslash⟩, hrest⟩ := List.forall_mem_cons.mp h
    refine ⟨fun hc => absurd hc hopen, ?_⟩
    rw [if_neg hslash]
    exact ih hrest

/-- What a quiet spelling does to tags: nothing. -/
theorem quiet_spec (h : quiet spelling = true) (k : List Char) :
    opens (spelling ++ k) = false ∧ (closes (spelling ++ k) = true → closes k = true) ∧
      ∀ slashes, Shielded 0 k → Shielded slashes (spelling ++ k) := by
  cases spelling with
  | nil => cases h
  | cons c rest =>
    simp only [quiet, Bool.and_eq_true, Bool.not_eq_true', bne_iff_ne] at h
    obtain ⟨⟨⟨hstart, hclose⟩, hslash⟩, hrest⟩ := h
    refine ⟨by rw [List.cons_append, opens, hstart, Bool.false_and], ?_⟩
    by_cases hopen : c = '['
    · subst hopen
      rw [if_pos rfl] at hrest
      cases rest with
      | nil => cases hrest
      | cons d rest =>
        simp only [Bool.and_eq_true, Bool.not_eq_true', List.all_eq_true, bne_iff_ne] at hrest
        refine ⟨fun hcloses => (by cases hcloses), fun _ hk => ⟨fun _ hopens => ?_, ?_⟩⟩
        · change (startsTag d && closes (rest ++ k)) = true at hopens
          rw [hrest.1] at hopens
          cases hopens
        · exact shielded_append_of_no_slash hrest.2 hk
    · rw [if_neg hopen] at hrest
      simp only [Bool.and_eq_true, List.all_eq_true, bne_iff_ne] at hrest
      have hbrackets : ∀ d ∈ c :: rest, d ≠ '[' ∧ d ≠ ']' :=
        List.forall_mem_cons.mpr ⟨⟨hopen, hclose⟩, fun d hd => (hrest d hd).1⟩
      refine ⟨fun hcloses => ?_, fun _ hk => ⟨fun hc => absurd hc hopen, ?_⟩⟩
      · rwa [closes_append_of_no_bracket hbrackets] at hcloses
      · rw [if_neg hslash]
        exact shielded_append_of_no_slash (fun d hd => ⟨(hrest d hd).1.1, (hrest d hd).2⟩) hk

/-- A character is a bracket or a backslash, and then it stays, or what is written for it is quiet. -/
theorem spelled_quiet_or_stays (c : Char) :
    (quiet (Icon.spelled Icon.spellings c) = true ∧ c ≠ '[' ∧ c ≠ '\\') ∨
      Icon.spelled Icon.spellings c = [c] := by
  rcases Icon.spelled_cases Icon.spellings c with ⟨spelling, hmem, heq⟩ | ⟨-, heq⟩
  · have hicon := (Icon.ascii_of_mem_spellings _ hmem).1
    have hne : ∀ d : Char, d.toNat < 128 → c ≠ d := by
      rintro d hd rfl
      exact absurd hicon (Nat.not_le.mpr hd)
    exact Or.inl ⟨heq ▸ quiet_of_mem_spellings _ hmem, hne _ (by decide), hne _ (by decide)⟩
  · exact Or.inr heq

theorem closes_spelled (h : closes (cs.flatMap (Icon.spelled Icon.spellings)) = true) :
    closes cs = true := by
  induction cs with
  | nil => cases h
  | cons c rest ih =>
    rw [List.flatMap_cons] at h
    rcases spelled_quiet_or_stays c with ⟨hquiet, hopen, -⟩ | heq
    · have hrest := ih ((quiet_spec hquiet _).2.1 h)
      simp [closes, hopen, hrest]
    · rw [heq, List.singleton_append, closes, Bool.or_eq_true, Bool.and_eq_true] at h
      rw [closes, Bool.or_eq_true, Bool.and_eq_true]
      exact h.imp_right fun hboth => ⟨hboth.1, ih hboth.2⟩

theorem opens_spelled (h : opens (cs.flatMap (Icon.spelled Icon.spellings)) = true) :
    opens cs = true := by
  cases cs with
  | nil => cases h
  | cons c rest =>
    rw [List.flatMap_cons] at h
    rcases spelled_quiet_or_stays c with ⟨hquiet, -⟩ | heq
    · rw [(quiet_spec hquiet _).1] at h
      cases h
    · rw [heq, List.singleton_append, opens, Bool.and_eq_true] at h
      rw [opens, Bool.and_eq_true]
      exact ⟨h.1, closes_spelled h.2⟩

theorem shielded_spelled (h : Shielded slashes cs) :
    Shielded slashes (cs.flatMap (Icon.spelled Icon.spellings)) := by
  induction cs generalizing slashes with
  | nil => exact h
  | cons c rest ih =>
    rw [List.flatMap_cons]
    have hrest := ih h.2
    rcases spelled_quiet_or_stays c with ⟨hquiet, -, hslash⟩ | heq
    · rw [if_neg hslash] at hrest
      exact (quiet_spec hquiet _).2.2 _ hrest
    · rw [heq]
      exact ⟨fun hopen hopens => h.1 hopen (opens_spelled hopens), hrest⟩

theorem shielded_sanitize (encoding : String) {text : String} (h : Shielded slashes text.toList) :
    Shielded slashes (Console.sanitize encoding text).toList := by
  cases hutf8 : Console.isUtf8 encoding with
  | true => rwa [Console.sanitize, if_pos hutf8]
  | false =>
    rw [Console.toList_sanitize hutf8]
    exact shielded_spelled h

end

-- opened, it would have the escaped text computed; from here on the lemmas are enough
attribute [irreducible] Shielded

/-! Printing behind a lead -/

/-- The lead of a complaint is closed before what it leads to. -/
theorem pieces_complaint (fuel : Nat) (cs : List Char) :
    pieces [] 0 (fuel + 9) ("[bold red]Error:[/bold red] ".toList ++ cs) =
      .tag "bold red".toList :: .plain "Error:".toList :: .tag "/bold red".toList ::
        pieces [' '] 0 fuel cs := by
  rfl

theorem plainText?_complaint (pieces : List Piece) :
    plainText? [] (.tag "bold red".toList :: .plain "Error:".toList :: .tag "/bold red".toList ::
      pieces) = (plainText? [] pieces).map ("Error:".toList ++ ·) := by
  rfl

/-- Whatever shielded text comes after the lead of a complaint, the whole can be printed. -/
theorem render?_complaint {text : String} {cs : List Char}
    (htext : text.toList = "[bold red]Error:[/bold red] ".toList ++ cs) (hcs : Shielded 0 cs) :
    (render? text).isSome := by
  have hlead : "[bold red]Error:[/bold red] ".toList.length = 28 := by decide
  obtain ⟨fuel, hfuel⟩ : ∃ fuel, text.length + 1 = fuel + 9 := by
    refine ⟨text.length - 8, ?_⟩
    rw [← String.length_toList, htext, List.length_append, hlead]
    omega
  rw [render?, hfuel, htext, pieces_complaint, plainText?_complaint, Option.isSome_map]
  exact plainText?_isSome (pieces_of_shielded hcs)

end Markup

namespace Console

theorem toList_sanitize_complaint (encoding text : String) :
    (sanitize encoding ("[bold red]Error:[/bold red] " ++ text)).toList =
      "[bold red]Error:[/bold red] ".toList ++ (sanitize encoding text).toList := by
  cases hutf8 : isUtf8 encoding with
  | true => rw [sanitize, sanitize, if_pos hutf8, if_pos hutf8, String.toList_append]
  | false =>
    have hascii : ("[bold red]Error:[/bold red] ".toList.all fun c => c.toNat < 128) = true := by
      decide
    have hlead : sanitize encoding "[bold red]Error:[/bold red] " = "[bold red]Error:[/bold red] " :=
      sanitize_of_no_icon hutf8 fun c hc =>
        Icon.not_isIcon_of_ascii (of_decide_eq_true (List.all_eq_true.mp hascii c hc))
    rw [sanitize_append hutf8, hlead, String.toList_append]

/-- The stream for errors takes all that can be rendered. -/
theorem Terminal.printError_of_render? {terminal : Terminal} {text : String}
    (h : (Markup.render? (sanitize terminal.encoding text)).isSome) :
    ∃ err, terminal.printError text = .ok err := by
  obtain ⟨cs, hcs⟩ := Option.isSome_iff_exists.mp h
  have hobject : terminal.objectText true (.str text) = .ok cs := by
    simp only [objectText, if_true, hcs]
  have hcompose : terminal.compose true [.str text] =
      .ok (String.join ((joinObjects [(false, cs)]).map terminal.text)) := by
    simp only [compose, List.mapM_cons, List.mapM_nil, hobject, bind, Except.bind]
    rfl
  exact ⟨_, by rw [printError, hcompose]; rfl⟩

/-- A complaint is written whatever it is about and whatever the encoding. -/
theorem Terminal.printError_complaint (terminal : Terminal) (message : String) :
    ∃ err, terminal.printError ("[bold red]Error:[/bold red] " ++ Markup.escape message) = .ok err := by
  have hshielded := Markup.shielded_sanitize terminal.encoding (Markup.shielded_escape message)
  have htext := toList_sanitize_complaint terminal.encoding (Markup.escape message)
  exact printError_of_render? (Markup.render?_complaint htext hshielded)

end Console
end StaleQuery
