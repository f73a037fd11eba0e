import Mathlib
import HellRs.StrictToml.Arrays

/-! # Arrays of strings that are read back

The pass over the lines keeps the text of an array up to its blanks, over any number of lines. The elements are then split off
at every comma, within strings too, so the strings come back exactly where none of them has a comma.
-/

namespace HellRs.StrictToml

/-- A text without blanks at its ends is written in these pieces. -/
def Written (pieces : List Piece) (text : Text) : Prop :=
  ∃ all, text = spell all ∧ significant all = pieces ∧ all.head? = pieces.head? ∧ all.getLast? = pieces.getLast?

section Written

theorem written_trim (pieces : List Piece) : Written (significant pieces) (trim isWhitespace (spell pieces)) :=
  ⟨trim Piece.isBlank pieces, trim_spell pieces, significant_trim pieces, head_trim pieces, getLast_trim pieces⟩

variable {pieces first second : List Piece} {text next : Text} {strings : List Plain} {trailing : Bool}

theorem Written.nil_iff (written : Written pieces text) : text = [] ↔ pieces = [] := by
  obtain ⟨all, rfl, significants, front, -⟩ := written
  constructor
  · intro empty
    by_cases absent : all = []
    · rw [← significants, absent]
      rfl
    · exact absurd empty (spell_ne_nil absent)
  · rintro rfl
    rw [List.head?_eq_none_iff.mp front]
    rfl

/-- Lines of an array are joined with a blank. -/
theorem Written.append (written : Written first text) (continued : Written second next) (nonempty : first ≠ [])
    (more : second ≠ []) : Written (first ++ second) (text ++ [' '] ++ next) := by
  obtain ⟨all, rfl, significants, front, -⟩ := written
  obtain ⟨others, rfl, restSignificants, -, back⟩ := continued
  refine ⟨all ++ .blank ⟨' ', rfl⟩ :: others, by simp [Piece.chars], ?_, ?_, ?_⟩
  · rw [significant_append, significants, ← restSignificants]
    rfl
  · rw [List.head?_append, List.head?_append, front]
    cases first with
    | nil => exact absurd rfl nonempty
    | cons piece first => rfl
  · rw [List.getLast?_append, List.getLast?_append, List.getLast?_cons, back]
    rw [List.getLast?_eq_some_getLast more]
    rfl

theorem Written.balanced (written : Written first text) (split : first ++ second = arrayPieces strings trailing)
    (nonempty : first ≠ []) : balancedArray text = .ok (second = []) := by
  obtain ⟨all, rfl, significants, -, -⟩ := written
  rw [balancedArray, balancedArrayFrom_spell, ← nest_significant, significants, nest_array split nonempty]
  by_cases closed : second = []
  · simp [closed]
  · simp [closed]

theorem Written.head_eq (written : Written pieces text) : text.head? = pieces.head?.bind fun piece => piece.chars.head? := by
  obtain ⟨all, rfl, -, front, -⟩ := written
  rw [← front]
  cases all with
  | nil => rfl
  | cons piece all =>
    rw [spell_cons, List.head?_append_of_ne_nil _ piece.ends.2.2]
    rfl

theorem head_bracket (piece : Piece) : piece.chars.head? = some '[' ↔ piece = .left := by
  cases piece with
  | blank character =>
    refine iff_of_false (fun here => ?_) nofun
    have white := character.2
    rw [Option.some.inj here] at white
    exact absurd white (by decide)
  | left | right | comma => decide
  | text string => exact iff_of_false (fun here => absurd (Option.some.inj here) (by decide)) nofun

end Written

section Keeping

variable {values after : Values} {key value : Text}

theorem insertUnique_ok (inserted : insertUnique values key value = .ok after) :
    after.lookup key = some value ∧ ∀ other found, values.lookup other = some found → after.lookup other = some found := by
  rw [insertUnique] at inserted
  split at inserted
  · cases inserted
  · rename_i absent
    cases inserted
    rw [Bool.not_eq_true, Option.isSome_eq_false_iff, Option.isNone_iff_eq_none] at absent
    refine ⟨by simp [List.lookup_append, absent], fun other found here => ?_⟩
    rw [List.lookup_append, here]
    rfl

theorem bind_ok {α β : Type} {first : Except TomlError α} {next : α → Except TomlError β} {result : β}
    (succeeded : first >>= next = .ok result) : ∃ value, first = .ok value ∧ next value = .ok result := by
  cases first with
  | error => cases succeeded
  | ok value => exact ⟨value, rfl, succeeded⟩

def Extends (values after : Values) : Prop := after = values ∨ ∃ key value, insertUnique values key value = .ok after

theorem extends_insert {reader next : Reader} {change : Values → Reader} (same : ∀ values, (change values).values = values)
    (ok : (do return change (← insertUnique reader.values key value)) = .ok next) : Extends reader.values next.values := by
  obtain ⟨after, inserted, last⟩ := bind_ok ok
  cases last
  rw [same]
  exact .inr ⟨key, value, inserted⟩

theorem continueArray_extends {reader next : Reader} {lineNumber : ℕ} {line : Text}
    (read : continueArray reader lineNumber key value line = .ok next) : Extends reader.values next.values := by
  rw [continueArray] at read
  split at read
  · cases read
  · obtain ⟨balanced, -, read⟩ := bind_ok read
    split at read
    · exact extends_insert (fun _ => rfl) read
    · cases read
      exact .inl rfl

theorem assign_extends {reader next : Reader} {lineNumber : ℕ} {line : Text}
    (read : assign reader lineNumber line = .ok next) : Extends reader.values next.values := by
  rw [assign] at read
  split at read
  · cases read
  · dsimp only at read
    split at read
    · cases read
    · split at read
      · obtain ⟨balanced, -, read⟩ := bind_ok read
        split at read
        · exact extends_insert (fun _ => rfl) read
        · cases read
          exact .inl rfl
      · exact extends_insert (fun _ => rfl) read

theorem readLine_extends {reader next : Reader} {original : Text × ℕ} (read : readLine reader original = .ok next) :
    Extends reader.values next.values := by
  obtain ⟨line, -, read⟩ := bind_ok read
  split at read
  · cases read
    exact .inl rfl
  · rw [readContent] at read
    split at read
    · exact continueArray_extends read
    · split at read
      · split at read
        · cases read
        · cases read
          exact .inl rfl
      · exact assign_extends read

/-- A value that was read stays. -/
theorem readLine_keeps {reader next : Reader} {original : Text × ℕ} (read : readLine reader original = .ok next)
    (found : reader.values.lookup key = some value) : next.values.lookup key = some value := by
  rcases readLine_extends read with same | ⟨other, item, inserted⟩
  · rw [same]
    exact found
  · exact (insertUnique_ok inserted).2 key value found

theorem readLines_keeps {reader next : Reader} {originals : List (Text × ℕ)} (read : readLines reader originals = .ok next)
    (found : reader.values.lookup key = some value) : next.values.lookup key = some value := by
  induction originals generalizing reader with
  | nil =>
    cases read
    exact found
  | cons original originals ih =>
    rw [readLines, List.foldlM_cons] at read
    obtain ⟨between, first, rest⟩ := bind_ok read
    exact ih rest (readLine_keeps first found)

end Keeping

section Lines

variable {first second third : List Piece} {key value line : Text} {strings : List Plain} {trailing : Bool} {reader next : Reader}

/-- No line within an array begins with a bracket that opens. -/
theorem head_within (split : first ++ (second ++ third) = arrayPieces strings trailing) (nonempty : first ≠ [])
    (continued : Written second line) : line.head? ≠ some '[' := by
  intro bracket
  rw [continued.head_eq] at bracket
  cases second with
  | nil => cases bracket
  | cons piece second =>
    have same : piece = .left := (head_bracket piece).mp bracket
    cases first with
    | nil => exact absurd rfl nonempty
    | cons opening first =>
      rw [List.cons_append] at split
      obtain ⟨-, inner⟩ := List.cons.inj split
      have inside : Piece.left ∈ bodyPieces strings trailing ++ [.right] := by
        rw [← inner, same]
        simp
      exact (List.mem_append.mp inside).elim (body_flat strings trailing).1 nofun

/-- A line of an array is added to the text of it, which is kept as a value once it is complete. -/
theorem continueArray_written {lineNumber : ℕ} (split : first ++ (second ++ third) = arrayPieces strings trailing)
    (nonempty : first ≠ []) (more : second ≠ []) (written : Written first value) (continued : Written second line)
    (read : continueArray reader lineNumber key value line = .ok next) :
    ∃ text, Written (first ++ second) text ∧
      if third = [] then next.values.lookup key = some text else next = { reader with pending := some (key, text) } := by
  have joined := written.append continued nonempty more
  rw [← List.append_assoc] at split
  rw [continueArray, if_neg (head_within (by rwa [List.append_assoc] at split) nonempty continued)] at read
  rw [if_neg (written.nil_iff.not.mpr nonempty)] at read
  obtain ⟨balanced, complete, read⟩ := bind_ok read
  rw [joined.balanced split (by simp [nonempty])] at complete
  cases complete
  refine ⟨_, joined, ?_⟩
  by_cases closed : third = []
  · rw [if_pos (by simpa using closed)] at read
    obtain ⟨values, inserted, last⟩ := bind_ok read
    cases last
    rw [if_pos closed]
    exact (insertUnique_ok inserted).1
  · rw [if_neg (by simpa using closed)] at read
    cases read
    rw [if_neg closed]

/-- The lines behind the first of an array complete it. -/
theorem readLines_array {lines : List ArrayLine} {after : List Text} {position : ℕ} (written : Written first value)
    (nonempty : first ≠ []) (split : first ++ significant (lines.flatMap ArrayLine.pieces) = arrayPieces strings trailing)
    (unfinished : significant (lines.flatMap ArrayLine.pieces) ≠ []) (within : reader.pending = some (key, value))
    (read : readLines reader ((lines.map ArrayLine.chars ++ after).zipIdx position) = .ok next) :
    ∃ text, Written (arrayPieces strings trailing) text ∧ next.values.lookup key = some text := by
  induction lines generalizing first value reader position with
  | nil => exact absurd rfl unfinished
  | cons line lines ih =>
    rw [List.map_cons, List.cons_append, List.zipIdx_cons] at read
    obtain ⟨between, now, rest⟩ := bind_ok read
    rw [List.flatMap_cons, significant_append] at split unfinished
    rw [readLine, stripComment, stripCommentFrom_line] at now
    have trimmed := written_trim line.pieces
    change (if trim isWhitespace (spell line.pieces) = [] then _ else _) = _ at now
    by_cases empty : significant line.pieces = []
    · rw [if_pos (trimmed.nil_iff.mpr empty)] at now
      cases now
      rw [empty, List.nil_append] at split unfinished
      exact ih written nonempty split unfinished within rest
    · rw [if_neg (trimmed.nil_iff.not.mpr empty), readContent, within] at now
      obtain ⟨text, joined, outcome⟩ := continueArray_written split nonempty empty written trimmed now
      by_cases closed : significant (lines.flatMap ArrayLine.pieces) = []
      · rw [if_pos closed] at outcome
        rw [closed, List.append_nil] at split
        exact ⟨text, split ▸ joined, readLines_keeps rest outcome⟩
      · rw [if_neg closed] at outcome
        subst outcome
        exact ih joined (by simp [nonempty]) (by rwa [List.append_assoc]) closed rfl rest

theorem keyByte_ne {character : Char} (ok : isKeyByte character = true) : isWhitespace character = false ∧ character ≠ '"' ∧
    character ≠ '#' ∧ character ≠ '=' ∧ character ≠ '[' := by
  refine ⟨?_, ?_, ?_, ?_, ?_⟩
  · rw [Bool.eq_false_iff]
    intro white
    have codes : ('A'.toNat = 65 ∧ 'Z'.toNat = 90) ∧ ('a'.toNat = 97 ∧ 'z'.toNat = 122) ∧ ('0'.toNat = 48 ∧ '9'.toNat = 57) ∧
        '_'.toNat = 95 ∧ '-'.toNat = 45 ∧ '.'.toNat = 46 := by decide
    simp only [isKeyByte, Char.isAlphanum, Char.isAlpha, Char.isUpper, Char.isLower, Char.isDigit, Bool.or_eq_true, Bool.and_eq_true,
      decide_eq_true_eq, ← Char.toNat_inj, UInt32.le_iff_toNat_le] at ok
    simp only [isWhitespace, Bool.or_eq_true, Bool.and_eq_true, decide_eq_true_eq] at white
    simp only [Char.toNat] at ok white codes
    omega
  all_goals rintro rfl; exact absurd ok (by decide)

theorem blank_ne {character : Char} (white : isWhitespace character = true) : character ≠ '"' ∧ character ≠ '#' ∧ character ≠ '=' := by
  refine ⟨?_, ?_, ?_⟩ <;> rintro rfl <;> exact absurd white (by decide)

namespace ArrayText

variable (array : ArrayText)

theorem first_opens : ∃ pieces, significant array.first.pieces = .left :: pieces := by
  have split := array.pieces
  rw [significant_append] at split
  cases front : significant array.first.pieces with
  | nil =>
    have member : Piece.left ∈ significant array.first.pieces := List.mem_filter.mpr ⟨array.opened, rfl⟩
    rw [front] at member
    cases member
  | cons piece pieces =>
    rw [front, List.cons_append] at split
    exact ⟨pieces, by rw [(List.cons.inj split).1]⟩

theorem stripComment_first : stripComment (array.indent ++ (array.key ++ (array.gap ++ '=' :: array.first.chars))) =
    .ok (array.indent ++ (array.key ++ (array.gap ++ '=' :: spell array.first.pieces))) := by
  have bare : ∀ character ∈ array.indent ++ (array.key ++ (array.gap ++ ['='])), character ≠ '"' ∧ character ≠ '#' := by
    intro character member
    simp only [List.mem_append, List.mem_singleton] at member
    rcases member with here | here | here | rfl
    · have ne := blank_ne (array.blank character (List.mem_append_left _ here))
      exact ⟨ne.1, ne.2.1⟩
    · have ne := keyByte_ne (List.all_eq_true.mp array.named.2 character here)
      exact ⟨ne.2.1, ne.2.2.1⟩
    · have ne := blank_ne (array.blank character (List.mem_append_right _ here))
      exact ⟨ne.1, ne.2.1⟩
    · decide
  have passed := stripCommentFrom_bare bare array.first.chars
  rw [stripCommentFrom_line] at passed
  simpa [stripComment] using passed

/-- What is left of the first line has the key at its begin and the last piece that is not blank at its end. -/
theorem trim_first : ∃ pieces, significant pieces = significant array.first.pieces ∧
    trim isWhitespace (array.indent ++ (array.key ++ (array.gap ++ '=' :: spell array.first.pieces))) =
      array.key ++ (array.gap ++ '=' :: spell pieces) := by
  obtain ⟨before, after, split, beforeBlank, afterBlank⟩ := trim_split Piece.isBlank array.first.pieces
  have last := (trim_ends Piece.isBlank array.first.pieces).2
  have same := significant_trim array.first.pieces
  obtain ⟨pieces, opens⟩ := array.first_opens
  generalize trim Piece.isBlank array.first.pieces = body at split last same
  refine ⟨before ++ body, ?_, ?_⟩
  · rw [significant_append, same, significant, List.filter_eq_nil_iff.mpr fun piece member => by simp [beforeBlank piece member]]
    rfl
  · cases body using List.reverseRecOn with
    | nil =>
      rw [opens] at same
      cases same
    | append_singleton body piece =>
      have nonempty : array.key ++ (array.gap ++ '=' :: spell (before ++ (body ++ [piece]))) ≠ [] := by simp
      have whole : array.indent ++ (array.key ++ (array.gap ++ '=' :: spell array.first.pieces)) = array.indent ++
          ((array.key ++ (array.gap ++ '=' :: spell (before ++ (body ++ [piece])))) ++ spell after) := by
        rw [split]
        simp
      rw [whole]
      refine trim_eq (fun character member => array.blank character (List.mem_append_left _ member)) (spell_blank afterBlank)
        nonempty ?_ ?_
      · rw [List.head_append_of_ne_nil array.named.1]
        exact (keyByte_ne (List.all_eq_true.mp array.named.2 _ (List.head_mem _))).1
      · have ends : spell ((before ++ body) ++ [piece]) ≠ [] := spell_ne_nil (by simp)
        have split : array.key ++ (array.gap ++ '=' :: spell (before ++ (body ++ [piece]))) =
            (array.key ++ (array.gap ++ ['='])) ++ spell ((before ++ body) ++ [piece]) := by simp
        rw [List.getLast_congr nonempty (List.append_ne_nil_of_right_ne_nil _ ends) split,
          List.getLast_append_of_ne_nil _ ends]
        exact getLast_spell (last piece List.getLast?_concat) ends

theorem stripEnds_first (text : Text) : stripEnds '[' ']' (array.key ++ text) = none := by
  have some_ := array.named.1
  cases named : array.key with
  | nil => exact absurd named some_
  | cons character key =>
    have kept := array.named.2
    rw [named, List.all_cons, Bool.and_eq_true] at kept
    exact if_neg (keyByte_ne kept.1).2.2.2.2

theorem trim_key : trim isWhitespace (array.key ++ array.gap) = array.key := by
  have notBlank {character : Char} (member : character ∈ array.key) : isWhitespace character = false :=
    (keyByte_ne (List.all_eq_true.mp array.named.2 character member)).1
  have noneBefore : ∀ character ∈ ([] : Text), isWhitespace character = true := fun _ never => absurd never List.not_mem_nil
  exact trim_eq noneBefore (fun character member => array.blank character (List.mem_append_right _ member))
    array.named.1 (notBlank (List.head_mem _)) (notBlank (List.getLast_mem _))

/-- The value of the first line is kept, if the array ends there, or waits for further lines. -/
theorem readLine_first {lineNumber : ℕ} (outside : reader.pending = none)
    (read : readLine reader (array.indent ++ (array.key ++ (array.gap ++ '=' :: array.first.chars)), lineNumber) = .ok next) :
    ∃ text, Written (significant array.first.pieces) text ∧
      if significant (array.rest.flatMap ArrayLine.pieces) = [] then
        next.values.lookup (qualify reader.section_ array.key) = some text
      else next = { reader with pending := some (qualify reader.section_ array.key, text) } := by
  obtain ⟨pieces, same, trimmed⟩ := array.trim_first
  obtain ⟨opening, opens⟩ := array.first_opens
  have written : Written (significant array.first.pieces) (trim isWhitespace (spell pieces)) := same ▸ written_trim pieces
  have split := array.pieces
  rw [significant_append] at split
  have bracket : (trim isWhitespace (spell pieces)).head? = some '[' := by
    rw [written.head_eq, opens]
    rfl
  have separator : '=' ∉ array.key ++ array.gap := by
    intro member
    rcases List.mem_append.mp member with here | here
    · exact (keyByte_ne (List.all_eq_true.mp array.named.2 _ here)).2.2.2.1 rfl
    · exact (blank_ne (array.blank _ (List.mem_append_right _ here))).2.2 rfl
  rw [readLine, array.stripComment_first] at read
  change (if trim isWhitespace _ = [] then _ else _) = _ at read
  rw [trimmed, if_neg (by simp), readContent, outside] at read
  simp only [array.stripEnds_first] at read
  rw [assign, ← List.append_assoc, splitOnce_eq_some_iff.mpr ⟨rfl, separator⟩] at read
  simp only [array.trim_key] at read
  rw [if_neg (by simp [array.named.1, array.named.2]), if_pos bracket] at read
  obtain ⟨balanced, complete, read⟩ := bind_ok read
  rw [written.balanced split (by simp [opens])] at complete
  cases complete
  refine ⟨_, written, ?_⟩
  by_cases closed : significant (array.rest.flatMap ArrayLine.pieces) = []
  · rw [if_pos (by simpa using closed)] at read
    obtain ⟨values, inserted, last⟩ := bind_ok read
    cases last
    rw [if_pos closed]
    exact (insertUnique_ok inserted).1
  · rw [if_neg (by simpa using closed)] at read
    cases read
    rw [if_neg closed]

/-- An array in an accepted document is kept as it is written, up to its blanks. -/
theorem written_of_accepted {document qualified : Text} {values : Values} (accepted : assignments document = .ok values)
    (stands : array.StandsIn document qualified) :
    ∃ text, Written (arrayPieces array.strings array.trailing) text ∧ values.lookup qualified = some text := by
  obtain ⟨before, after, reader, split, started, outside, rfl⟩ := stands
  rw [assignments] at accepted
  split at accepted
  · cases accepted
  · obtain ⟨last, read, finished⟩ := bind_ok accepted
    rw [split, List.zipIdx_append, readLines, List.foldlM_append] at read
    obtain ⟨reached, sameStart, read⟩ := bind_ok read
    rw [← readLines, started] at sameStart
    cases sameStart
    have kept : last.values = values := by
      rw [finish] at finished
      split at finished
      · cases finished
      · exact Except.ok.inj finished
    rw [ArrayText.lines, List.cons_append, List.zipIdx_cons] at read
    obtain ⟨between, first, rest⟩ := bind_ok read
    obtain ⟨text, written, outcome⟩ := array.readLine_first outside first
    have pieces := array.pieces
    rw [significant_append] at pieces
    rw [← kept]
    by_cases closed : significant (array.rest.flatMap ArrayLine.pieces) = []
    · rw [if_pos closed] at outcome
      rw [closed, List.append_nil] at pieces
      exact ⟨text, pieces ▸ written, readLines_keeps rest outcome⟩
    · rw [if_neg closed] at outcome
      subst outcome
      obtain ⟨opening, opens⟩ := array.first_opens
      exact readLines_array written (by simp [opens]) pieces closed rfl rest

end ArrayText

end Lines

section Elements

variable {pieces : List Piece} {text : Text} {strings : List Plain} {trailing : Bool}

theorem Written.getLast_eq (written : Written pieces text) :
    text.getLast? = pieces.getLast?.bind fun piece => piece.chars.getLast? := by
  obtain ⟨all, rfl, -, -, back⟩ := written
  rw [← back]
  cases all using List.reverseRecOn with
  | nil => rfl
  | append_singleton all piece =>
    rw [spell_append, spell_cons, spell_nil, List.append_nil, List.getLast?_append_of_ne_nil _ piece.ends.2.2,
      List.getLast?_concat]
    rfl

/-- What is between the brackets is written in the pieces between the brackets. -/
theorem Written.stripEnds_eq (written : Written (.left :: (pieces ++ [.right])) text) :
    ∃ inner, stripEnds '[' ']' text = some (spell inner) ∧ significant inner = pieces := by
  obtain ⟨all, rfl, significants, front, back⟩ := written
  cases all with
  | nil => cases significants
  | cons piece all =>
    cases front
    have inner : significant all = pieces ++ [.right] := (List.cons.inj significants).2
    cases all using List.reverseRecOn with
    | nil => simp [significant] at inner
    | append_singleton all piece =>
      have closing : piece = .right := by
        rw [← List.cons_append, List.getLast?_concat, ← List.cons_append, List.getLast?_concat] at back
        exact Option.some.inj back
      subst closing
      refine ⟨all, ?_, ?_⟩
      · simp [Piece.chars, stripEnds]
      · rw [significant_append] at inner
        exact (List.append_inj' inner rfl).1

/-- A comma behind the last string is cut off. -/
theorem Written.stripComma (written : Written (pieces ++ [.comma]) text) :
    ∃ rest, text.getLast? = some ',' ∧ text.dropLast = spell rest ∧ significant rest = pieces := by
  have last : text.getLast? = some ',' := by
    rw [written.getLast_eq, List.getLast?_concat]
    rfl
  obtain ⟨all, rfl, significants, -, back⟩ := written
  cases all using List.reverseRecOn with
  | nil => simp [significant] at significants
  | append_singleton all piece =>
    rw [List.getLast?_concat, List.getLast?_concat] at back
    cases back
    rw [significant_append] at significants
    exact ⟨all, last, by simp [Piece.chars], (List.append_inj' significants rfl).1⟩

theorem getLast_texts : (strings : List Plain) → ((strings.map Piece.text).intersperse .comma).getLast? ≠ some .comma
  | [] => nofun
  | [_] => nofun
  | string :: second :: strings => by
    have last := getLast_texts (second :: strings)
    rw [List.map_cons, List.map_cons, List.intersperse_cons_cons, List.getLast?_cons_cons, List.getLast?_cons]
    rw [List.map_cons] at last
    cases here : (Piece.text second :: strings.map Piece.text).intersperse Piece.comma |>.getLast? with
    | none => cases strings <;> simp at here
    | some piece =>
      rw [here] at last
      simpa using last

theorem getLast_comma (piece : Piece) : piece.chars.getLast? = some ',' ↔ piece = .comma := by
  cases piece with
  | blank character =>
    refine iff_of_false (fun here => ?_) nofun
    have comma : character.1 = ',' := Option.some.inj here
    have white := character.2
    rw [comma] at white
    exact absurd white (by decide)
  | left | right | comma => decide
  | text string =>
    refine iff_of_false (fun here => ?_) nofun
    rw [Piece.chars, List.getLast?_concat] at here
    exact absurd (Option.some.inj here) (by decide)

/-- The texts that are split at the commas, up to their blanks. -/
theorem stringArray_eq (written : Written (arrayPieces strings trailing) text) :
    ∃ items, Written ((strings.map Piece.text).intersperse .comma) items ∧
      stringArray text = if items = [] then .ok [] else (items.splitOn ',').mapM fun item => string (trim isWhitespace item) := by
  obtain ⟨inner, between, significants⟩ := written.stripEnds_eq
  have trimmed : Written (bodyPieces strings trailing) (trim isWhitespace (spell inner)) := significants ▸ written_trim inner
  rw [stringArray, between]
  dsimp only
  by_cases follows : trailing ∧ strings ≠ []
  · rw [bodyPieces, if_pos follows] at trimmed
    obtain ⟨rest, last, cut, same⟩ := trimmed.stripComma
    exact ⟨trim isWhitespace (spell rest), same ▸ written_trim rest, by rw [if_pos last, cut]⟩
  · rw [bodyPieces, if_neg follows, List.append_nil] at trimmed
    have noComma : (trim isWhitespace (spell inner)).getLast? ≠ some ',' := by
      rw [trimmed.getLast_eq]
      intro here
      obtain ⟨piece, last, comma⟩ := Option.bind_eq_some_iff.mp here
      rw [(getLast_comma piece).mp comma] at last
      exact getLast_texts strings last
    obtain ⟨all, same, items, -, -⟩ := trimmed
    refine ⟨trim isWhitespace (trim isWhitespace (spell inner)), ?_, by rw [if_neg noComma]⟩
    rw [same, ← items]
    exact written_trim all

/-- The commas that the texts have between them and within them. -/
theorem count_commas (all : List Piece) :
    (spell all).count ',' = ((significant all).map fun piece => piece.chars.count ',').sum := by
  induction all with
  | nil => rfl
  | cons piece all ih =>
    rw [spell_cons, List.count_append, ih]
    cases piece with
    | blank character =>
      have other : [character.1].count ',' = 0 := List.count_eq_zero.mpr fun here => by
        have white := character.2
        rw [← List.mem_singleton.mp here] at white
        exact absurd white (by decide)
      simpa [significant, Piece.isBlank, Piece.chars] using other
    | left | right | comma | text => simp [significant, Piece.isBlank]

theorem count_texts : (strings : List Plain) → strings ≠ [] →
    (((strings.map Piece.text).intersperse .comma).map fun piece => piece.chars.count ',').sum + 1 =
      strings.length + (strings.map fun string => string.1.count ',').sum
  | [], nonempty => absurd rfl nonempty
  | [string], _ => by simp [Piece.chars, Nat.add_comm]
  | string :: second :: strings, _ => by
    have rest := count_texts (second :: strings) (List.cons_ne_nil _ _)
    simp only [List.map_cons, List.intersperse_cons_cons, List.sum_cons, List.length_cons, Piece.chars] at rest ⊢
    simp only [List.cons_append, List.count_cons, List.count_append, List.count_nil] at rest ⊢
    simp at rest ⊢
    omega

theorem length_splitOn (separator : Char) (items : Text) : (items.splitOn separator).length = items.count separator + 1 := by
  induction items with
  | nil => rfl
  | cons character items ih =>
    rw [List.splitOn_cons_eq_if_modifyHead, List.count_cons]
    split
    · rw [List.length_cons, ih]
    · rw [List.length_modifyHead, ih, Nat.add_zero]

theorem length_of_mapM {α β : Type} {each : α → Except TomlError β} {items : List α} {results : List β}
    (mapped : items.mapM each = .ok results) : results.length = items.length := by
  induction items generalizing results with
  | nil =>
    cases mapped
    rfl
  | cons item items ih =>
    rw [List.mapM_cons] at mapped
    obtain ⟨result, -, mapped⟩ := bind_ok mapped
    obtain ⟨others, rest, mapped⟩ := bind_ok mapped
    cases mapped
    rw [List.length_cons, List.length_cons, ih rest]

/-- A string between blanks is read. -/
theorem string_trim {all : List Piece} {plain : Plain} (only : significant all = [.text plain]) :
    string (trim isWhitespace (spell all)) = .ok plain.1 := by
  obtain ⟨item, same, items, front, back⟩ := only ▸ written_trim all
  have whole : item = [.text plain] := by
    cases item with
    | nil => cases front
    | cons piece item =>
      cases front
      cases item using List.reverseRecOn with
      | nil => rfl
      | append_singleton item last =>
        rw [← List.cons_append, List.getLast?_concat] at back
        cases back
        simp [significant, Piece.isBlank] at items
  rw [same, whole]
  have ends : stripEnds '"' '"' ((Piece.text plain).chars) = some plain.1 := by simp [stripEnds, Piece.chars]
  rw [spell_cons, spell_nil, List.append_nil, string, ends]
  dsimp only
  rw [if_neg]
  intro some_
  obtain ⟨character, member, bad⟩ := List.any_eq_true.mp some_
  obtain ⟨quote, escape, feed, carriage⟩ := plain.2 character member
  simp [quote, escape, feed, carriage] at bad

theorem no_comma {all : List Piece} {plain : Plain} (only : significant all = [.text plain]) (free : ',' ∉ plain.1) :
    ',' ∉ spell all := by
  have none : plain.1.count ',' = 0 := List.count_eq_zero.mpr free
  rw [← List.count_eq_zero, count_commas, only]
  simpa [Piece.chars] using none

/-- Strings without commas are split between them. -/
theorem mapM_texts : (strings : List Plain) → (all : List Piece) →
    significant all = (strings.map Piece.text).intersperse .comma → strings ≠ [] → (∀ string ∈ strings, ',' ∉ string.1) →
    ((spell all).splitOn ',').mapM (fun item => string (trim isWhitespace item)) = .ok (strings.map (·.1))
  | [], _, _, nonempty, _ => absurd rfl nonempty
  | [plain], all, only, _, free => by
    rw [List.splitOn_eq_singleton (no_comma only (free plain List.mem_cons_self)), List.mapM_cons, string_trim only]
    rfl
  | plain :: second :: strings, all, items, _, free => by
    rw [List.map_cons, List.map_cons, List.intersperse_cons_cons] at items
    obtain ⟨before, behind, rfl, only, rest⟩ := List.filter_eq_append_iff.mp
      (items.trans (List.singleton_append (x := Piece.text plain)).symm)
    obtain ⟨blanks, after, rfl, blank, -, others⟩ := List.filter_eq_cons_iff.mp rest
    have between : significant (before ++ blanks) = [.text plain] := by
      rw [significant_append, significant, only, significant, List.filter_eq_nil_iff.mpr blank]
      rfl
    have whole : spell (before ++ (blanks ++ Piece.comma :: after)) = spell (before ++ blanks) ++ ',' :: spell after := by
      simp [Piece.chars]
    have later := mapM_texts (second :: strings) after others (List.cons_ne_nil _ _) fun string member =>
      free string (List.mem_cons_of_mem _ member)
    rw [whole, List.splitOn_append_cons_self_of_not_mem (no_comma between (free plain List.mem_cons_self)), List.mapM_cons,
      string_trim between, later]
    rfl

/-- The strings of an array come back if and only if none of them has a comma. -/
theorem stringArray_iff (written : Written (arrayPieces strings trailing) text) :
    stringArray text = .ok (strings.map (·.1)) ↔ ∀ string ∈ strings, ',' ∉ string.1 := by
  obtain ⟨items, inner, same⟩ := stringArray_eq written
  rw [same]
  by_cases none : strings = []
  · subst none
    simp [inner.nil_iff.mpr rfl]
  · have nonempty : (strings.map Piece.text).intersperse Piece.comma ≠ [] := by
      match strings, none with
      | [_], _ => exact nofun
      | _ :: _ :: _, _ => exact nofun
    rw [if_neg (inner.nil_iff.not.mpr nonempty)]
    obtain ⟨all, rfl, significants, -, -⟩ := inner
    constructor
    · intro read plain member comma
      have equal := length_of_mapM read
      rw [length_splitOn, count_commas, significants, count_texts strings none, List.length_map] at equal
      have zero := List.sum_eq_zero_iff_forall_eq_nat.mp (by omega : (strings.map fun plain => plain.1.count ',').sum = 0) _
        (List.mem_map_of_mem member)
      exact List.count_eq_zero.mp zero comma
    · exact mapM_texts strings all significants none

end Elements

/-- In an accepted document, an array of strings is read back if and only if none of its strings has a comma. -/
theorem stringArray_exact {document qualified : Text} {values : Values} (array : ArrayText)
    (accepted : assignments document = .ok values) (stands : array.StandsIn document qualified) :
    ∃ value, values.lookup qualified = some value ∧
      (stringArray value = .ok (array.strings.map (·.1)) ↔ ∀ string ∈ array.strings, ',' ∉ string.1) := by
  obtain ⟨text, written, kept⟩ := array.written_of_accepted accepted stands
  exact ⟨text, kept, stringArray_iff written⟩

/-- Two strings over three lines, the first with both brackets and a number sign. -/
def brackets : ArrayText where
  indent := []
  key := "names".toList
  gap := [' ']
  first := ⟨[.blank ⟨' ', rfl⟩, .left, .blank ⟨' ', rfl⟩], some " two".toList⟩
  rest := [⟨[.text ⟨['[', 'a', ']', '#'], by simp⟩, .comma], none⟩, ⟨[.text ⟨['b'], by simp⟩, .comma, .right], none⟩]
  strings := [⟨['[', 'a', ']', '#'], by simp⟩, ⟨['b'], by simp⟩]
  trailing := true
  blank := List.forall_mem_singleton.mpr rfl
  named := by decide
  opened := by decide
  pieces := by decide

theorem stringArray_exact_brackets : ∃ value, [("names".toList, "[ \"[a]#\", \"b\",]".toList)].lookup "names".toList = some value ∧
    (stringArray value = .ok ["[a]#".toList, "b".toList] ↔ ∀ string ∈ brackets.strings, ',' ∉ string.1) :=
  @stringArray_exact "names = [ # two\n\"[a]#\",\n\"b\",]".toList "names".toList
    [("names".toList, "[ \"[a]#\", \"b\",]".toList)] brackets (by decide)
    ⟨[], [], ⟨[], [], none⟩, by decide, rfl, rfl, rfl⟩

/-- One string with a comma. -/
def comma : ArrayText where
  indent := []
  key := ['k']
  gap := []
  first := ⟨[.left, .text ⟨['a', ',', 'b'], by simp⟩, .right], none⟩
  rest := []
  strings := [⟨['a', ',', 'b'], by simp⟩]
  trailing := false
  blank := nofun
  named := by decide
  opened := by decide
  pieces := by decide

theorem stringArray_comma : ¬ ∀ (array : ArrayText) (document qualified : Text) (values : Values),
    assignments document = .ok values → array.StandsIn document qualified →
      ∃ value, values.lookup qualified = some value ∧ stringArray value = .ok (array.strings.map (·.1)) := by
  intro faithful
  obtain ⟨value, kept, read⟩ := faithful comma "k=[\"a,b\"]".toList ['k'] [(['k'], "[\"a,b\"]".toList)] (by decide)
    ⟨[], [], ⟨[], [], none⟩, by decide, rfl, rfl, rfl⟩
  cases kept
  revert read
  decide

end HellRs.StrictToml
