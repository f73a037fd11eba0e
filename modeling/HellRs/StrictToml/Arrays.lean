import HellRs.StrictToml.Reader

/-! # Arrays of strings, as they are written

An array is written in pieces: brackets, commas, strings in quotes and blanks, over one or several lines that may end with
comments. What the scanners do with the text follows from what they do with one piece.
-/

namespace HellRs.StrictToml

/-- A basic string without escapes, on one line. -/
abbrev Plain := { text : Text // ∀ character ∈ text, character ≠ '"' ∧ character ≠ '\\' ∧ character ≠ '\n' ∧ character ≠ '\r' }

abbrev Blank := { character : Char // isWhitespace character = true }

inductive Piece where
  | blank (character : Blank)
  | left
  | right
  | comma
  | text (string : Plain)
deriving DecidableEq

namespace Piece

def chars : Piece → Text
  | blank character => [character.1]
  | left => ['[']
  | right => [']']
  | comma => [',']
  | text string => '"' :: string.1 ++ ['"']

def isBlank : Piece → Bool
  | blank _ => true
  | left | right | comma | text _ => false

end Piece

def spell (pieces : List Piece) : Text := pieces.flatMap Piece.chars

def significant (pieces : List Piece) : List Piece := pieces.filter fun piece => !piece.isBlank

/-- What stands between the brackets. A comma may follow the last string. -/
def bodyPieces (strings : List Plain) (trailing : Bool) : List Piece :=
  (strings.map Piece.text).intersperse .comma ++ if trailing ∧ strings ≠ [] then [.comma] else []

/-- The pieces of an array that are not blank. -/
def arrayPieces (strings : List Plain) (trailing : Bool) : List Piece := .left :: (bodyPieces strings trailing ++ [.right])

/-- A line of an array. -/
structure ArrayLine where
  pieces : List Piece
  comment : Option Text

def ArrayLine.chars (line : ArrayLine) : Text := spell line.pieces ++ line.comment.elim [] ('#' :: ·)

/-- An assignment of an array that begins on the line of its key. -/
structure ArrayText where
  indent : Text
  key : Text
  gap : Text
  first : ArrayLine
  rest : List ArrayLine
  strings : List Plain
  trailing : Bool
  blank : ∀ character ∈ indent ++ gap, isWhitespace character = true
  named : key ≠ [] ∧ key.all isKeyByte = true
  opened : .left ∈ first.pieces
  pieces : significant (first.pieces ++ rest.flatMap ArrayLine.pieces) = arrayPieces strings trailing

def ArrayText.lines (array : ArrayText) : List Text :=
  (array.indent ++ (array.key ++ (array.gap ++ '=' :: array.first.chars))) :: array.rest.map ArrayLine.chars

/-- The array stands in the document, and not in another array. -/
def ArrayText.StandsIn (array : ArrayText) (document qualified : Text) : Prop :=
  ∃ before after reader, StrictToml.lines document = before ++ (array.lines ++ after) ∧
    readLines ⟨[], [], none⟩ before.zipIdx = .ok reader ∧ reader.pending = none ∧
      qualified = qualify reader.section_ array.key

section Spelling

@[simp] theorem spell_nil : spell [] = [] := rfl

@[simp] theorem spell_cons (piece : Piece) (pieces : List Piece) : spell (piece :: pieces) = piece.chars ++ spell pieces :=
  List.flatMap_cons

@[simp] theorem spell_append (first second : List Piece) : spell (first ++ second) = spell first ++ spell second :=
  List.flatMap_append

@[simp] theorem significant_append (first second : List Piece) :
    significant (first ++ second) = significant first ++ significant second := List.filter_append ..

theorem Piece.ends (piece : Piece) : piece.chars.head?.all isWhitespace = piece.isBlank ∧
    piece.chars.getLast?.all isWhitespace = piece.isBlank ∧ piece.chars ≠ [] := by
  cases piece with
  | blank character => simp [chars, isBlank, character.2]
  | left | right | comma => decide
  | text string =>
    refine ⟨rfl, ?_, nofun⟩
    rw [chars, List.getLast?_concat]
    rfl

theorem spell_ne_nil {pieces : List Piece} (nonempty : pieces ≠ []) : spell pieces ≠ [] := by
  cases pieces with
  | nil => exact absurd rfl nonempty
  | cons piece pieces =>
    rw [spell_cons]
    exact List.append_ne_nil_of_left_ne_nil piece.ends.2.2 _

theorem spell_blank {pieces : List Piece} (all : ∀ piece ∈ pieces, piece.isBlank = true) :
    ∀ character ∈ spell pieces, isWhitespace character = true := by
  intro character member
  obtain ⟨piece, inside, here⟩ := List.mem_flatMap.mp member
  cases piece with
  | blank white =>
    rw [List.mem_singleton.mp here]
    exact white.2
  | left | right | comma | text => cases all _ inside

theorem head_spell {piece : Piece} {pieces : List Piece} (notBlank : piece.isBlank = false) (nonempty : spell (piece :: pieces) ≠ []) :
    isWhitespace ((spell (piece :: pieces)).head nonempty) = false := by
  obtain ⟨first, -, some⟩ := piece.ends
  rw [notBlank] at first
  cases here : piece.chars with
  | nil => exact absurd here some
  | cons character rest =>
    rw [here] at first
    simpa [here] using first

theorem getLast_spell {piece : Piece} {pieces : List Piece} (notBlank : piece.isBlank = false)
    (nonempty : spell (pieces ++ [piece]) ≠ []) : isWhitespace ((spell (pieces ++ [piece])).getLast nonempty) = false := by
  obtain ⟨-, last, some⟩ := piece.ends
  rw [notBlank] at last
  have whole : spell (pieces ++ [piece]) = spell pieces ++ piece.chars := by simp
  rw [List.getLast_congr nonempty (List.append_ne_nil_of_right_ne_nil _ some) whole, List.getLast_append_of_ne_nil _ some]
  rw [List.getLast?_eq_some_getLast some] at last
  simpa using last

/-- A text is trimmed as its pieces are. -/
theorem trim_spell (pieces : List Piece) : trim isWhitespace (spell pieces) = spell (trim Piece.isBlank pieces) := by
  obtain ⟨before, after, split, beforeBlank, afterBlank⟩ := trim_split Piece.isBlank pieces
  obtain ⟨first, last⟩ := trim_ends Piece.isBlank pieces
  generalize trim Piece.isBlank pieces = body at split first last
  subst split
  rw [spell_append, spell_append]
  by_cases empty : body = []
  · subst empty
    rw [spell_nil, List.nil_append, ← spell_append]
    refine trim_of_blank (spell_blank fun piece member => ?_)
    exact (List.mem_append.mp member).elim (beforeBlank piece) (afterBlank piece)
  · refine trim_eq (spell_blank beforeBlank) (spell_blank afterBlank) (spell_ne_nil empty) ?_ ?_
    · cases body with
      | nil => exact absurd rfl empty
      | cons piece body => exact head_spell (first piece rfl) _
    · cases body using List.reverseRecOn with
      | nil => exact absurd rfl empty
      | append_singleton body piece => exact getLast_spell (last piece List.getLast?_concat) _

theorem significant_trim (pieces : List Piece) : significant (trim Piece.isBlank pieces) = significant pieces := by
  obtain ⟨before, after, split, beforeBlank, afterBlank⟩ := trim_split Piece.isBlank pieces
  have none {blanks : List Piece} (all : ∀ piece ∈ blanks, piece.isBlank = true) : significant blanks = [] :=
    List.filter_eq_nil_iff.mpr fun piece member => by simp [all piece member]
  conv_rhs => rw [split, significant_append, significant_append, none beforeBlank, none afterBlank, List.nil_append, List.append_nil]

/-- The first piece of a trimmed list is the first that is not blank, and so is the last. -/
theorem head_trim (pieces : List Piece) : (trim Piece.isBlank pieces).head? = (significant pieces).head? := by
  have first := (trim_ends Piece.isBlank pieces).1
  rw [← significant_trim]
  cases body : trim Piece.isBlank pieces with
  | nil => rfl
  | cons piece rest =>
    rw [body] at first
    simp [significant, first piece rfl]

theorem getLast_trim (pieces : List Piece) : (trim Piece.isBlank pieces).getLast? = (significant pieces).getLast? := by
  have last := (trim_ends Piece.isBlank pieces).2
  rw [← significant_trim]
  cases body : trim Piece.isBlank pieces using List.reverseRecOn with
  | nil => rfl
  | append_singleton rest piece =>
    rw [body] at last
    rw [significant_append, List.getLast?_concat, significant, significant, List.filter_cons_of_pos, List.filter_nil,
      List.getLast?_concat]
    simpa using last piece List.getLast?_concat

end Spelling

section Scanners

theorem map_cons_append (character : Char) (first : Text) (result : Except TomlError Text) :
    (character :: ·) <$> ((first ++ ·) <$> result) = ((character :: first) ++ ·) <$> result := by
  cases result <;> rfl

theorem map_append_append (first second : Text) (result : Except TomlError Text) :
    (first ++ ·) <$> ((second ++ ·) <$> result) = ((first ++ second) ++ ·) <$> result := by
  cases result with
  | error => rfl
  | ok rest => simp

theorem map_nil_append (result : Except TomlError Text) : ([] ++ ·) <$> result = result := by cases result <;> rfl

/-- Text without quotes and comments is passed. -/
theorem stripCommentFrom_bare {text : Text} (bare : ∀ character ∈ text, character ≠ '"' ∧ character ≠ '#') (rest : Text) :
    stripCommentFrom false false (text ++ rest) = (text ++ ·) <$> stripCommentFrom false false rest := by
  induction text with
  | nil => exact (map_nil_append _).symm
  | cons character text ih =>
    rw [List.forall_mem_cons] at bare
    rw [List.cons_append, stripCommentFrom]
    simp only [Bool.false_eq_true, ↓reduceIte, Bool.and_false, bare.1.1, bare.1.2, decide_false, Bool.false_and]
    rw [ih bare.2, map_cons_append]

theorem stripCommentFrom_plain {text : Text} (plain : ∀ character ∈ text, character ≠ '"' ∧ character ≠ '\\') (rest : Text) :
    stripCommentFrom true false (text ++ '"' :: rest) = ((text ++ ['"']) ++ ·) <$> stripCommentFrom false false rest := by
  induction text with
  | nil => rfl
  | cons character text ih =>
    rw [List.forall_mem_cons] at plain
    rw [List.cons_append, stripCommentFrom]
    simp only [Bool.false_eq_true, ↓reduceIte, Bool.and_true, plain.1.1, plain.1.2, decide_false, Bool.not_true, Bool.and_false]
    rw [ih plain.2, map_cons_append]
    rfl

theorem stripCommentFrom_piece (piece : Piece) (rest : Text) :
    stripCommentFrom false false (piece.chars ++ rest) = (piece.chars ++ ·) <$> stripCommentFrom false false rest := by
  cases piece with
  | blank character =>
    refine stripCommentFrom_bare (fun other member => ?_) rest
    rw [List.mem_singleton.mp member]
    constructor <;> rintro same <;> have white := character.2 <;> rw [same] at white <;> exact absurd white (by decide)
  | left | right | comma => exact stripCommentFrom_bare (List.forall_mem_singleton.mpr (by decide)) rest
  | text string =>
    have plain := stripCommentFrom_plain (fun character member => ⟨(string.2 character member).1, (string.2 character member).2.1⟩) rest
    have whole : (Piece.text string).chars ++ rest = '"' :: (string.1 ++ '"' :: rest) := by simp [Piece.chars]
    rw [whole, stripCommentFrom]
    simp only [Bool.false_eq_true, ↓reduceIte, Bool.and_false, Bool.not_false]
    rw [plain, map_cons_append]
    rfl

theorem stripCommentFrom_spell (pieces : List Piece) (rest : Text) :
    stripCommentFrom false false (spell pieces ++ rest) = (spell pieces ++ ·) <$> stripCommentFrom false false rest := by
  induction pieces with
  | nil => exact (map_nil_append _).symm
  | cons piece pieces ih => rw [spell_cons, List.append_assoc, stripCommentFrom_piece, ih, map_append_append]

/-- The comment of a line is cut off, and nothing else. -/
theorem stripCommentFrom_line (line : ArrayLine) : stripCommentFrom false false line.chars = .ok (spell line.pieces) := by
  rw [ArrayLine.chars, stripCommentFrom_spell]
  cases line.comment with
  | none => simp [stripCommentFrom]
  | some comment => simp [stripCommentFrom]

/-- The depth behind some pieces. There is none behind a bracket that closes nothing. -/
def nest (depth : ℕ) : List Piece → Option ℕ
  | [] => some depth
  | piece :: pieces =>
    match piece with
    | .left => nest (depth + 1) pieces
    | .right => if depth = 0 then none else nest (depth - 1) pieces
    | .blank _ | .comma | .text _ => nest depth pieces

theorem balancedArrayFrom_bare {text : Text} (bare : ∀ character ∈ text, character ≠ '"' ∧ character ≠ '[' ∧ character ≠ ']')
    (depth : ℕ) (rest : Text) : balancedArrayFrom false false depth (text ++ rest) = balancedArrayFrom false false depth rest := by
  induction text with
  | nil => rfl
  | cons character text ih =>
    rw [List.forall_mem_cons] at bare
    rw [List.cons_append, balancedArrayFrom]
    simp only [Bool.false_eq_true, ↓reduceIte, Bool.and_false, bare.1.1, bare.1.2.1, bare.1.2.2, decide_false, Bool.false_and]
    exact ih bare.2

theorem balancedArrayFrom_plain {text : Text} (plain : ∀ character ∈ text, character ≠ '"' ∧ character ≠ '\\') (depth : ℕ)
    (rest : Text) : balancedArrayFrom true false depth (text ++ '"' :: rest) = balancedArrayFrom false false depth rest := by
  induction text with
  | nil => rfl
  | cons character text ih =>
    rw [List.forall_mem_cons] at plain
    rw [List.cons_append, balancedArrayFrom]
    simp only [Bool.false_eq_true, ↓reduceIte, Bool.and_true, plain.1.1, plain.1.2, decide_false, Bool.not_true, Bool.and_false]
    exact ih plain.2

/-- Brackets in strings are not counted. -/
theorem balancedArrayFrom_spell (pieces : List Piece) (depth : ℕ) :
    balancedArrayFrom false false depth (spell pieces) =
      (nest depth pieces).elim (.error .unbalancedArray) fun behind => .ok (behind = 0) := by
  induction pieces generalizing depth with
  | nil => rfl
  | cons piece pieces ih =>
    rw [spell_cons]
    cases piece with
    | blank character =>
      refine (balancedArrayFrom_bare (fun other member => ?_) depth _).trans (ih depth)
      rw [List.mem_singleton.mp member]
      refine ⟨?_, ?_, ?_⟩ <;> rintro same <;> have white := character.2 <;> rw [same] at white <;> exact absurd white (by decide)
    | comma => exact (balancedArrayFrom_bare (List.forall_mem_singleton.mpr (by decide)) depth _).trans (ih depth)
    | left => exact ih (depth + 1)
    | right =>
      by_cases closed : depth = 0
      · simp [Piece.chars, balancedArrayFrom, nest, closed]
      · simp [Piece.chars, balancedArrayFrom, nest, closed, ih]
    | text string =>
      have plain := balancedArrayFrom_plain
        (fun character member => ⟨(string.2 character member).1, (string.2 character member).2.1⟩) depth (spell pieces)
      have whole : (Piece.text string).chars ++ spell pieces = '"' :: (string.1 ++ '"' :: spell pieces) := by simp [Piece.chars]
      rw [whole, balancedArrayFrom]
      simp only [Bool.false_eq_true, ↓reduceIte, Bool.and_false, Bool.not_false]
      exact plain.trans (ih depth)

theorem nest_significant (pieces : List Piece) (depth : ℕ) : nest depth (significant pieces) = nest depth pieces := by
  induction pieces generalizing depth with
  | nil => rfl
  | cons piece pieces ih =>
    cases piece with
    | blank | left | comma | text => exact ih _
    | right =>
      by_cases closed : depth = 0
      · simp [significant, nest, Piece.isBlank, closed]
      · exact (if_neg closed).trans ((ih _).trans (if_neg closed).symm)

theorem nest_append (depth : ℕ) (first second : List Piece) :
    nest depth (first ++ second) = (nest depth first).bind fun behind => nest behind second := by
  induction first generalizing depth with
  | nil => rfl
  | cons piece first ih =>
    cases piece with
    | blank | left | comma | text => exact ih _
    | right =>
      by_cases closed : depth = 0
      · simp [nest, closed]
      · simpa [nest, closed] using ih _

theorem nest_flat {pieces : List Piece} (flat : .left ∉ pieces ∧ .right ∉ pieces) (depth : ℕ) : nest depth pieces = some depth := by
  induction pieces with
  | nil => rfl
  | cons piece pieces ih =>
    have inside : .left ∉ pieces ∧ .right ∉ pieces := ⟨List.not_mem_of_not_mem_cons flat.1, List.not_mem_of_not_mem_cons flat.2⟩
    cases piece with
    | left => exact absurd List.mem_cons_self flat.1
    | right => exact absurd List.mem_cons_self flat.2
    | blank | comma | text => exact ih inside

theorem comma_or_text {piece : Piece} : (strings : List Plain) → piece ∈ (strings.map Piece.text).intersperse .comma →
    piece = .comma ∨ ∃ string, piece = .text string
  | [], member => nomatch member
  | [string], member => .inr ⟨string, List.mem_singleton.mp member⟩
  | string :: second :: strings, member => by
    rw [List.map_cons, List.map_cons, List.intersperse_cons_cons, List.mem_cons, List.mem_cons] at member
    rcases member with here | here | inside
    · exact .inr ⟨string, here⟩
    · exact .inl here
    · exact comma_or_text (second :: strings) inside

theorem body_flat (strings : List Plain) (trailing : Bool) :
    .left ∉ bodyPieces strings trailing ∧ .right ∉ bodyPieces strings trailing := by
  have items {piece : Piece} (member : piece ∈ bodyPieces strings trailing) : piece = .comma ∨ ∃ string, piece = .text string := by
    rcases List.mem_append.mp member with inside | inside
    · exact comma_or_text strings inside
    · split at inside
      · exact .inl (List.mem_singleton.mp inside)
      · cases inside
  exact ⟨fun member => by simpa using items member, fun member => by simpa using items member⟩

/-- The depth within an array is one, up to its end. -/
theorem nest_array {strings : List Plain} {trailing : Bool} {first rest : List Piece}
    (split : first ++ rest = arrayPieces strings trailing) (nonempty : first ≠ []) :
    nest 0 first = some (if rest = [] then 0 else 1) := by
  cases first with
  | nil => exact absurd rfl nonempty
  | cons piece first =>
    rw [List.cons_append] at split
    obtain ⟨rfl, inner⟩ := List.cons.inj split
    clear split
    change nest 1 first = _
    cases rest using List.reverseRecOn with
    | nil =>
      rw [List.append_nil] at inner
      rw [if_pos rfl, inner, nest_append, nest_flat (body_flat strings trailing)]
      rfl
    | append_singleton rest bracket =>
      rw [← List.append_assoc] at inner
      obtain ⟨same, -⟩ := List.append_inj' inner rfl
      have flat := body_flat strings trailing
      rw [← same, List.mem_append, List.mem_append, not_or, not_or] at flat
      rw [if_neg (by simp), nest_flat ⟨flat.1.1, flat.2.1⟩]

end Scanners

end HellRs.StrictToml
