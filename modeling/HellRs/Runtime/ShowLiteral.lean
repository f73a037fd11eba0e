import Mathlib
import HellRs.Syntax.Scanning

/-! # Shown string and character literals

`show_haskell_literal` writes a literal as GHC shows it: control characters by name and characters outside ASCII by
number. The lexer reads every form of it back except the names.
-/

namespace HellRs.Runtime

open HellRs.Syntax

def asciiControlNames : List String := [
  "NUL", "SOH", "STX", "ETX", "EOT", "ENQ", "ACK", "BEL", "BS", "HT", "LF", "VT", "FF", "CR",
  "SO", "SI", "DLE", "DC1", "DC2", "DC3", "DC4", "NAK", "SYN", "ETB", "CAN", "EM", "SUB", "ESC",
  "FS", "GS", "RS", "US"]

/-- The `match` of `push_haskell_literal_character` on a control character. -/
def controlForm (character : Char) (following : Option Char) : List Char :=
  match character with
  | '\x07' => ['\\', 'a']
  | '\x08' => ['\\', 'b']
  | '\x0c' => ['\\', 'f']
  | '\n' => ['\\', 'n']
  | '\r' => ['\\', 'r']
  | '\t' => ['\\', 't']
  | '\x0b' => ['\\', 'v']
  | '\x0e' => ['\\', 'S', 'O'] ++ if following = some 'H' then ['\\', '&'] else []
  | value => '\\' :: (asciiControlNames.getD value.toNat "").toList

/-- What `push_haskell_literal_character` appends. -/
def pushHaskellLiteralCharacter (character delimiter : Char) (following : Option Char) : List Char :=
  if character = delimiter then ['\\', character]
  else if '\x7f' < character then
    '\\' :: Nat.toDigits 10 character.toNat ++ if following.any Char.isDigit then ['\\', '&'] else []
  else if character = '\x7f' then ['\\', 'D', 'E', 'L']
  else if character = '\\' then ['\\', '\\']
  else if ' ' ≤ character then [character]
  else controlForm character following

/-- The characters of a shown literal between its delimiters. -/
def literalBody (delimiter : Char) : List Char → List Char
  | [] => []
  | character :: characters =>
      pushHaskellLiteralCharacter character delimiter characters.head? ++ literalBody delimiter characters

def showHaskellLiteral (characters : List Char) (delimiter : Char) : List Char :=
  delimiter :: literalBody delimiter characters ++ [delimiter]

/-- The characters that are shown by their ASCII names: control characters without a letter of their own, and DEL. -/
def ShownByName (character : Char) : Prop :=
  (character < ' ' ∧ ¬ ('\x07' ≤ character ∧ character ≤ '\x0d')) ∨ character = '\x7f'

instance (character : Char) : Decidable (ShownByName character) :=
  inferInstanceAs (Decidable (_ ∨ _))

section Decode

/-- The first letters of the names are no escapes of the lexer. -/
theorem asciiControlNames_letter (n : ℕ) (small : n < 32) :
    ∃ letter rest, (asciiControlNames.getD n "").toList = letter :: rest ∧ Lexer.simpleEscape letter = none ∧
      Lexer.escapeRadix letter = none ∧ letter ≠ '&' := by
  have all : ∀ k : Fin 32, ((asciiControlNames.getD k "").toList.head?.any fun letter =>
      Lexer.simpleEscape letter = none ∧ Lexer.escapeRadix letter = none ∧ letter ≠ '&') = true := by decide
  have here := all ⟨n, small⟩
  simp only at here
  match (asciiControlNames.getD n "").toList, here with
  | letter :: rest, here => exact ⟨letter, rest, rfl, by simpa using here⟩

/-- The shown form of a character that is shown by name. -/
theorem push_shownByName {character delimiter : Char} (named : ShownByName character)
    (printable : ' ' ≤ delimiter ∧ delimiter < '\x7f') (following : Option Char) :
    ∃ letter rest, pushHaskellLiteralCharacter character delimiter following = '\\' :: letter :: rest ∧
      Lexer.simpleEscape letter = none ∧ Lexer.escapeRadix letter = none ∧ letter ≠ '&' := by
  rcases named with ⟨control, special⟩ | rfl
  · have small : character.toNat < 32 := control
    have above : ¬ '\x7f' < character := fun greater => absurd (Char.lt_trans greater control) (by decide)
    have other : character ≠ delimiter := fun same => absurd control (Char.not_lt.mpr (same ▸ printable.1))
    have notDelete : character ≠ '\x7f' := by rintro rfl; exact absurd control (by decide)
    have notBackslash : character ≠ '\\' := by rintro rfl; exact absurd control (by decide)
    rw [pushHaskellLiteralCharacter, if_neg other, if_neg above, if_neg notDelete, if_neg notBackslash,
      if_neg (Char.not_le.mpr control)]
    obtain ⟨form, isForm⟩ : ∃ form, controlForm character following = form := ⟨_, rfl⟩
    rw [isForm]
    simp only [controlForm] at isForm
    split at isForm
    case h_8 => exact ⟨'S', _, isForm.symm, by decide, by decide, by decide⟩
    case h_9 =>
      obtain ⟨letter, rest, shape, facts⟩ := asciiControlNames_letter character.toNat small
      exact ⟨letter, rest, by rw [← isForm, shape], facts⟩
    all_goals exact absurd ⟨by decide, by decide⟩ special
  · refine ⟨'D', ['E', 'L'], ?_, by decide, by decide, by decide⟩
    have other : '\x7f' ≠ delimiter := by
      rintro rfl
      exact absurd printable.2 (by decide)
    rw [pushHaskellLiteralCharacter, if_neg other, if_neg (by decide), if_pos rfl]

theorem takeWhile_append_of_stop {wanted : Char → Bool} {digits rest : List Char}
    (all : ∀ digit ∈ digits, wanted digit = true) (stop : rest.head?.any wanted = false) :
    (digits ++ rest).takeWhile wanted = digits := by
  rw [List.takeWhile_append_of_pos all]
  cases rest with
  | nil => simp
  | cons character rest => simp_all

theorem toDigit_of_isDigit {character : Char} (isDigit : character.isDigit = true) :
    toDigit 10 character = some (character.toNat - '0'.toNat) := by
  have bounds := Char.isDigit_iff_toNat.mp isDigit
  have small : character.toNat - '0'.toNat < 10 := by
    have zero : '0'.toNat = 48 := rfl
    have nine : '9'.toNat = 57 := rfl
    omega
  rw [toDigit, if_pos isDigit, Option.filter_some, if_pos (by simpa using small)]

theorem toDigit_isSome {character : Char} : (toDigit 10 character).isSome = character.isDigit := by
  cases isDigit : character.isDigit with
  | true => rw [toDigit_of_isDigit isDigit]; rfl
  | false =>
    simp only [toDigit, isDigit, Bool.false_eq_true, if_false]
    split
    · simp
    · split
      · simp
      · rfl

theorem fromStrRadix_toDigits {n : ℕ} (small : n < 2 ^ 32) : fromStrRadix 10 (Nat.toDigits 10 n) = some n := by
  have value : (Nat.toDigits 10 n).foldl (fun value digit => 10 * value + (toDigit 10 digit).getD 0) 0 = n := by
    have same := @Nat.ofDigitChars_ten_toDigits n
    rw [Nat.ofDigitChars_eq_foldl] at same
    refine (List.foldl_ext _ _ 0 fun value digit member => ?_).trans same
    have isDigit : digit.isDigit = true := Nat.isDigit_of_mem_toDigits (by decide) (by decide) member
    rw [toDigit_of_isDigit isDigit, Option.getD_some]
  simp only [fromStrRadix, value]
  rw [if_neg]
  rintro (empty | large)
  · exact Nat.toDigits_ne_nil empty
  · omega

/-- The separator after a numeric escape before a digit. -/
def gap (character : Char) (following : Option Char) : List Char :=
  if '\x7f' < character ∧ following.any Char.isDigit then ['\\', '&'] else []

/-- A control character that is not shown by name has a letter of its own. -/
theorem lettered {character : Char} (plain : ¬ ShownByName character) (control : character < ' ') :
    character ∈ ['\x07', '\x08', '\t', '\n', '\x0b', '\x0c', '\r'] := by
  have bounds : '\x07' ≤ character ∧ character ≤ '\x0d' := by
    by_contra other
    exact plain (.inl ⟨control, other⟩)
  have lower : 7 ≤ character.toNat := bounds.1
  have upper : character.toNat ≤ 13 := bounds.2
  have same := Char.ofNat_toNat character
  generalize character.toNat = n at same lower upper
  subst same
  interval_cases n <;> decide

theorem push_eq {character delimiter : Char} (plain : ¬ ShownByName character)
    (printable : ' ' ≤ delimiter ∧ delimiter < '\x7f') (following : Option Char) :
    pushHaskellLiteralCharacter character delimiter following =
      pushHaskellLiteralCharacter character delimiter none ++ gap character following := by
  simp only [pushHaskellLiteralCharacter, gap]
  split
  next same =>
    have small : ¬ '\x7f' < character := same ▸ Char.lt_asymm printable.2
    simp [small]
  next =>
    split
    next large => simp [large]
    next small =>
      simp only [small, false_and, if_false, List.append_nil]
      split
      · rfl
      · split
        · rfl
        · split
          · rfl
          next control =>
            have letters := lettered plain (Char.not_le.mp control)
            simp only [List.mem_cons, List.not_mem_nil, or_false] at letters
            rcases letters with rfl | rfl | rfl | rfl | rfl | rfl | rfl <;> rfl

theorem decodeNumeric_eq {lexer : Lexer} {character : Char} {rest : List Char}
    (here : lexer.rest = Nat.toDigits 10 character.toNat ++ rest) (stop : rest.head?.any Char.isDigit = false)
    (escapeStart : ℕ) : lexer.decodeNumeric escapeStart 10 true =
      (some character, lexer.advance (Nat.toDigits 10 character.toNat).length) := by
  have digits : (lexer.rest.takeWhile fun digit => (toDigit 10 digit).isSome) = Nat.toDigits 10 character.toNat := by
    simp only [here, toDigit_isSome]
    exact takeWhile_append_of_stop (fun digit member => Nat.isDigit_of_mem_toDigits (by decide) (by decide) member) stop
  have valid : fromU32 character.toNat = some character := by
    have isValid : character.toNat.isValidChar := character.valid
    rw [fromU32, if_pos isValid, Char.ofNat_toNat]
  have small : character.toNat < 2 ^ 32 := character.val.toNat_lt
  simp only [Lexer.decodeNumeric, digits, Nat.toDigits_ne_nil, false_and, if_false, fromStrRadix_toDigits small,
    Option.bind_some, valid]

theorem escape_of_isDigit {character : Char} (isDigit : character.isDigit = true) :
    Lexer.simpleEscape character = none ∧ Lexer.escapeRadix character = some (10, true) := by
  obtain ⟨lower, upper⟩ := Char.isDigit_iff_toNat.mp isDigit
  have lower : 48 ≤ character.toNat := lower
  have upper : character.toNat ≤ 57 := upper
  have same := Char.ofNat_toNat character
  generalize character.toNat = n at same lower upper
  subst same
  interval_cases n <;> decide

theorem decodeChar_number {lexer : Lexer} {character delimiter : Char} {rest : List Char}
    (notDelimiter : '\\' ≠ delimiter) (here : lexer.rest = '\\' :: (Nat.toDigits 10 character.toNat ++ rest))
    (stop : rest.head?.any Char.isDigit = false) (start : ℕ) :
    lexer.decodeChar start delimiter =
      (some character, lexer.advance ((Nat.toDigits 10 character.toNat).length + 1)) := by
  have digits : (lexer.advance 1).rest = Nat.toDigits 10 character.toNat ++ rest := by
    rw [Lexer.advance_rest, here]
    rfl
  have numeric := decodeNumeric_eq digits stop lexer.offset
  rw [Lexer.advance_advance, Nat.add_comm] at numeric
  rw [← numeric]
  cases shape : Nat.toDigits 10 character.toNat with
  | nil => exact absurd shape Nat.toDigits_ne_nil
  | cons first others =>
    have isDigit : first.isDigit = true :=
      Nat.isDigit_of_mem_toDigits (by decide) (by decide) (shape ▸ List.mem_cons_self ..)
    obtain ⟨notSimple, radix⟩ := escape_of_isDigit isDigit
    rw [shape] at here
    simp only [Lexer.decodeChar, here, List.cons_append, if_neg notDelimiter, ne_eq, not_true, if_false, notSimple,
      radix, if_true]

/-- The shown form of a character that is not shown by name: an escape of one letter, a number, or itself. -/
theorem push_cases {character delimiter : Char} (plain : ¬ ShownByName character)
    (delimiters : delimiter = '"' ∨ delimiter = '\'') :
    (∃ letter, pushHaskellLiteralCharacter character delimiter none = ['\\', letter] ∧
      Lexer.simpleEscape letter = some character) ∨
    ('\x7f' < character ∧
      pushHaskellLiteralCharacter character delimiter none = '\\' :: Nat.toDigits 10 character.toNat) ∨
    (pushHaskellLiteralCharacter character delimiter none = [character] ∧ ' ' ≤ character ∧ character ≠ delimiter ∧
      character ≠ '\\') := by
  by_cases same : character = delimiter
  · refine .inl ⟨character, by rw [pushHaskellLiteralCharacter, if_pos same], ?_⟩
    rcases delimiters with rfl | rfl <;> rw [same] <;> rfl
  · by_cases large : '\x7f' < character
    · refine .inr (.inl ⟨large, ?_⟩)
      simp [pushHaskellLiteralCharacter, same, large]
    · have notDelete : character ≠ '\x7f' := fun delete => plain (.inr delete)
      by_cases backslash : character = '\\'
      · refine .inl ⟨'\\', ?_, by rw [backslash]; rfl⟩
        rw [pushHaskellLiteralCharacter, if_neg same, if_neg large, if_neg notDelete, if_pos backslash]
      · by_cases printable : ' ' ≤ character
        · refine .inr (.inr ⟨?_, printable, same, backslash⟩)
          rw [pushHaskellLiteralCharacter, if_neg same, if_neg large, if_neg notDelete, if_neg backslash,
            if_pos printable]
        · have letters := lettered plain (Char.not_le.mp printable)
          have form : pushHaskellLiteralCharacter character delimiter none = controlForm character none := by
            rw [pushHaskellLiteralCharacter, if_neg same, if_neg large, if_neg notDelete, if_neg backslash,
              if_neg printable]
          simp only [List.mem_cons, List.not_mem_nil, or_false] at letters
          rcases letters with rfl | rfl | rfl | rfl | rfl | rfl | rfl <;> exact .inl ⟨_, form, rfl⟩

/-- The lexer reads back the shown form of a character that is not shown by name. -/
theorem decodeChar_push {lexer : Lexer} {character delimiter : Char} {rest : List Char}
    (plain : ¬ ShownByName character) (delimiters : delimiter = '"' ∨ delimiter = '\'')
    (here : lexer.rest = pushHaskellLiteralCharacter character delimiter none ++ rest)
    (stop : '\x7f' < character → rest.head?.any Char.isDigit = false) (start : ℕ) :
    lexer.decodeChar start delimiter =
      (some character, lexer.advance (pushHaskellLiteralCharacter character delimiter none).length) := by
  have notDelimiter : '\\' ≠ delimiter := by rcases delimiters with rfl | rfl <;> decide
  rcases push_cases plain delimiters with ⟨letter, form, simple⟩ | ⟨large, form⟩ | ⟨form, -, other, backslash⟩
  · rw [form] at here ⊢
    simp only [Lexer.decodeChar, here, List.cons_append, if_neg notDelimiter, ne_eq, not_true, if_false, simple,
      List.length_cons, List.length_nil]
  · rw [form] at here ⊢
    exact decodeChar_number notDelimiter here (stop large) start
  · rw [form] at here ⊢
    simp only [Lexer.decodeChar, here, List.cons_append, if_neg other, ne_eq, backslash, not_false_eq_true, if_true,
      List.length_cons, List.length_nil]

/-- The lexer refuses a name. -/
theorem decodeChar_shownByName {lexer : Lexer} {character delimiter : Char} {rest : List Char}
    (named : ShownByName character) (delimiters : delimiter = '"' ∨ delimiter = '\'') {following : Option Char}
    (here : lexer.rest = pushHaskellLiteralCharacter character delimiter following ++ rest) (start : ℕ) :
    ∃ after, lexer.decodeChar start delimiter = (none, after) ∧ after.errors ≠ [] := by
  have notDelimiter : '\\' ≠ delimiter := by rcases delimiters with rfl | rfl <;> decide
  have printable : ' ' ≤ delimiter ∧ delimiter < '\x7f' := by rcases delimiters with rfl | rfl <;> decide
  obtain ⟨letter, tail, form, notSimple, notNumeric, -⟩ := push_shownByName named printable following
  rw [form] at here
  refine ⟨(lexer.advance 2).lexError "invalid Haskell literal escape" lexer.offset, ?_, ?_⟩
  · simp only [Lexer.decodeChar, here, List.cons_append, if_neg notDelimiter, ne_eq, not_true, if_false, notSimple,
      notNumeric]
  · simp [Lexer.lexError, Lexer.error]

end Decode

section Loop

variable {lexer : Lexer} {character : Char} {rest : List Char}

/-- The shown form of a character starts neither with the closing quote nor with a line break nor with `\&`. -/
theorem push_head (character : Char) (following : Option Char) :
    ∃ first tail, pushHaskellLiteralCharacter character '"' following = first :: tail ∧ first ≠ '"' ∧ first ≠ '\n' ∧
      (first = '\\' → ∃ letter rest, tail = letter :: rest ∧ letter ≠ '&') := by
  have printable : ' ' ≤ '"' ∧ '"' < '\x7f' := by decide
  by_cases named : ShownByName character
  · obtain ⟨letter, rest, form, -, -, notGap⟩ := push_shownByName named printable following
    exact ⟨'\\', letter :: rest, form, by decide, by decide, fun _ => ⟨letter, rest, rfl, notGap⟩⟩
  · rw [push_eq named printable]
    rcases push_cases named (.inl rfl) with ⟨letter, form, simple⟩ | ⟨-, form⟩ | ⟨form, visible, other, backslash⟩
    · refine ⟨'\\', letter :: gap character following, by rw [form]; rfl, by decide, by decide, fun _ =>
        ⟨letter, _, rfl, ?_⟩⟩
      rintro rfl
      cases simple
    · cases shape : Nat.toDigits 10 character.toNat with
      | nil => exact absurd shape Nat.toDigits_ne_nil
      | cons first others =>
        refine ⟨'\\', first :: (others ++ gap character following), by rw [form, shape]; rfl, by decide, by decide,
          fun _ => ⟨first, _, rfl, ?_⟩⟩
        rintro rfl
        have isDigit : '&'.isDigit = true :=
          Nat.isDigit_of_mem_toDigits (by decide) (by decide) (shape ▸ List.mem_cons_self ..)
        exact absurd isDigit (by decide)
    · refine ⟨character, gap character following, by rw [form]; rfl, other, ?_, fun same => absurd same backslash⟩
      rintro rfl
      exact absurd visible (by decide)

/-- A turn of the loop of `string` on the shown form of a character decodes it. -/
theorem stringTurns_push {start fuel : ℕ} {result : List Char} {following : Option Char}
    (here : lexer.rest = pushHaskellLiteralCharacter character '"' following ++ rest) :
    Lexer.stringTurns start (fuel + 1) lexer result =
      match lexer.decodeChar start '"' with
      | (some value, after) => Lexer.stringTurns start fuel after (result ++ [value])
      | (none, after) => (result, after) := by
  obtain ⟨first, tail, form, notQuote, notBreak, notGap⟩ := push_head character following
  rw [form] at here
  simp only [Lexer.stringTurns]
  split
  next empty => rw [here] at empty; cases empty
  next _ quote => rw [here] at quote; exact absurd (List.cons.inj quote).1 notQuote
  next _ line => rw [here] at line; exact absurd (List.cons.inj line).1 notBreak
  next _ isGap =>
    rw [here] at isGap
    obtain ⟨isBackslash, isGap⟩ := List.cons.inj isGap
    obtain ⟨letter, others, rfl, other⟩ := notGap isBackslash
    exact absurd (List.cons.inj isGap).1 other
  next => rfl

theorem stringTurns_gap {start fuel : ℕ} {result : List Char} (here : lexer.rest = '\\' :: '&' :: rest) :
    Lexer.stringTurns start (fuel + 1) lexer result = Lexer.stringTurns start fuel (lexer.advance 2) result := by
  simp only [Lexer.stringTurns, here]

theorem push_first (character : Char) (following : Option Char) :
    ∃ first tail, pushHaskellLiteralCharacter character '"' following = first :: tail ∧
      (first = '\\' ∨ first = character) := by
  have printable : ' ' ≤ '"' ∧ '"' < '\x7f' := by decide
  by_cases named : ShownByName character
  · obtain ⟨letter, rest, form, -⟩ := push_shownByName named printable following
    exact ⟨'\\', letter :: rest, form, .inl rfl⟩
  · rw [push_eq named printable]
    rcases push_cases named (.inl rfl) with ⟨letter, form, -⟩ | ⟨-, form⟩ | ⟨form, -⟩
    · exact ⟨'\\', _, by rw [form]; rfl, .inl rfl⟩
    · exact ⟨'\\', _, by rw [form]; rfl, .inl rfl⟩
    · exact ⟨character, _, by rw [form]; rfl, .inr rfl⟩

theorem literalBody_stop {characters : List Char} (notDigit : characters.head?.any Char.isDigit = false) :
    (literalBody '"' characters ++ ['"']).head?.any Char.isDigit = false := by
  cases characters with
  | nil => rfl
  | cons character characters =>
    obtain ⟨first, tail, form, isFirst⟩ := push_first character characters.head?
    simp only [literalBody, form, List.cons_append, List.head?_cons, Option.any_some]
    rcases isFirst with rfl | rfl
    · rfl
    · simpa using notDigit

/-- After the shown form of a character and its separator comes no digit that could belong to it. -/
theorem gap_stop {characters : List Char} (large : '\x7f' < character) :
    (gap character characters.head? ++ (literalBody '"' characters ++ ['"'])).head?.any Char.isDigit = false := by
  by_cases digit : characters.head?.any Char.isDigit = true
  · simp [gap, large, digit]
  · have none : gap character characters.head? = [] := by simp [gap, digit]
    rw [none]
    exact literalBody_stop (by simpa using digit)

theorem stringTurns_skip {start : ℕ} {following : Option Char} (here : lexer.rest = gap character following ++ rest) :
    ∃ turns after, turns ≤ (gap character following).length ∧ after.rest = rest ∧ after.errors = lexer.errors ∧
      ∀ fuel result,
        Lexer.stringTurns start (fuel + turns) lexer result = Lexer.stringTurns start fuel after result := by
  simp only [gap] at here ⊢
  split
  next separated =>
    rw [if_pos separated] at here
    exact ⟨1, lexer.advance 2, by decide, by rw [Lexer.advance_rest, here]; rfl, rfl, fun _ _ => stringTurns_gap here⟩
  next together =>
    rw [if_neg together] at here
    exact ⟨0, lexer, le_rfl, here, rfl, fun _ _ => rfl⟩

/-- The loop of `string` reads the shown form of characters that are not shown by name. -/
theorem stringTurns_body {start : ℕ} (characters others : List Char)
    (plain : ∀ character ∈ characters, ¬ ShownByName character) {lexer : Lexer} {fuel : ℕ} {result : List Char}
    (here : lexer.rest = literalBody '"' (characters ++ others) ++ ['"'])
    (enough : (literalBody '"' (characters ++ others)).length ≤ fuel) :
    ∃ fuel' after, (literalBody '"' others).length ≤ fuel' ∧ after.rest = literalBody '"' others ++ ['"'] ∧
      after.errors = lexer.errors ∧ Lexer.stringTurns start (fuel + 1) lexer result =
        Lexer.stringTurns start (fuel' + 1) after (result ++ characters) := by
  induction characters generalizing lexer fuel result with
  | nil => exact ⟨fuel, lexer, enough, here, rfl, by rw [List.append_nil]⟩
  | cons character characters ih =>
    have printable : ' ' ≤ '"' ∧ '"' < '\x7f' := by decide
    have notNamed := plain character (List.mem_cons_self ..)
    have later : ∀ other ∈ characters, ¬ ShownByName other := fun other member =>
      plain other (List.mem_cons_of_mem _ member)
    simp only [List.cons_append, literalBody, List.append_assoc] at here enough
    have turn : Lexer.stringTurns start (fuel + 1) lexer result = _ := stringTurns_push here
    rw [push_eq notNamed printable, List.append_assoc] at here
    rw [push_eq notNamed printable] at enough
    obtain ⟨first, tail, isForm, -⟩ := push_first character none
    have nonempty : 0 < (pushHaskellLiteralCharacter character '"' none).length := by simp [isForm]
    have decoded := decodeChar_push notNamed (.inl rfl) here gap_stop start
    have afterRest : (lexer.advance (pushHaskellLiteralCharacter character '"' none).length).rest =
        gap character (characters ++ others).head? ++ (literalBody '"' (characters ++ others) ++ ['"']) := by
      rw [Lexer.advance_rest, here, List.drop_left]
    simp only [List.length_append] at enough
    obtain ⟨turns, separated, atMost, isRest, errors, skip⟩ := stringTurns_skip afterRest
    obtain ⟨fuel', later', enough', rest', errors', read⟩ := ih later isRest
      (show (literalBody '"' (characters ++ others)).length ≤ fuel - turns - 1 by omega)
    refine ⟨fuel', later', enough', rest', errors'.trans errors, ?_⟩
    rw [turn, decoded]
    have split : fuel = fuel - turns - 1 + 1 + turns := by omega
    simp only
    rw [split, skip, read, List.append_assoc]
    rfl

end Loop

section Literals

variable {isUppercase : Char → Bool}

theorem scan_string (tail : List Char) : Lexer.scan isUppercase ⟨'"' :: tail, 0, [], true, []⟩ =
    some (Lexer.string ⟨'"' :: tail, 0, [], true, []⟩ 0) := rfl

theorem scan_character (tail : List Char) : Lexer.scan isUppercase ⟨'\'' :: tail, 0, [], true, []⟩ =
    some (Lexer.character ⟨'\'' :: tail, 0, [], true, []⟩ 0) := rfl

/-- The lexer after the opening quote of a shown literal. -/
def opened (characters : List Char) (delimiter : Char) : Lexer :=
  (⟨showHaskellLiteral characters delimiter, 0, [], true, []⟩ : Lexer).advance 1

theorem opened_rest (characters : List Char) (delimiter : Char) :
    (opened characters delimiter).rest = literalBody delimiter characters ++ [delimiter] := rfl

theorem string_eq {characters result : List Char} {after : Lexer}
    (turns : Lexer.stringTurns 0 ((opened characters '"').rest.length + 1) (opened characters '"') [] = (result, after)) :
    Lexer.scan isUppercase ⟨showHaskellLiteral characters '"', 0, [], true, []⟩ =
      some (.text (String.ofList result),
        if after.rest.head? = some '"' then after.advance 1 else after.lexError "unterminated text literal" 0) := by
  rw [showHaskellLiteral, List.cons_append, scan_string]
  simp only [opened, showHaskellLiteral, List.cons_append] at turns
  simp only [Lexer.string, turns]

/-- The loop of `string` on a shown text, up to a character of one's choice. -/
theorem stringTurns_opened (characters others : List Char)
    (plain : ∀ character ∈ characters, ¬ ShownByName character) :
    ∃ fuel after, after.rest = literalBody '"' others ++ ['"'] ∧ after.errors = [] ∧
      Lexer.stringTurns 0 ((opened (characters ++ others) '"').rest.length + 1) (opened (characters ++ others) '"') [] =
        Lexer.stringTurns 0 (fuel + 1) after characters := by
  obtain ⟨fuel, after, -, rest, errors, read⟩ := @stringTurns_body 0 characters others plain
    (opened (characters ++ others) '"') (opened (characters ++ others) '"').rest.length [] (opened_rest _ _)
    (by rw [opened_rest, List.length_append]; exact Nat.le_add_right ..)
  exact ⟨fuel, after, rest, errors, read⟩

/-- A shown text is read back exactly if none of its characters is shown by name. -/
theorem lexesTo_text_iff (characters : List Char) :
    LexesTo isUppercase (showHaskellLiteral characters '"') (.text (String.ofList characters)) ↔
      ∀ character ∈ characters, ¬ ShownByName character := by
  constructor
  · intro lexed
    by_contra some
    simp only [not_forall, not_not] at some
    obtain ⟨named, member, isNamed⟩ := some
    -- The first character that is shown by name stops the lexer.
    have some : (characters.find? fun character => decide (ShownByName character)).isSome :=
      List.find?_isSome.mpr ⟨named, member, decide_eq_true isNamed⟩
    obtain ⟨bad, found⟩ := Option.isSome_iff_exists.mp some
    obtain ⟨isBad, good, others, rfl, plain⟩ := List.find?_eq_some_iff_append.mp found
    obtain ⟨fuel, after, rest, -, read⟩ := stringTurns_opened good (bad :: others) (by simpa using plain)
    rw [literalBody, List.append_assoc] at rest
    obtain ⟨stopped, failed, errors⟩ := decodeChar_shownByName (of_decide_eq_true isBad) (.inl rfl) rest 0
    rw [stringTurns_push rest, failed] at read
    refine not_lexesTo_of_errors (.inl rfl) (string_eq read) rfl ?_ _ lexed
    split
    · exact errors
    · simp [Lexer.lexError, Lexer.error]
  · intro plain
    obtain ⟨fuel, after, rest, errors, read⟩ := stringTurns_opened characters [] plain
    have final : Lexer.stringTurns 0 (fuel + 1) after characters = (characters, after) := by
      simp only [Lexer.stringTurns, rest, literalBody, List.nil_append]
    rw [List.append_nil, final] at read
    have closed : (if after.rest.head? = some '"' then after.advance 1
        else after.lexError "unterminated text literal" 0) = after.advance 1 := by rw [rest]; rfl
    have whole : (after.advance 1).rest = [] := by
      rw [Lexer.advance_rest, rest]
      rfl
    have clean : (after.advance 1).errors = [] := errors
    exact lexesTo_of_scan (.inl rfl) ((string_eq read).trans (by rw [closed])) rfl clean whole

/-- A shown character is read back exactly if it is not shown by name. -/
theorem lexesTo_character_iff (character : Char) :
    LexesTo isUppercase (showHaskellLiteral [character] '\'') (.character character) ↔ ¬ ShownByName character := by
  have rest : (opened [character] '\'').rest = pushHaskellLiteralCharacter character '\'' none ++ ['\''] := by
    rw [opened_rest, literalBody, literalBody, List.append_nil]
    rfl
  have scanned (result : Option Char × Lexer)
      (decoded : (opened [character] '\'').decodeChar 0 '\'' = result) :
      Lexer.scan isUppercase ⟨showHaskellLiteral [character] '\'', 0, [], true, []⟩ =
        some (.character (result.1.getD '\x00'), if result.2.rest.head? = some '\'' then result.2.advance 1
          else result.2.lexError "unterminated character literal" 0) := by
    subst decoded
    rfl
  constructor
  · intro lexed named
    obtain ⟨stopped, failed, errors⟩ := decodeChar_shownByName named (.inr rfl) rest 0
    refine not_lexesTo_of_errors (.inr rfl) (scanned _ failed) rfl ?_ _ lexed
    simp only
    split
    · exact errors
    · simp [Lexer.lexError, Lexer.error]
  · intro plain
    have decoded := decodeChar_push plain (.inr rfl) rest (fun _ => rfl) 0
    have after : ((opened [character] '\'').advance (pushHaskellLiteralCharacter character '\'' none).length).rest =
        ['\''] := by
      rw [Lexer.advance_rest, rest, List.drop_left]
    have read := scanned _ decoded
    simp only [after, List.head?_cons, if_true, Option.getD_some] at read
    exact lexesTo_of_scan (.inr rfl) read rfl rfl (by rw [Lexer.advance_rest, after]; rfl)

/-- The lexer reads back a shown text exactly if none of its characters is shown by its ASCII name, and a shown
character exactly if it is not shown by its name. -/
theorem show_literal_read_back (isUppercase : Char → Bool) :
    (∀ text : String, LexesTo isUppercase (showHaskellLiteral text.toList '"') (.text text) ↔
      ∀ character ∈ text.toList, ¬ ShownByName character) ∧
    ∀ character, LexesTo isUppercase (showHaskellLiteral [character] '\'') (.character character) ↔
      ¬ ShownByName character := by
  refine ⟨fun text => ?_, lexesTo_character_iff⟩
  rw [← @lexesTo_text_iff isUppercase text.toList, String.ofList_toList]

/-- The shown form of the text with the characters SO and H is `"\SO\&H"`, which the lexer refuses. -/
theorem shift_out_not_read_back :
    showHaskellLiteral ['\x0e', 'H'] '"' = ['"', '\\', 'S', 'O', '\\', '&', 'H', '"'] ∧
      ¬ ∀ text : String, LexesTo Char.isUpper (showHaskellLiteral text.toList '"') (.text text) := by
  refine ⟨by decide, fun all => ?_⟩
  have read := (lexesTo_text_iff ['\x0e', 'H']).mp (by simpa using all (String.ofList ['\x0e', 'H']))
  exact read '\x0e' (by simp) (by decide)

end Literals

end HellRs.Runtime
