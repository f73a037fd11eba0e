import Mathlib
import HellRs.Syntax.Scanning

/-! # Integer literals

The lexer keeps the text of an integer literal with the prefix of its radix. The compiler reads the number from the text, modulo
`2 ^ 64`.
-/

namespace HellRs.Compiler

open Syntax

/-- A turn of the loop of `parse_wrapping_int`. -/
def wrappingDigit (radix : ℕ) (value : UInt64) (digit : Char) : Option UInt64 := do
  let digit ← toDigit radix digit
  return value * UInt64.ofNat radix + UInt64.ofNat digit

/-- The radix of a literal and the text behind its prefix. -/
def radixDigits : List Char → ℕ × List Char
  | '0' :: 'x' :: value | '0' :: 'X' :: value => (16, value)
  | '0' :: 'o' :: value | '0' :: 'O' :: value => (8, value)
  | raw => (10, raw)

def parseWrappingInt (raw : List Char) : Option Int64 := do
  let (radix, digits) := radixDigits raw
  if digits = [] then none
  else return (← digits.foldlM (wrappingDigit radix) 0).toInt64

inductive Radix where
  | hexadecimal
  | octal
  | decimal

def Radix.base : Radix → ℕ
  | .hexadecimal => 16
  | .octal => 8
  | .decimal => 10

/-- The prefixes of a radix. -/
def Radix.marks : Radix → List (List Char)
  | .hexadecimal => [['0', 'x'], ['0', 'X']]
  | .octal => [['0', 'o'], ['0', 'O']]
  | .decimal => [[]]

def Radix.IsDigit (radix : Radix) (character : Char) : Prop := (toDigit radix.base character).isSome

structure IntegerLiteral where
  radix : Radix
  mark : List Char
  isMark : mark ∈ radix.marks
  digits : List Char
  nonempty : digits ≠ []
  valid : ∀ digit ∈ digits, radix.IsDigit digit

namespace IntegerLiteral

def text (literal : IntegerLiteral) : List Char := literal.mark ++ literal.digits

/-- The number that the digits denote. -/
def number (literal : IntegerLiteral) : ℕ :=
  Nat.ofDigits literal.radix.base (literal.digits.reverse.map fun digit => (toDigit literal.radix.base digit).getD 0)

end IntegerLiteral

/-! ## The compiler -/

/-- The digits from left to right. -/
def foldDigits (radix value : ℕ) (digits : List Char) : ℕ :=
  digits.foldl (fun value digit => value * radix + (toDigit radix digit).getD 0) value

theorem ofDigits_eq_foldDigits (radix : ℕ) (digits : List Char) :
    Nat.ofDigits radix (digits.reverse.map fun digit => (toDigit radix digit).getD 0) = foldDigits radix 0 digits := by
  rw [Nat.ofDigits_eq_foldr, List.foldr_map, List.foldr_reverse, foldDigits]
  congr 1
  funext value digit
  simp only [Nat.cast_id]
  ring

/-- The loop wraps at every digit, which is the same as wrapping once. -/
theorem foldlM_wrappingDigit (radix : ℕ) {digits : List Char} (valid : ∀ digit ∈ digits, (toDigit radix digit).isSome) (value : ℕ) :
    digits.foldlM (wrappingDigit radix) (UInt64.ofNat value) = some (UInt64.ofNat (foldDigits radix value digits)) := by
  induction digits generalizing value with
  | nil => rfl
  | cons digit digits ih =>
    obtain ⟨here, rest⟩ := List.forall_mem_cons.mp valid
    obtain ⟨number, isNumber⟩ := Option.isSome_iff_exists.mp here
    have step : wrappingDigit radix (UInt64.ofNat value) digit = some (UInt64.ofNat (value * radix + number)) := by
      rw [wrappingDigit, isNumber, UInt64.ofNat_add, UInt64.ofNat_mul]
      rfl
    rw [List.foldlM_cons, step]
    change digits.foldlM (wrappingDigit radix) (UInt64.ofNat (value * radix + number)) = _
    rw [ih rest, foldDigits, foldDigits, List.foldl_cons, isNumber, Option.getD_some]

theorem radixDigits_text (literal : IntegerLiteral) : radixDigits literal.text = (literal.radix.base, literal.digits) := by
  obtain ⟨radix, mark, isMark, digits, nonempty, valid⟩ := literal
  rw [IntegerLiteral.text]
  dsimp only
  cases radix with
  | hexadecimal =>
    rcases List.mem_pair.mp isMark with rfl | rfl
    · rfl
    · rfl
  | octal =>
    rcases List.mem_pair.mp isMark with rfl | rfl
    · rfl
    · rfl
  | decimal =>
    obtain rfl := List.mem_singleton.mp isMark
    -- no letter of a prefix is a decimal digit
    have plain (letter : Char) (isLetter : toDigit 10 letter = none) (value : List Char) : digits ≠ '0' :: letter :: value := by
      intro same
      have wrong := valid letter (by simp [same])
      rw [Radix.IsDigit, Radix.base, isLetter] at wrong
      cases wrong
    rw [List.nil_append, radixDigits]
    · rfl
    · exact plain 'x' (by decide)
    · exact plain 'X' (by decide)
    · exact plain 'o' (by decide)
    · exact plain 'O' (by decide)

theorem parseWrappingInt_text (literal : IntegerLiteral) : parseWrappingInt literal.text = some (Int64.ofNat literal.number) := by
  have folded := foldlM_wrappingDigit literal.radix.base literal.valid 0
  rw [parseWrappingInt, radixDigits_text]
  dsimp only
  rw [if_neg literal.nonempty, show (0 : UInt64) = UInt64.ofNat 0 from rfl, folded, IntegerLiteral.number, ofDigits_eq_foldDigits]
  rfl

/-! ## The lexer -/

/-- The characters behind a literal do not belong to it, and do not make it something else. -/
structure IntegerLiteral.Ends (literal : IntegerLiteral) (rest : List Char) : Prop where
  digit : ∀ character ∈ rest.head?, ¬ literal.radix.IsDigit character
  /-- Eight and nine behind an octal literal are an error. -/
  octal : literal.radix = .octal → ∀ character ∈ rest.head?, character.isDigit = false
  fraction : literal.radix = .decimal → ∀ digit rest', rest = '.' :: digit :: rest' → digit.isDigit = false
  exponent : literal.radix = .decimal → ∀ character ∈ rest.head?, character ≠ 'e' ∧ character ≠ 'E'
  mark : literal.radix = .decimal → literal.digits = ['0'] → ∀ character ∈ rest.head?, character ∉ ['x', 'X', 'o', 'O']

theorem isSome_toDigit_ten (character : Char) : (toDigit 10 character).isSome = character.isDigit := by
  rw [toDigit]
  by_cases isDigit : character.isDigit = true
  · have bounds : 48 ≤ character.toNat ∧ character.toNat ≤ 57 := by
      simpa [Char.isDigit, UInt32.le_iff_toNat_le] using isDigit
    have small : character.toNat - '0'.toNat < 10 := by
      change character.toNat - 48 < 10
      omega
    simp only [isDigit, ↓reduceIte, Option.filter_some, small, decide_true, Option.isSome_some]
  · have large (number : ℕ) : ¬ number + 10 < 10 := by omega
    simp only [isDigit, Bool.false_eq_true, ↓reduceIte]
    split
    · simp [large]
    · split <;> simp [large]

section Lexer

variable {lexer : Lexer} {characters rest : List Char} {wanted : Char → Bool}

theorem sliceTo_advance (isRest : lexer.rest = characters ++ rest) :
    lexer.sliceTo (lexer.advance characters.length) = characters := by
  rw [Lexer.sliceTo, Lexer.advance_rest, isRest, List.drop_left, List.length_append, Nat.add_sub_cancel, List.take_left]

theorem advanceWhile_eq (isRest : lexer.rest = characters ++ rest) (all : ∀ character ∈ characters, wanted character)
    (ends : ∀ character ∈ rest.head?, ¬ wanted character) : lexer.advanceWhile wanted = lexer.advance characters.length := by
  have stop : rest.takeWhile wanted = [] := by
    cases rest with
    | nil => rfl
    | cons character rest => exact List.takeWhile_cons_of_neg (ends character rfl)
  rw [Lexer.advanceWhile, isRest, List.takeWhile_append_of_pos all, stop, List.append_nil]

/-- What `advanceWhile` reads. -/
theorem exists_advanceWhile (lexer : Lexer) (wanted : Char → Bool) : ∃ characters rest, lexer.rest = characters ++ rest ∧
    (∀ character ∈ characters, wanted character) ∧ (∀ character ∈ rest.head?, ¬ wanted character) := by
  refine ⟨lexer.rest.takeWhile wanted, lexer.rest.dropWhile wanted, List.takeWhile_append_dropWhile.symm, ?_, ?_⟩
  · exact fun character member => List.mem_takeWhile_imp member
  · intro character first
    have stopped := List.head?_dropWhile_not wanted lexer.rest
    rw [Option.mem_def.mp first] at stopped
    simpa using stopped

theorem offset_advance_eq (isRest : lexer.rest = characters ++ rest) :
    (lexer.advance characters.length).offset = lexer.offset ↔ characters = [] := by
  rw [Lexer.advance, isRest, List.take_left]
  cases characters with
  | nil => simp [utf8Length]
  | cons character characters =>
    have positive := Char.utf8Size_pos character
    simp only [utf8Length, List.map_cons, List.sum_cons, reduceCtorEq, iff_false]
    omega

/-- The digits behind a prefix. -/
theorem advanceWhile_marked {letter : Char} (isRest : lexer.rest = '0' :: letter :: (characters ++ rest))
    (all : ∀ character ∈ characters, wanted character) (ends : ∀ character ∈ rest.head?, ¬ wanted character) :
    (lexer.advance 2).advanceWhile wanted = lexer.advance ('0' :: letter :: characters).length ∧
      ((lexer.advance ('0' :: letter :: characters).length).offset = (lexer.advance 2).offset ↔ characters = []) := by
  have behind : (lexer.advance 2).rest = characters ++ rest := by rw [Lexer.advance_rest, isRest]; rfl
  have moved : (lexer.advance 2).advance characters.length = lexer.advance ('0' :: letter :: characters).length := by
    rw [Lexer.advance_advance, Nat.add_comm]
    rfl
  rw [advanceWhile_eq behind all ends, moved, ← moved]
  exact ⟨rfl, offset_advance_eq behind⟩

theorem number_hexadecimal {letter : Char} (isMark : letter = 'x' ∨ letter = 'X')
    (isRest : lexer.rest = '0' :: letter :: (characters ++ rest)) (all : ∀ character ∈ characters, Radix.hexadecimal.IsDigit character)
    (ends : ∀ character ∈ rest.head?, ¬ Radix.hexadecimal.IsDigit character) :
    lexer.number = (.integer (String.ofList ('0' :: letter :: characters)),
      if characters = [] then
        (lexer.advance ('0' :: letter :: characters).length).lexError "hexadecimal literal has no digits" lexer.offset
      else lexer.advance ('0' :: letter :: characters).length) := by
  obtain ⟨moved, offset⟩ := @advanceWhile_marked lexer characters rest (fun character => (toDigit 16 character).isSome) letter isRest all ends
  have slice := @sliceTo_advance lexer ('0' :: letter :: characters) rest isRest
  rcases isMark with rfl | rfl
  · rw [Lexer.number, isRest]
    simp only [moved, slice, offset]
  · rw [Lexer.number, isRest]
    simp only [moved, slice, offset]

theorem number_octal {letter : Char} (isMark : letter = 'o' ∨ letter = 'O')
    (isRest : lexer.rest = '0' :: letter :: (characters ++ rest)) (all : ∀ character ∈ characters, Radix.octal.IsDigit character)
    (ends : ∀ character ∈ rest.head?, ¬ Radix.octal.IsDigit character) :
    if characters = [] ∨ rest.head?.any Char.isDigit then lexer.number.2.errors ≠ lexer.errors
    else lexer.number = (.integer (String.ofList ('0' :: letter :: characters)), lexer.advance ('0' :: letter :: characters).length) := by
  obtain ⟨moved, offset⟩ := @advanceWhile_marked lexer characters rest (fun character => (toDigit 8 character).isSome) letter isRest all ends
  have slice := @sliceTo_advance lexer ('0' :: letter :: characters) rest isRest
  have behind : (lexer.advance ('0' :: letter :: characters).length).rest = rest := by
    rw [Lexer.advance_rest, isRest]
    exact List.drop_left ..
  have equation : lexer.number = if characters = [] ∨ rest.head?.any Char.isDigit then
      let after := lexer.advance ('0' :: letter :: characters).length
      let after := if rest.head?.any Char.isDigit then after.advance 1 else after
      (.integer (String.ofList (lexer.sliceTo after)), after.lexError "invalid octal literal" lexer.offset)
      else (.integer (String.ofList ('0' :: letter :: characters)), lexer.advance ('0' :: letter :: characters).length) := by
    rcases isMark with rfl | rfl
    · rw [Lexer.number, isRest]
      simp only [moved, slice, offset, behind]
    · rw [Lexer.number, isRest]
      simp only [moved, slice, offset, behind]
  rw [equation]
  split
  · dsimp only
    split <;> simp [Lexer.lexError, Lexer.error]
  · rfl

theorem fractionDigits_eq (none_ : ∀ digit rest', lexer.rest = '.' :: digit :: rest' → digit.isDigit = false) :
    lexer.fractionDigits = (false, lexer) := by
  rw [Lexer.fractionDigits]
  split
  next digit rest' isRest => rw [none_ digit rest' isRest]; rfl
  next => rfl

theorem exponent_eq (start : ℕ) (none_ : ∀ character ∈ lexer.rest.head?, character ≠ 'e' ∧ character ≠ 'E') :
    lexer.exponent start = (false, lexer) := by
  rw [Lexer.exponent]
  split
  next isRest => exact absurd rfl (none_ 'e' (by rw [isRest]; rfl)).1
  next isRest => exact absurd rfl (none_ 'E' (by rw [isRest]; rfl)).2
  next => rfl

theorem exponent_fst (start : ℕ) {character : Char} (isRest : lexer.rest = character :: rest) (isMark : character = 'e' ∨ character = 'E') :
    (lexer.exponent start).1 = true := by
  rcases isMark with rfl | rfl
  · rw [Lexer.exponent, isRest]
    rfl
  · rw [Lexer.exponent, isRest]
    rfl

/-- A number without a prefix. -/
theorem number_decimal (isRest : lexer.rest = characters ++ rest) (all : ∀ character ∈ characters, Radix.decimal.IsDigit character)
    (ends : ∀ character ∈ rest.head?, ¬ Radix.decimal.IsDigit character)
    (plain : ∀ letter rest', lexer.rest = '0' :: letter :: rest' → letter ∉ ['x', 'X', 'o', 'O']) :
    lexer.number =
      let (fraction, after) := (lexer.advance characters.length).fractionDigits
      let (exponent, after) := after.exponent lexer.offset
      let raw := String.ofList (lexer.sliceTo after)
      (if fraction || exponent then .fraction raw else .integer raw, after) := by
  have same (character : Char) : Radix.decimal.IsDigit character ↔ character.isDigit = true := by
    rw [Radix.IsDigit, Radix.base, isSome_toDigit_ten]
  have moved : lexer.advanceWhile Char.isDigit = lexer.advance characters.length :=
    advanceWhile_eq isRest (fun character member => (same character).mp (all character member))
      fun character first => (same character).not.mp (ends character first)
  rw [Lexer.number, ← moved]
  dsimp only
  split
  next rest' marked => exact absurd (by simp) (plain 'x' rest' marked)
  next rest' marked => exact absurd (by simp) (plain 'X' rest' marked)
  next rest' marked => exact absurd (by simp) (plain 'o' rest' marked)
  next rest' marked => exact absurd (by simp) (plain 'O' rest' marked)
  next => rfl

/-- A literal is read as it is. -/
theorem number_text (literal : IntegerLiteral) (ends : literal.Ends rest) (isRest : lexer.rest = literal.text ++ rest) :
    lexer.number = (.integer (String.ofList literal.text), lexer.advance literal.text.length) := by
  obtain ⟨radix, mark, isMark, digits, nonempty, valid⟩ := literal
  cases radix with
  | hexadecimal =>
    have read {letter : Char} (isLetter : letter = 'x' ∨ letter = 'X') (isRest : lexer.rest = '0' :: letter :: (digits ++ rest)) :
        lexer.number = (.integer (String.ofList ('0' :: letter :: digits)), lexer.advance ('0' :: letter :: digits).length) := by
      rw [number_hexadecimal isLetter isRest valid ends.digit, if_neg nonempty]
    rcases List.mem_pair.mp isMark with rfl | rfl
    · exact read (.inl rfl) isRest
    · exact read (.inr rfl) isRest
  | octal =>
    have more : rest.head?.any Char.isDigit = false := by
      cases first : rest.head? with
      | none => rfl
      | some character => exact ends.octal rfl character first
    have read {letter : Char} (isLetter : letter = 'o' ∨ letter = 'O') (isRest : lexer.rest = '0' :: letter :: (digits ++ rest)) :
        lexer.number = (.integer (String.ofList ('0' :: letter :: digits)), lexer.advance ('0' :: letter :: digits).length) := by
      have equation := number_octal isLetter isRest valid ends.digit
      rwa [if_neg (by simp [nonempty, more])] at equation
    rcases List.mem_pair.mp isMark with rfl | rfl
    · exact read (.inl rfl) isRest
    · exact read (.inr rfl) isRest
  | decimal =>
    obtain rfl := List.mem_singleton.mp isMark
    have isRest : lexer.rest = digits ++ rest := isRest
    have behind : (lexer.advance digits.length).rest = rest := by rw [Lexer.advance_rest, isRest, List.drop_left]
    have plain (letter : Char) (rest' : List Char) (marked : lexer.rest = '0' :: letter :: rest') : letter ∉ ['x', 'X', 'o', 'O'] := by
      rw [isRest] at marked
      match digits, nonempty with
      | [digit], _ =>
        obtain ⟨rfl, rfl⟩ := List.cons.inj marked
        exact ends.mark rfl rfl letter rfl
      | first :: second :: digits, _ =>
        obtain ⟨rfl, inner⟩ := List.cons.inj marked
        obtain ⟨rfl, -⟩ := List.cons.inj inner
        intro member
        have wrong : Radix.decimal.IsDigit second := valid second (by simp)
        rw [Radix.IsDigit, Radix.base, isSome_toDigit_ten] at wrong
        rcases List.mem_cons.mp member with rfl | member
        · cases wrong
        · simp only [List.mem_cons, List.not_mem_nil, or_false] at member
          rcases member with rfl | rfl | rfl <;> cases wrong
    rw [number_decimal isRest valid ends.digit plain, fractionDigits_eq fun digit rest' here => ends.fraction rfl digit rest' (behind ▸ here)]
    dsimp only
    rw [exponent_eq _ fun character first => ends.exponent rfl character (behind ▸ first)]
    dsimp only
    rw [sliceTo_advance isRest]
    rfl

/-- The text is a literal of the source, as long as it goes. -/
def Delimits (lexer : Lexer) (text : String) (after : Lexer) : Prop :=
  ∃ literal : IntegerLiteral, text = String.ofList literal.text ∧ lexer.rest = literal.text ++ after.rest ∧ literal.Ends after.rest

variable {text : String} {after : Lexer}

theorem exists_marked {letter : Char} {tail : List Char} (isRest : lexer.rest = '0' :: letter :: tail) (radix : Radix) :
    ∃ characters rest, lexer.rest = '0' :: letter :: (characters ++ rest) ∧ (∀ character ∈ characters, radix.IsDigit character) ∧
      (∀ character ∈ rest.head?, ¬ radix.IsDigit character) := by
  obtain ⟨characters, rest, split, all, ends⟩ := exists_advanceWhile (lexer.advance 2) fun character => (toDigit radix.base character).isSome
  rw [Lexer.advance_rest, isRest] at split
  exact ⟨characters, rest, by rw [isRest, ← split]; rfl, all, ends⟩

theorem delimits_hexadecimal {letter : Char} {tail : List Char} (isMark : letter = 'x' ∨ letter = 'X')
    (isRest : lexer.rest = '0' :: letter :: tail) (read : lexer.number = (.integer text, after)) (accepted : after.errors = lexer.errors) :
    Delimits lexer text after := by
  obtain ⟨characters, rest, split, all, ends⟩ := exists_marked isRest .hexadecimal
  rw [number_hexadecimal isMark split all ends, Prod.mk.injEq, TokenKind.integer.injEq] at read
  obtain ⟨rfl, rfl⟩ := read
  by_cases empty : characters = []
  · simp [empty, Lexer.lexError, Lexer.error] at accepted
  · have mark : ['0', letter] ∈ Radix.hexadecimal.marks := by rcases isMark with rfl | rfl <;> decide
    have behind : (lexer.advance ('0' :: letter :: characters).length).rest = rest := by
      rw [Lexer.advance_rest, split]
      exact List.drop_left ..
    rw [if_neg empty, Delimits, behind]
    exact ⟨⟨.hexadecimal, ['0', letter], mark, characters, empty, all⟩, rfl, split, ends, nofun, nofun, nofun, nofun⟩

theorem delimits_octal {letter : Char} {tail : List Char} (isMark : letter = 'o' ∨ letter = 'O')
    (isRest : lexer.rest = '0' :: letter :: tail) (read : lexer.number = (.integer text, after)) (accepted : after.errors = lexer.errors) :
    Delimits lexer text after := by
  obtain ⟨characters, rest, split, all, ends⟩ := exists_marked isRest .octal
  have equation := number_octal isMark split all ends
  by_cases bad : characters = [] ∨ rest.head?.any Char.isDigit
  · rw [if_pos bad, read] at equation
    exact absurd accepted equation
  · rw [if_neg bad, read, Prod.mk.injEq, TokenKind.integer.injEq] at equation
    obtain ⟨rfl, rfl⟩ := equation
    obtain ⟨nonempty, more⟩ := not_or.mp bad
    have mark : ['0', letter] ∈ Radix.octal.marks := by rcases isMark with rfl | rfl <;> decide
    have behind : (lexer.advance ('0' :: letter :: characters).length).rest = rest := by
      rw [Lexer.advance_rest, split]
      exact List.drop_left ..
    have last (character : Char) (first : character ∈ rest.head?) : character.isDigit = false := by
      rw [Option.mem_def.mp first] at more
      simpa using more
    rw [Delimits, behind]
    exact ⟨⟨.octal, ['0', letter], mark, characters, nonempty, all⟩, rfl, split, ends, fun _ => last, nofun, nofun, nofun⟩

theorem delimits_decimal (digit : lexer.rest.head?.any Char.isDigit = true)
    (plain : ∀ letter rest', lexer.rest = '0' :: letter :: rest' → letter ∉ ['x', 'X', 'o', 'O'])
    (read : lexer.number = (.integer text, after)) : Delimits lexer text after := by
  obtain ⟨characters, rest, split, all, ends⟩ := exists_advanceWhile lexer fun character => (toDigit 10 character).isSome
  have nonempty : characters ≠ [] := by
    rintro rfl
    rw [split, List.nil_append] at digit
    cases rest with
    | nil => cases digit
    | cons character rest =>
      exact ends character rfl ((isSome_toDigit_ten character).trans digit)
  have behind : (lexer.advance characters.length).rest = rest := by rw [Lexer.advance_rest, split, List.drop_left]
  rw [number_decimal split all ends plain] at read
  have fraction (digit : Char) (rest' : List Char) (here : rest = '.' :: digit :: rest') : digit.isDigit = false := by
    by_contra isDigit
    rw [Lexer.fractionDigits, behind, here] at read
    simp only [Bool.not_eq_false] at isDigit
    simp [isDigit] at read
  rw [fractionDigits_eq fun digit rest' here => fraction digit rest' (behind ▸ here)] at read
  have exponent (character : Char) (first : character ∈ rest.head?) : character ≠ 'e' ∧ character ≠ 'E' := by
    rw [← not_or]
    intro isMark
    obtain ⟨rest', rfl⟩ := List.head?_eq_some_iff.mp first
    have kind := congrArg Prod.fst read
    dsimp only at kind
    rw [exponent_fst _ behind isMark] at kind
    cases kind
  dsimp only at read
  rw [exponent_eq _ fun character first => exponent character (behind ▸ first)] at read
  dsimp only at read
  rw [sliceTo_advance split] at read
  simp only [Bool.or_self, Bool.false_eq_true, ↓reduceIte, Prod.mk.injEq, TokenKind.integer.injEq] at read
  obtain ⟨rfl, rfl⟩ := read
  rw [Delimits, behind]
  refine ⟨⟨.decimal, [], List.mem_singleton.mpr rfl, characters, nonempty, all⟩, rfl, split, ends, (by rintro ⟨⟩), fun _ => fraction,
    fun _ => exponent, fun _ (zero : characters = ['0']) character first => ?_⟩
  obtain ⟨rest', rfl⟩ := List.head?_eq_some_iff.mp first
  exact plain character rest' (by rw [split, zero]; rfl)

/-- What is read without an error as an integer is a literal, as long as it goes. -/
theorem number_delimits (digit : lexer.rest.head?.any Char.isDigit = true) (read : lexer.number = (.integer text, after))
    (accepted : after.errors = lexer.errors) : Delimits lexer text after := by
  by_cases hexadecimal : ∃ letter tail, (letter = 'x' ∨ letter = 'X') ∧ lexer.rest = '0' :: letter :: tail
  · obtain ⟨letter, tail, isMark, isRest⟩ := hexadecimal
    exact delimits_hexadecimal isMark isRest read accepted
  · by_cases octal : ∃ letter tail, (letter = 'o' ∨ letter = 'O') ∧ lexer.rest = '0' :: letter :: tail
    · obtain ⟨letter, tail, isMark, isRest⟩ := octal
      exact delimits_octal isMark isRest read accepted
    · refine delimits_decimal digit (fun letter rest' isRest member => ?_) read
      simp only [List.mem_cons, List.not_mem_nil, or_false] at member
      rcases member with rfl | rfl | rfl | rfl
      · exact hexadecimal ⟨_, _, .inl rfl, isRest⟩
      · exact hexadecimal ⟨_, _, .inr rfl, isRest⟩
      · exact octal ⟨_, _, .inl rfl, isRest⟩
      · exact octal ⟨_, _, .inr rfl, isRest⟩

end Lexer

/-- Every integer token is a literal that ends where the lexer says, and its value is the number of the literal modulo `2 ^ 64`. -/
theorem integer_literals_wrap :
    (∀ literal : IntegerLiteral, ∃ value : Int64, parseWrappingInt literal.text = some value ∧
      value.toInt = (literal.number : ℤ).bmod (2 ^ 64)) ∧
    (∀ (literal : IntegerLiteral) (lexer : Lexer) (rest : List Char), literal.Ends rest → lexer.rest = literal.text ++ rest →
      lexer.number = (.integer (String.ofList literal.text), lexer.advance literal.text.length)) ∧
    (∀ (lexer after : Lexer) (text : String), lexer.rest.head?.any Char.isDigit = true → lexer.number = (.integer text, after) →
      after.errors = lexer.errors → ∃ literal : IntegerLiteral, text = String.ofList literal.text ∧
        lexer.rest = literal.text ++ after.rest ∧ literal.Ends after.rest) := by
  refine ⟨fun literal => ?_, fun literal lexer rest ends isRest => number_text literal ends isRest,
    fun lexer after text digit read accepted => number_delimits digit read accepted⟩
  exact ⟨_, parseWrappingInt_text literal, Int64.toInt_ofNat'⟩

example : (parseWrappingInt "0xFFFFffffFFFFffff1".toList).map Int64.toInt = some (-15) := by decide

end HellRs.Compiler
