import HellRs.Json.Numeral

/-! # Reading JSON numbers

Each part of the number parser takes exactly the texts of its part of the grammar. Together they make the parser accept a
numeral when its machine integers fit, with the coefficient and the exponent of the numeral.
-/

namespace HellRs.Json

namespace Parser

@[simp] theorem take_cons_self (expected : Char) (text : List Char) : take expected (expected :: text) = (true, text) :=
  if_pos rfl

theorem take_of_ne {expected : Char} {text : List Char} (other : text.head? ≠ some expected) :
    take expected text = (false, text) := if_neg other

theorem take_true {expected : Char} {text rest : List Char} (taken : take expected text = (true, rest)) :
    text = expected :: rest := by
  unfold take at taken
  split at taken
  next first =>
    obtain ⟨tail, rfl⟩ := List.head?_eq_some_iff.mp first
    rw [← (Prod.mk.inj taken).2, List.tail_cons]
  next => cases (Prod.mk.inj taken).1

theorem take_false {expected : Char} {text rest : List Char} (left : take expected text = (false, rest)) :
    rest = text ∧ text.head? ≠ some expected := by
  unfold take at left
  split at left
  next => cases (Prod.mk.inj left).1
  next other => exact ⟨(Prod.mk.inj left).2.symm, other⟩

theorem peekDigit_eq_false_iff {text : List Char} :
    peekDigit text = false ↔ ∀ character ∈ text.head?, character.isDigit = false := by
  cases text <;> simp [peekDigit]

theorem peekDigit_run {chars : List Char} (run : DigitRun chars) (rest : List Char) : peekDigit (chars ++ rest) = true := by
  obtain ⟨nonempty, areDigits⟩ := run
  cases chars with
  | nil => exact absurd rfl nonempty
  | cons first chars => exact areDigits first List.mem_cons_self

theorem head?_run_ne {chars : List Char} (run : DigitRun chars) (rest : List Char) {character : Char}
    (other : character.isDigit = false) : (chars ++ rest).head? ≠ some character := by
  intro first
  have digit := peekDigit_run run rest
  obtain ⟨tail, equal⟩ := List.head?_eq_some_iff.mp first
  rw [equal] at digit
  exact Bool.false_ne_true (other.symm.trans digit)

/-- The longest run of digits, and the text behind it. -/
theorem split_digits {chars rest : List Char} (areDigits : ∀ character ∈ chars, character.isDigit = true)
    (ends : peekDigit rest = false) :
    (chars ++ rest).takeWhile Char.isDigit = chars ∧ (chars ++ rest).dropWhile Char.isDigit = rest := by
  have stops : rest.takeWhile Char.isDigit = [] ∧ rest.dropWhile Char.isDigit = rest := by
    cases rest with
    | nil => exact ⟨rfl, rfl⟩
    | cons first rest =>
      have other : first.isDigit = false := ends
      simp [other]
  rw [List.takeWhile_append_of_pos areDigits, List.dropWhile_append_of_pos areDigits, stops.1, stops.2, List.append_nil]
  exact ⟨rfl, rfl⟩

theorem peekDigit_dropWhile (text : List Char) : peekDigit (text.dropWhile Char.isDigit) = false := by
  induction text with
  | nil => rfl
  | cons first text ih =>
    cases isDigit : first.isDigit with
    | true => rwa [List.dropWhile_cons_of_pos isDigit]
    | false =>
      rw [List.dropWhile_cons_of_neg (by simp [isDigit])]
      exact isDigit

theorem takeWhile_areDigits (text : List Char) : ∀ character ∈ text.takeWhile Char.isDigit, character.isDigit = true :=
  List.all_eq_true.mp List.all_takeWhile

theorem run_takeWhile {text : List Char} (digit : peekDigit text = true) : DigitRun (text.takeWhile Char.isDigit) := by
  refine ⟨?_, takeWhile_areDigits text⟩
  cases text with
  | nil => cases digit
  | cons first text =>
    rw [List.takeWhile_cons_of_pos (show first.isDigit = true from digit)]
    exact List.cons_ne_nil _ _

/-- The integer digits are a run without a leading zero. -/
theorem integerDigits_iff {text digits rest : List Char} : integerDigits text = some (digits, rest) ↔
    text = digits ++ rest ∧ peekDigit rest = false ∧ DigitRun digits ∧ (digits.head? = some '0' → digits = ['0']) := by
  constructor
  · intro found
    unfold integerDigits at found
    split at found
    next following =>
      split at found
      next => cases found
      next ends =>
        cases found
        exact ⟨rfl, by simpa using ends, ⟨nofun, by simp⟩, fun _ => rfl⟩
    next first following notZero =>
      split at found
      next isDigit =>
        cases found
        refine ⟨by simp, peekDigit_dropWhile following, ⟨nofun, ?_⟩, ?_⟩
        · simp only [List.mem_cons, forall_eq_or_imp]
          exact ⟨isDigit, takeWhile_areDigits following⟩
        · intro zero
          exact absurd (Option.some.inj zero) (by rintro rfl; exact notZero rfl)
      next => cases found
    next => cases found
  · rintro ⟨rfl, ends, ⟨nonempty, areDigits⟩, noLeadingZero⟩
    cases digits with
    | nil => exact absurd rfl nonempty
    | cons first digits =>
      simp only [List.mem_cons, forall_eq_or_imp] at areDigits
      by_cases zero : first = '0'
      · subst zero
        obtain rfl : digits = [] := List.tail_eq_of_cons_eq (noLeadingZero rfl)
        simp only [List.singleton_append, integerDigits, ends, Bool.false_eq_true, if_false]
      · obtain ⟨took, dropped⟩ := split_digits areDigits.2 ends
        rw [List.cons_append, integerDigits.eq_2 _ _ (fun equal => zero equal), if_pos areDigits.1, took, dropped]

/-- A fraction is a point and a run of digits. -/
theorem fractionDigits_some {text digits rest : List Char} :
    fractionDigits text = some (some digits, rest) ↔ text = '.' :: digits ++ rest ∧ peekDigit rest = false ∧ DigitRun digits := by
  constructor
  · intro found
    cases taken : take '.' text with
    | mk point following =>
      simp only [fractionDigits, taken] at found
      cases point with
      | false => cases found
      | true =>
        cases digit : peekDigit following with
        | false => simp only [digit, if_true] at found; cases found
        | true =>
          simp only [digit, if_true] at found
          cases found
          rw [take_true taken]
          exact ⟨by simp, peekDigit_dropWhile following, run_takeWhile digit⟩
  · rintro ⟨rfl, ends, run⟩
    obtain ⟨took, dropped⟩ := split_digits run.2 ends
    simp only [fractionDigits, List.cons_append, take_cons_self, peekDigit_run run, if_true, took, dropped]

theorem fractionDigits_none {text rest : List Char} :
    fractionDigits text = some (none, rest) ↔ rest = text ∧ text.head? ≠ some '.' := by
  constructor
  · intro found
    cases taken : take '.' text with
    | mk point following =>
      simp only [fractionDigits, taken] at found
      cases point with
      | false =>
        cases found
        exact take_false taken
      | true =>
        simp only [if_true] at found
        split at found <;> cases found
  · rintro ⟨rfl, other⟩
    simp only [fractionDigits, take_of_ne other, Bool.false_eq_true, if_false]

/-- The loop over the digits of an exponent computes their value, and every intermediate value fits if the last one does. -/
theorem exponentDigits_run {digits rest : List Char} (areDigits : ∀ character ∈ digits, character.isDigit = true)
    (ends : peekDigit rest = false) (initial : I64) (nonneg : 0 ≤ initial.val) :
    exponentDigits initial (digits ++ rest) =
      (checked (Nat.ofDigitChars 10 digits initial.val.toNat)).map fun exponent => (exponent, rest) := by
  induction digits generalizing initial with
  | nil =>
    rw [List.nil_append, Nat.ofDigitChars_nil, Int.toNat_of_nonneg nonneg, checked_val, Option.map_some]
    cases rest with
    | nil => rfl
    | cons first rest => exact if_neg (by simpa [peekDigit] using ends)
  | cons digit digits ih =>
    simp only [List.mem_cons, forall_eq_or_imp] at areDigits
    rw [List.cons_append, exponentDigits, if_pos areDigits.1, Nat.ofDigitChars_cons]
    generalize digit.toNat - '0'.toNat = ones
    have lower := le_ofDigitChars digits (10 * initial.val.toNat + ones)
    have least : i64Min ≤ 0 := by decide
    cases times : checked (initial.val * 10) with
    | none =>
      have exceeds := checked_eq_none_iff.mp times
      rw [checked_eq_none_iff.mpr (by omega)]
      rfl
    | some tens =>
      have tensValue := checked_eq_some_iff.mp times
      cases plus : checked (tens.val + ones) with
      | none =>
        have exceeds := checked_eq_none_iff.mp plus
        rw [checked_eq_none_iff.mpr (by omega)]
        simp only [Option.bind_eq_bind, Option.bind_some, plus, Option.bind_none, Option.map_none]
      | some sum =>
        have sumValue := checked_eq_some_iff.mp plus
        simp only [Option.bind_eq_bind, Option.bind_some, plus]
        rw [ih areDigits.2 sum (by omega), show sum.val.toNat = 10 * initial.val.toNat + ones by omega]

/-- An exponent is read to its value when its digits fit. -/
theorem explicitExponent_text (exponent : Exponent) {rest : List Char} (ends : peekDigit rest = false) :
    explicitExponent (exponent.text ++ rest) = (do
      let magnitude ← checked exponent.digits.value
      let explicit ← checked (exponent.sign.apply magnitude.val)
      some (explicit, rest)) := by
  have marked : (exponent.text ++ rest).head? = some 'e' ∨ (exponent.text ++ rest).head? = some 'E' := by
    simp only [Exponent.text, List.cons_append, List.head?_cons, Option.some.injEq]
    cases exponent.upper <;> simp
  have run := exponent.digits.run
  have digit : peekDigit (exponent.digits.chars ++ rest) = true := peekDigit_run run rest
  have loop : exponentDigits ⟨0, by decide⟩ (exponent.digits.chars ++ rest) =
      (checked exponent.digits.value).map fun magnitude => (magnitude, rest) :=
    exponentDigits_run run.2 ends _ le_rfl
  have notSign (character : Char) (other : character.isDigit = false) :
      (exponent.digits.chars ++ rest).head? ≠ some character := head?_run_ne run rest other
  rw [explicitExponent, if_pos marked]
  simp only [Exponent.text, List.cons_append, List.tail_cons, List.append_assoc]
  cases exponent.sign with
  | none =>
    simp only [ExponentSign.text, List.nil_append, take_of_ne (notSign '-' (by decide)),
      take_of_ne (notSign '+' (by decide)), Bool.false_eq_true, if_false, digit, if_true, loop, ExponentSign.apply]
    cases checked (exponent.digits.value : ℤ) <;> simp
  | plus =>
    have notMinus : ('+' :: (exponent.digits.chars ++ rest)).head? ≠ some '-' := by simp
    simp only [ExponentSign.text, List.cons_append, List.nil_append, take_of_ne notMinus, take_cons_self,
      Bool.false_eq_true, if_false, digit, if_true, loop, ExponentSign.apply]
    cases checked (exponent.digits.value : ℤ) <;> simp
  | minus =>
    simp only [ExponentSign.text, List.cons_append, List.nil_append, take_cons_self, if_true, digit, loop,
      ExponentSign.apply]
    cases checked (exponent.digits.value : ℤ) <;> simp

/-- Without a marker there is no exponent, and behind a marker an exponent is read. -/
theorem explicitExponent_sound {text rest : List Char} {value : I64} (found : explicitExponent text = some (value, rest)) :
    (rest = text ∧ text.head? ≠ some 'e' ∧ text.head? ≠ some 'E') ∨
      ∃ exponent : Exponent, text = exponent.text ++ rest ∧ peekDigit rest = false := by
  unfold explicitExponent at found
  split at found
  next marked =>
    right
    obtain ⟨upper, following, rfl⟩ : ∃ (upper : Bool) (following : List Char), text = (if upper then 'E' else 'e') :: following := by
      rcases marked with lower | upper
      · obtain ⟨following, equal⟩ := List.head?_eq_some_iff.mp lower
        exact ⟨false, following, equal⟩
      · obtain ⟨following, equal⟩ := List.head?_eq_some_iff.mp upper
        exact ⟨true, following, equal⟩
    obtain ⟨sign, digits, rfl, digit⟩ : ∃ sign digits, following = ExponentSign.text sign ++ digits ∧
        ∃ value', peekDigit digits = true ∧ exponentDigits ⟨0, by decide⟩ digits = some (value', rest) := by
      simp only [List.tail_cons] at found
      cases minus : take '-' following with
      | mk negative behind =>
        simp only [minus] at found
        cases negative with
        | true =>
          simp only [if_true] at found
          split at found
          next digit =>
            simp only [Option.bind_eq_bind, Option.bind_eq_some_iff] at found
            obtain ⟨⟨magnitude, rest'⟩, loop, _, _, equal⟩ := found
            cases equal
            exact ⟨.minus, behind, take_true minus, magnitude, digit, loop⟩
          next => cases found
        | false =>
          simp only [Bool.false_eq_true, if_false] at found
          split at found
          next digit =>
            simp only [Option.bind_eq_bind, Option.bind_eq_some_iff] at found
            obtain ⟨⟨magnitude, rest'⟩, loop, _, _, equal⟩ := found
            cases equal
            obtain ⟨rfl, -⟩ := take_false minus
            cases plus : take '+' behind with
            | mk positive digits =>
              rw [plus] at digit loop
              cases positive with
              | true => exact ⟨.plus, digits, take_true plus, magnitude, digit, loop⟩
              | false => exact ⟨.none, digits, (take_false plus).1.symm, magnitude, digit, loop⟩
          next => cases found
    obtain ⟨magnitude, digit, loop⟩ := digit
    have split := List.takeWhile_append_dropWhile (p := Char.isDigit) (l := digits)
    have ends := peekDigit_dropWhile digits
    have run := run_takeWhile digit
    rw [← split, exponentDigits_run run.2 ends _ le_rfl] at loop
    obtain ⟨_, _, equal⟩ := Option.map_eq_some_iff.mp loop
    obtain ⟨-, rfl⟩ := Prod.mk.inj equal
    refine ⟨⟨upper, sign, ⟨digits.takeWhile Char.isDigit, run⟩⟩, ?_, ends⟩
    simp only [Exponent.text, List.cons_append, List.append_assoc, split]
  next unmarked =>
    cases found
    exact .inl ⟨rfl, not_or.mp unmarked⟩

theorem parseInteger_digits (negative : Bool) {digits : List Char} (run : DigitRun digits) :
    JsonNumber.parseInteger ((if negative then ['-'] else []) ++ digits) =
      some (if negative then -(Nat.ofDigitChars 10 digits 0 : ℤ) else (Nat.ofDigitChars 10 digits 0 : ℤ)) := by
  have accepted : (digits.isEmpty || !digits.all Char.isDigit) = false := by
    rw [List.all_eq_true.mpr run.2, List.isEmpty_eq_false_iff.mpr run.1]
    rfl
  cases negative with
  | true => simp only [JsonNumber.parseInteger, if_true, List.cons_append, List.nil_append, accepted, Bool.false_eq_true, if_false]
  | false =>
    cases digits with
    | nil => exact absurd rfl run.1
    | cons first digits =>
      have isDigit := run.2 first List.mem_cons_self
      have notMinus : first ≠ '-' := by rintro rfl; cases isDigit
      have notPlus : first ≠ '+' := by rintro rfl; cases isDigit
      unfold JsonNumber.parseInteger
      split
      next negative' digits' equal =>
        split at equal
        next minus => exact absurd (List.cons.inj minus).1 notMinus
        next plus => exact absurd (List.cons.inj plus).1 notPlus
        next =>
          cases equal
          simp only [Bool.false_eq_true, if_false, List.nil_append, accepted]

section Behind

variable {fraction : Option Digits} {exponent : Option Exponent} {rest : List Char}

/-- What stands behind the integer digits of a numeral. -/
def behindInteger (fraction : Option Digits) (exponent : Option Exponent) (rest : List Char) : List Char :=
  (fraction.elim [] fun digits => '.' :: digits.chars) ++ (exponent.elim [] Exponent.text ++ rest)

theorem peekDigit_exponent (exponent : Exponent) (rest : List Char) : peekDigit (exponent.text ++ rest) = false := by
  obtain ⟨upper, sign, digits⟩ := exponent
  cases upper <;> rfl

theorem peekDigit_behindFraction (ends : peekDigit rest = false) :
    peekDigit (exponent.elim [] Exponent.text ++ rest) = false := by
  cases exponent with
  | none => exact ends
  | some exponent => exact peekDigit_exponent exponent rest

theorem peekDigit_behindInteger (ends : peekDigit rest = false) : peekDigit (behindInteger fraction exponent rest) = false := by
  cases fraction with
  | none => exact peekDigit_behindFraction ends
  | some digits => rfl

theorem head?_behindFraction_ne (ends : exponent = none → rest.head? ≠ some '.') :
    (exponent.elim [] Exponent.text ++ rest).head? ≠ some '.' := by
  cases exponent with
  | none => exact ends rfl
  | some exponent =>
    obtain ⟨upper, sign, digits⟩ := exponent
    cases upper <;> exact fun equal => by cases equal

end Behind

/-- The parser makes of a numeral what its machine integers allow. -/
theorem number_text (numeral : Numeral) {rest : List Char} (ends : numeral.Ends rest) :
    number (numeral.text ++ rest) = numeral.read.map fun result => (result, rest) := by
  obtain ⟨negative, integer, noLeadingZero, fraction, exponent⟩ := numeral
  obtain ⟨digitEnds, exponentEnds, pointEnds⟩ := ends
  -- the text behind the integer digits, and the text behind the fraction
  have signed : take '-' ((if negative then ['-'] else []) ++ (integer.chars ++ behindInteger fraction exponent rest)) =
      (negative, integer.chars ++ behindInteger fraction exponent rest) := by
    cases negative with
    | true => exact take_cons_self _ _
    | false => exact take_of_ne (head?_run_ne integer.run _ (by decide))
  have whole : integerDigits (integer.chars ++ behindInteger fraction exponent rest) =
      some (integer.chars, behindInteger fraction exponent rest) :=
    integerDigits_iff.mpr ⟨rfl, peekDigit_behindInteger digitEnds, integer.run, noLeadingZero⟩
  have places : fractionDigits (behindInteger fraction exponent rest) =
      some (fraction.map Digits.chars, exponent.elim [] Exponent.text ++ rest) := by
    cases fraction with
    | none => exact fractionDigits_none.mpr ⟨rfl, head?_behindFraction_ne fun none => pointEnds rfl none⟩
    | some digits => exact fractionDigits_some.mpr ⟨by simp [behindInteger], peekDigit_behindFraction digitEnds, digits.run⟩
  have power : explicitExponent (exponent.elim [] Exponent.text ++ rest) = (do
      let magnitude ← checked (exponent.elim 0 fun exponent => (exponent.digits.value : ℤ))
      let explicit ← checked (exponent.elim 0 fun exponent => exponent.sign.apply magnitude.val)
      some (explicit, rest)) := by
    cases exponent with
    | none =>
      rw [Option.elim_none, List.nil_append, explicitExponent, if_neg (not_or.mpr (exponentEnds rfl))]
      rfl
    | some exponent => exact explicitExponent_text exponent digitEnds
  have length : (fraction.map Digits.chars).elim 0 List.length = (fraction.elim [] Digits.chars).length := by
    cases fraction <;> rfl
  have coefficient : JsonNumber.parseInteger
      ((if negative then ['-'] else []) ++ integer.chars ++ (fraction.map Digits.chars).getD []) =
      some (Numeral.coefficient ⟨negative, integer, noLeadingZero, fraction, exponent⟩) := by
    have run : DigitRun (integer.chars ++ fraction.elim [] Digits.chars) :=
      integer.run.append (by cases fraction with | none => nofun | some digits => exact digits.run.2)
    rw [List.append_assoc, show (fraction.map Digits.chars).getD [] = fraction.elim [] Digits.chars by cases fraction <;> rfl]
    exact parseInteger_digits negative run
  have text : Numeral.text ⟨negative, integer, noLeadingZero, fraction, exponent⟩ ++ rest =
      (if negative then ['-'] else []) ++ (integer.chars ++ behindInteger fraction exponent rest) := by
    simp only [Numeral.text, Numeral.sign, behindInteger, List.append_assoc]
  have lexeme : (Numeral.text ⟨negative, integer, noLeadingZero, fraction, exponent⟩ ++ rest).take
      ((Numeral.text ⟨negative, integer, noLeadingZero, fraction, exponent⟩ ++ rest).length - rest.length) =
      Numeral.text ⟨negative, integer, noLeadingZero, fraction, exponent⟩ := by
    rw [List.length_append, Nat.add_sub_cancel, List.take_left]
  rw [← text] at signed
  simp only [number, signed, whole, places, power, length, coefficient, Option.bind_eq_bind, Option.bind_some,
    Numeral.read, Numeral.fractionChars]
  cases checked (exponent.elim 0 fun exponent => (exponent.digits.value : ℤ)) with
  | none => rfl
  | some magnitude =>
    simp only [Option.bind_some]
    cases checked (exponent.elim 0 fun exponent => exponent.sign.apply magnitude.val) with
    | none => rfl
    | some explicit =>
      simp only [Option.bind_some]
      cases checked ((fraction.elim [] Digits.chars).length : ℤ) with
      | none => rfl
      | some fractionLength =>
        simp only [Option.bind_some]
        cases checked (explicit.val - fractionLength.val) with
        | none => rfl
        | some exponent10 => simp only [Option.bind_some, Option.map_some, lexeme]

/-- The parser takes numerals only, and it stops where they end. -/
theorem number_sound {text rest : List Char} {result : JsonNumber} (found : number text = some (result, rest)) :
    ∃ numeral : Numeral, text = numeral.text ++ rest ∧ numeral.Ends rest := by
  simp only [number, Option.bind_eq_bind, Option.bind_eq_some_iff] at found
  obtain ⟨⟨integer, integerEnd⟩, whole, ⟨fraction, fractionEnd⟩, places, ⟨exponent, rest'⟩, power,
    _, _, _, _, _, _, equal⟩ := found
  obtain ⟨-, rfl⟩ := Prod.mk.inj (Option.some.inj equal)
  obtain ⟨digitsStart, integerEnds, run, noLeadingZero⟩ := integerDigits_iff.mp whole
  have signed : text = (if (take '-' text).1 then ['-'] else []) ++ (take '-' text).2 := by
    cases taken : take '-' text with
    | mk negative following =>
      cases negative with
      | true => exact take_true taken
      | false => exact (take_false taken).1.symm
  -- the parts of the text, with what stands behind each
  obtain ⟨fraction', fractionText, point⟩ : ∃ fraction' : Option Digits,
      integerEnd = (fraction'.elim [] fun digits => '.' :: digits.chars) ++ fractionEnd ∧
      (fraction' = none → fractionEnd.head? ≠ some '.') := by
    cases fraction with
    | none =>
      obtain ⟨rfl, other⟩ := fractionDigits_none.mp places
      exact ⟨none, rfl, fun _ => other⟩
    | some digits =>
      obtain ⟨rfl, -, run⟩ := fractionDigits_some.mp places
      exact ⟨some ⟨digits, run⟩, rfl, nofun⟩
  have fractionEnds : peekDigit fractionEnd = false := by
    cases fraction with
    | none =>
      obtain ⟨rfl, -⟩ := fractionDigits_none.mp places
      exact integerEnds
    | some digits => exact (fractionDigits_some.mp places).2.1
  rcases explicitExponent_sound power with ⟨rfl, unmarked⟩ | ⟨exponent', rfl, ends⟩
  · refine ⟨⟨(take '-' text).1, ⟨integer, run⟩, noLeadingZero, fraction', none⟩, ?_, fractionEnds, fun _ => unmarked,
      fun none _ => point none⟩
    conv_lhs => rw [signed, digitsStart, fractionText]
    simp [Numeral.text, Numeral.sign]
  · refine ⟨⟨(take '-' text).1, ⟨integer, run⟩, noLeadingZero, fraction', some exponent'⟩, ?_, ends, nofun, fun _ => nofun⟩
    conv_lhs => rw [signed, digitsStart, fractionText]
    simp [Numeral.text, Numeral.sign]

end Parser

end HellRs.Json
