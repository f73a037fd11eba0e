import HellRs.Integer.Arithmetic
import HellRs.Json.Number
import HellRs.Lib.FixedDigits
import HellRs.Lib.Trim

/-! # Integers as decimal text

`BigInteger::parse` reads the digits one by one, and its display writes the limbs one by one. Both go through the decimal
text of the integer: what is displayed is the canonical text, and what is parsed is the integer that the text denotes.
-/

namespace HellRs

namespace BigInteger

/-! The model -/

/-- `multiply_small`, which the parser calls with ten. -/
def multiplySmall (integer : BigInteger) (factor : Limb) (nonzero : factor ≠ 0) : BigInteger where
  negative := integer.negative
  limbs := multiplySmallLoop factor integer.limbs 0
  normal := normal_multiplySmallLoop nonzero integer.normal 0
  signed negative nothing := integer.signed negative (multiplySmallLoop_eq_nil nothing).1

def addSmall (integer : BigInteger) (addend : Limb) : BigInteger where
  negative := integer.negative
  limbs := addSmallLoop integer.limbs addend
  normal := normal_addSmallLoop integer.normal addend
  signed negative nothing := by
    have nonempty := integer.signed negative
    cases limbs : integer.limbs with
    | nil => exact nonempty limbs
    | cons limb rest =>
      rw [limbs] at nothing
      unfold addSmallLoop at nothing
      dsimp only at nothing
      split at nothing <;> cases nothing

/-- The number that a decimal digit writes. -/
def digitLimb (digit : Char) : Limb := Fin.ofNat base (digit.toNat - '0'.toNat)

/-- One round of the loop of `parse`. -/
def pushDigit (integer : BigInteger) (digit : Char) : BigInteger := (integer.multiplySmall 10 (by decide)).addSmall (digitLimb digit)

/-- The sign that `parse` sets, which zero does not take. -/
def withNegative (integer : BigInteger) (negative : Bool) : BigInteger where
  negative := negative && !integer.isZero
  limbs := integer.limbs
  normal := integer.normal
  signed := by simp [isZero]

/-- `strip_prefix` of a sign. -/
def stripSign : List Char → Bool × List Char
  | '-' :: rest => (true, rest)
  | '+' :: rest => (false, rest)
  | input => (false, input)

def parse (input : List Char) : Option BigInteger :=
  let (negative, digits) := stripSign (trim isWhitespace input)
  if digits.isEmpty || !digits.all Char.isDigit then none else some ((digits.foldl pushDigit zero).withNegative negative)

/-- The digits of limbs, the greatest limb first. -/
def displayLimbs : List Limb → List Char
  | [] => ['0']
  | last :: limbs => Nat.toDigits 10 last ++ limbs.flatMap fun (limb : Limb) => zeroPadded 9 limb

def display (integer : BigInteger) : List Char :=
  (if integer.negative then ['-'] else []) ++ displayLimbs integer.limbs.reverse

/-! Displaying -/

theorem displayLimbs_append {limbs : List Limb} (nonempty : limbs ≠ []) (limb : Limb) :
    displayLimbs (limbs ++ [limb]) = displayLimbs limbs ++ zeroPadded 9 limb := by
  cases limbs with
  | nil => exact absurd rfl nonempty
  | cons last limbs => simp only [displayLimbs, List.cons_append, List.flatMap_append, List.flatMap_singleton, List.append_assoc]

theorem displayLimbs_eq {limbs : List Limb} (normal : Normal limbs) : displayLimbs limbs.reverse = Nat.toDigits 10 (magnitude limbs) := by
  induction limbs with
  | nil => rfl
  | cons limb limbs ih =>
    obtain ⟨-, rest⟩ := normal_cons_iff.mp normal
    by_cases nothing : limbs = []
    · rw [nothing, magnitude_singleton]
      simp [displayLimbs]
    · have positive : 0 < magnitude limbs := Nat.pos_of_ne_zero fun none => nothing ((magnitude_eq_zero_iff rest).mp none)
      have fits : (limb : ℕ) < 10 ^ 9 := limb_lt limb
      rw [List.reverse_cons, displayLimbs_append (by simpa using nothing), ih rest, zeroPadded_eq (by decide) fits,
        ← toDigits_split positive fits, magnitude_cons, Nat.add_comm, Nat.mul_comm]
      rfl

/-- The canonical text of the integer is displayed. -/
theorem display_eq (integer : BigInteger) : integer.display = Json.JsonNumber.display integer.value := by
  unfold display Json.JsonNumber.display
  rw [displayLimbs_eq integer.normal, magnitude_eq_natAbs]
  simp only [negative_iff]

/-! Parsing -/

@[simp] theorem value_pushDigit {integer : BigInteger} (positive : integer.negative = false) {digit : Char}
    (isDigit : digit.isDigit = true) : (integer.pushDigit digit).value = integer.value * 10 + (digit.toNat - '0'.toNat : ℕ) := by
  have digitLt := (digitChar_toNat_sub isDigit).2
  have isLimb : (digitLimb digit : ℕ) = digit.toNat - '0'.toNat := Nat.mod_eq_of_lt (by simp only [base]; omega)
  have unsigned : (integer.pushDigit digit).negative = false := positive
  have same : magnitude (integer.pushDigit digit).limbs = magnitude integer.limbs * 10 + digitLimb digit := by
    change magnitude (addSmallLoop (multiplySmallLoop 10 integer.limbs 0) (digitLimb digit)) = _
    rw [magnitude_addSmallLoop, magnitude_multiplySmallLoop]
    rfl
  simp only [value, withSign, unsigned, positive, Bool.false_eq_true, if_false, same, isLimb]
  push_cast
  rfl

theorem value_foldl_pushDigit {digits : List Char} (areDigits : ∀ digit ∈ digits, digit.isDigit = true) {integer : BigInteger} {number : ℕ}
    (same : integer.value = number) : (digits.foldl pushDigit integer).value = Nat.ofDigitChars 10 digits number := by
  induction digits generalizing integer number with
  | nil => simpa using same
  | cons digit digits ih =>
    have positive : integer.negative = false := by
      rw [← Bool.not_eq_true, negative_iff, same]
      omega
    rw [List.foldl_cons, Nat.ofDigitChars_cons]
    refine ih (fun digit member => areDigits digit (List.mem_cons_of_mem _ member)) ?_
    rw [value_pushDigit positive (areDigits digit List.mem_cons_self), same, Nat.mul_comm]
    push_cast
    rfl

theorem value_withNegative {integer : BigInteger} {number : ℕ} (same : integer.value = number) (negative : Bool) :
    (integer.withNegative negative).value = withSign negative number := by
  have isMagnitude : magnitude integer.limbs = number := by rw [magnitude_eq_natAbs, same, Int.natAbs_natCast]
  change withSign (negative && !integer.isZero) (magnitude integer.limbs) = _
  rw [isMagnitude]
  cases isZero : integer.isZero with
  | true =>
    have none : number = 0 := by
      have := (isZero_iff integer).mp isZero
      omega
    rw [none, withSign_zero, withSign_zero]
  | false => simp

/-- The sign of a decimal text. -/
inductive Sign where
  | none
  | plus
  | minus
deriving DecidableEq

namespace Sign

def text : Sign → List Char
  | none => []
  | plus => ['+']
  | minus => ['-']

def negative : Sign → Bool
  | minus => true
  | _ => false

end Sign

/-- The decimal text with blanks, a sign and leading zeros denotes the integer. -/
def Denotes (text : List Char) (number : ℤ) : Prop := ∃ (before : List Char) (sign : Sign) (digits : Digits) (after : List Char),
  text = before ++ (sign.text ++ digits.chars ++ after) ∧ (∀ character ∈ before, isWhitespace character = true) ∧
    (∀ character ∈ after, isWhitespace character = true) ∧ number = withSign sign.negative digits.value

theorem stripSign_sign (sign : Sign) (digits : Digits) : stripSign (sign.text ++ digits.chars) = (sign.negative, digits.chars) := by
  obtain ⟨chars, nonempty, areDigits⟩ := digits
  cases sign with
  | none =>
    cases chars with
    | nil => exact absurd rfl nonempty
    | cons first chars =>
      have isDigit := areDigits first List.mem_cons_self
      change stripSign (first :: chars) = _
      unfold stripSign
      split
      next minus => obtain ⟨rfl, -⟩ := List.cons.inj minus; cases isDigit
      next plus => obtain ⟨rfl, -⟩ := List.cons.inj plus; cases isDigit
      next => rfl
  | plus => rfl
  | minus => rfl

/-- The sign that is stripped. -/
theorem exists_sign (input : List Char) : ∃ sign : Sign, input = sign.text ++ (stripSign input).2 ∧ (stripSign input).1 = sign.negative := by
  unfold stripSign
  split
  next => exact ⟨.minus, rfl, rfl⟩
  next => exact ⟨.plus, rfl, rfl⟩
  next => exact ⟨.none, rfl, rfl⟩

theorem not_isWhitespace_of_isDigit {character : Char} (isDigit : character.isDigit = true) : isWhitespace character = false := by
  have bounds : 48 ≤ character.toNat ∧ character.toNat ≤ 57 := by
    simpa [Char.isDigit, UInt32.le_iff_toNat_le] using isDigit
  unfold isWhitespace
  simp only [Bool.or_eq_false_iff, Bool.and_eq_false_iff, decide_eq_false_iff_not]
  omega

theorem parse_signed (sign : Sign) (digits : Digits) {input : List Char} (trimmed : trim isWhitespace input = sign.text ++ digits.chars) :
    ∃ integer, parse input = some integer ∧ integer.value = withSign sign.negative digits.value := by
  have accepted : (digits.chars.isEmpty || !digits.chars.all Char.isDigit) = false := by
    rw [List.all_eq_true.mpr digits.run.2, List.isEmpty_eq_false_iff.mpr digits.run.1]
    rfl
  unfold parse
  rw [trimmed, stripSign_sign]
  dsimp only
  rw [accepted, if_neg Bool.false_ne_true]
  exact ⟨_, rfl, value_withNegative (value_foldl_pushDigit digits.run.2 (by rw [value_zero]; rfl)) sign.negative⟩

theorem denotes_of_parse {input : List Char} {integer : BigInteger} (parsed : parse input = some integer) :
    Denotes input integer.value := by
  obtain ⟨before, after, split, beforeBlank, afterBlank⟩ := trim_split isWhitespace input
  obtain ⟨sign, signed, isSign⟩ := exists_sign (trim isWhitespace input)
  have run : DigitRun (stripSign (trim isWhitespace input)).2 := by
    unfold parse at parsed
    generalize stripSign (trim isWhitespace input) = parts at parsed ⊢
    obtain ⟨negative, digits⟩ := parts
    dsimp only at parsed ⊢
    split at parsed
    next => cases parsed
    next accepted =>
      simp only [Bool.or_eq_true, not_or, List.isEmpty_iff, Bool.not_eq_true', Bool.not_eq_false, List.all_eq_true] at accepted
      exact accepted
  obtain ⟨integer', parsed', same⟩ := parse_signed sign ⟨_, run⟩ signed
  cases parsed'.symm.trans parsed
  exact ⟨before, sign, ⟨_, run⟩, after, by rw [← signed]; exact split, beforeBlank, afterBlank, same⟩

theorem parse_of_denotes {input : List Char} {number : ℤ} (denotes : Denotes input number) :
    ∃ integer, parse input = some integer ∧ integer.value = number := by
  obtain ⟨before, sign, digits, after, rfl, beforeBlank, afterBlank, rfl⟩ := denotes
  refine parse_signed sign digits (trim_eq beforeBlank afterBlank (List.append_ne_nil_of_right_ne_nil _ digits.run.1) ?_ ?_)
  · obtain ⟨chars, nonempty, areDigits⟩ := digits
    cases sign with
    | none => exact not_isWhitespace_of_isDigit (areDigits _ (List.head_mem nonempty))
    | plus => rfl
    | minus => rfl
  · rw [List.getLast_append_of_ne_nil _ digits.run.1]
    exact not_isWhitespace_of_isDigit (digits.run.2 _ (List.getLast_mem _))

/-- The canonical text of an integer denotes it. -/
theorem denotes_display (number : ℤ) : Denotes (Json.JsonNumber.display number) number := by
  refine ⟨[], if number < 0 then .minus else .none, .ofNat number.natAbs, [], ?_, nofun, nofun, ?_⟩
  · unfold Json.JsonNumber.display
    split <;> simp [Sign.text, Digits.ofNat]
  · rw [Digits.value_ofNat]
    split
    next less => simp only [withSign, Sign.negative, if_true]; omega
    next notLess => simp only [withSign, Sign.negative, Bool.false_eq_true, if_false]; omega

/-- The text that is displayed parses to the integer; a text parses exactly when it denotes an integer, to this integer, whose
canonical text is then displayed. -/
theorem decimal_text :
    (∀ integer : BigInteger, parse integer.display = some integer) ∧
    (∀ (text : List Char) (number : ℤ), Denotes text number ↔ ∃ integer, parse text = some integer ∧ integer.value = number) ∧
    ∀ integer : BigInteger, integer.display = Json.JsonNumber.display integer.value := by
  refine ⟨fun integer => ?_, fun text number => ⟨parse_of_denotes, ?_⟩, display_eq⟩
  · obtain ⟨integer', parsed, same⟩ := parse_of_denotes (denotes_display integer.value)
    rw [display_eq, parsed, value_inj.mp same]
  · rintro ⟨integer, parsed, rfl⟩
    exact denotes_of_parse parsed

end BigInteger

/-! ## Machine integers -/

open BigInteger

/-- `str::parse` of an `i64`. -/
def parseI64 (text : List Char) : Option I64 :=
  let (negative, digits) := stripSign text
  if digits.isEmpty || !digits.all Char.isDigit then none else checked (withSign negative (Nat.ofDigitChars 10 digits 0))

theorem parseI64_signed (sign : Sign) (digits : Digits) :
    parseI64 (sign.text ++ digits.chars) = checked (withSign sign.negative digits.value) := by
  have accepted : (digits.chars.isEmpty || !digits.chars.all Char.isDigit) = false := by
    rw [List.all_eq_true.mpr digits.run.2, List.isEmpty_eq_false_iff.mpr digits.run.1]
    rfl
  unfold parseI64
  rw [stripSign_sign]
  dsimp only
  rw [accepted, if_neg Bool.false_ne_true]
  rfl

end HellRs
