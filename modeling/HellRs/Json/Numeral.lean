import Mathlib
import HellRs.Json.Number

/-! # The grammar of JSON numbers

`Numeral` is a number of the JSON grammar with the rational number it denotes. `number_text` says what the parser makes of
a numeral, and `number_sound` that it takes nothing else.
-/

namespace HellRs.Json

inductive ExponentSign
  | none
  | plus
  | minus

namespace ExponentSign

def text : ExponentSign → List Char
  | none => []
  | plus => ['+']
  | minus => ['-']

def apply : ExponentSign → ℤ → ℤ
  | minus, magnitude => -magnitude
  | _, magnitude => magnitude

end ExponentSign

/-- The exponent of a numeral. -/
structure Exponent where
  upper : Bool
  sign : ExponentSign
  digits : Digits

namespace Exponent

def text (exponent : Exponent) : List Char :=
  (if exponent.upper then 'E' else 'e') :: (exponent.sign.text ++ exponent.digits.chars)

def value (exponent : Exponent) : ℤ := exponent.sign.apply exponent.digits.value

end Exponent

/-- A number of the JSON grammar. -/
structure Numeral where
  negative : Bool
  integer : Digits
  noLeadingZero : integer.chars.head? = some '0' → integer.chars = ['0']
  fraction : Option Digits
  exponent : Option Exponent

namespace Numeral

variable (numeral : Numeral)

def sign : List Char := if numeral.negative then ['-'] else []

def fractionChars : List Char := numeral.fraction.elim [] Digits.chars

def text : List Char :=
  numeral.sign ++ (numeral.integer.chars ++
    ((numeral.fraction.elim [] fun digits => '.' :: digits.chars) ++ numeral.exponent.elim [] Exponent.text))

def fractionValue : ℚ := numeral.fraction.elim 0 fun digits => (digits.value : ℚ) / 10 ^ digits.chars.length

def exponentValue : ℤ := numeral.exponent.elim 0 Exponent.value

/-- The rational number that the numeral denotes. -/
def value : ℚ :=
  (if numeral.negative then -1 else 1) * (numeral.integer.value + numeral.fractionValue) * 10 ^ numeral.exponentValue

/-- All digits before the exponent as one signed integer. -/
def coefficient : ℤ :=
  if numeral.negative then -Nat.ofDigitChars 10 (numeral.integer.chars ++ numeral.fractionChars) 0
  else Nat.ofDigitChars 10 (numeral.integer.chars ++ numeral.fractionChars) 0

/-- The exponent that belongs to the coefficient. -/
def exponent10 : ℤ := numeral.exponentValue - numeral.fractionChars.length

theorem value_eq : numeral.value = scaled numeral.coefficient numeral.exponent10 := by
  have ten : (10 : ℚ) ≠ 0 := by norm_num
  have whole : (Nat.ofDigitChars 10 (numeral.integer.chars ++ numeral.fractionChars) 0 : ℚ) =
      (numeral.integer.value + numeral.fractionValue) * 10 ^ numeral.fractionChars.length :=
    ofDigitChars_point numeral.integer numeral.fraction
  simp only [value, scaled, coefficient, exponent10, zpow_sub₀ ten, zpow_natCast]
  split
  · push_cast
    rw [whole]
    field_simp
  · push_cast
    rw [whole]
    field_simp

/-- The text behind a numeral cannot be read as its continuation. -/
structure Ends (rest : List Char) : Prop where
  digit : Parser.peekDigit rest = false
  exponent : numeral.exponent = none → rest.head? ≠ some 'e' ∧ rest.head? ≠ some 'E'
  point : numeral.fraction = none → numeral.exponent = none → rest.head? ≠ some '.'

theorem ends_nil : numeral.Ends [] := ⟨rfl, fun _ => ⟨nofun, nofun⟩, fun _ => nofun⟩

/-- The number that the parser makes of a numeral: every machine integer on the way has to fit. -/
def read : Option JsonNumber := do
  let magnitude ← checked (numeral.exponent.elim 0 fun exponent => (exponent.digits.value : ℤ))
  let explicit ← checked (numeral.exponent.elim 0 fun exponent => exponent.sign.apply magnitude.val)
  let fractionLength ← checked (numeral.fractionChars.length : ℤ)
  let exponent10 ← checked (explicit.val - fractionLength.val)
  some ⟨numeral.coefficient, exponent10, numeral.text⟩

end Numeral

/-- The text is a numeral that denotes the number. -/
def Denotes (text : List Char) (value : ℚ) : Prop := ∃ numeral : Numeral, numeral.text = text ∧ numeral.value = value

end HellRs.Json
