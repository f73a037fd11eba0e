import HellRs.Integer.DecimalText
import HellRs.Lib.HalfEven

/-! # Doubles with a fixed number of decimals

`format_shortest_decimal_fixed` rounds the shortest decimal text of a double, which the language's own conversion gives, on its
digits. The text is an argument here. `none` is a failing `expect`, or a text that no allocation can hold.
-/

namespace HellRs.Double

open BigInteger

/-- A saturating result of 64 bits. -/
def saturated (value : ℤ) : ℤ := max i64Min (min value i64Max)

def roundDecimalUp (discarded : List Char) (retainedLast : Char) : Bool :=
  match discarded with
  | [] => false
  | first :: rest => '5' < first || (first = '5' && (rest.any (· ≠ '0') || (retainedLast.toNat - '0'.toNat) % 2 = 1))

/-- The loop of `increment_decimal_digits`, with the last digit first. -/
def incrementReversed : List Char → List Char
  | [] => ['1']
  | digit :: digits => if digit ≠ '9' then Char.ofNat (digit.toNat + 1) :: digits else '0' :: incrementReversed digits

def incrementDecimalDigits (digits : List Char) : List Char := (incrementReversed digits.reverse).reverse

def roundShortestDecimal (significant : List Char) (retainedPlaces : ℤ) : List Char :=
  if retainedPlaces < 0 ∨ significant = [] then ['0']
  else
    let retained := retainedPlaces.toNat
    let rounded := significant.take retained
    let rounded := rounded ++ List.replicate (retained - rounded.length) '0'
    let rounded :=
      if roundDecimalUp (significant.drop retained) (rounded.getLast?.getD '0') then incrementDecimalDigits rounded else rounded
    if rounded.isEmpty then ['0'] else rounded

def renderScaledDecimal (digits : List Char) (precision : ℕ) (negative : Bool) : Option (List Char) :=
  let digits :=
    if precision ≠ 0 ∧ digits.length ≤ precision then List.replicate (precision + 1 - digits.length) '0' ++ digits else digits
  if digits.length + negative.toNat + 1 ≤ i64Max then
    let sign := if negative then ['-'] else []
    if precision = 0 then some (sign ++ digits)
    else
      let point := digits.length - precision
      some (sign ++ (digits.take point ++ '.' :: digits.drop point))
  else none

/-- The mantissa and the exponent. -/
def splitExponent (shortest : List Char) : Option (List Char × ℤ) :=
  let isMark := fun character => character = 'e' || character = 'E'
  match shortest.dropWhile (!isMark ·) with
  | [] => some (shortest, 0)
  | _ :: exponent => (parseI64 exponent).map fun exponent => (shortest.takeWhile (!isMark ·), exponent.val)

def formatShortestDecimalFixed (shortest : List Char) (precision : ℕ) (negative : Bool) : Option (List Char) := do
  let (mantissa, exponent) ← splitExponent shortest
  let decimalPoint := (mantissa.takeWhile (· ≠ '.')).length
  let digits := mantissa.filter Char.isDigit
  let firstSignificant := (digits.takeWhile (· = '0')).length
  let significant := digits.drop firstSignificant
  let decimalPosition := saturated (saturated (decimalPoint + exponent) - firstSignificant)
  let precision' ← checked precision
  let retainedPlaces := saturated (decimalPosition + precision'.val)
  renderScaledDecimal (roundShortestDecimal significant retainedPlaces) precision negative

/-! ## Decimal texts -/

/-- The exponent of a decimal text. -/
structure Exponent where
  upper : Bool
  sign : Sign
  digits : Digits

/-- A nonnegative decimal, as the shortest decimal of a finite double is one. The bound keeps the places within machine integers; a
double needs some hundreds. -/
structure ShortestDecimal where
  whole : Digits
  fraction : Option Digits
  exponent : Option Exponent
  bounded : whole.chars.length + (fraction.elim 0 fun digits => digits.chars.length) +
    (exponent.elim 0 fun exponent => exponent.digits.value) ≤ 2 ^ 62

namespace ShortestDecimal

def mantissa (decimal : ShortestDecimal) : List Char := decimal.whole.chars ++ decimal.fraction.elim [] fun digits => '.' :: digits.chars

def text (decimal : ShortestDecimal) : List Char :=
  decimal.mantissa ++ decimal.exponent.elim [] fun exponent =>
    (if exponent.upper then 'E' else 'e') :: (exponent.sign.text ++ exponent.digits.chars)

def exponentValue (decimal : ShortestDecimal) : ℤ :=
  decimal.exponent.elim 0 fun exponent => withSign exponent.sign.negative exponent.digits.value

/-- The rational number that the text denotes. -/
def value (decimal : ShortestDecimal) : ℚ :=
  (decimal.whole.value + decimal.fraction.elim 0 fun digits => (digits.value : ℚ) / 10 ^ digits.chars.length) *
    10 ^ decimal.exponentValue

end ShortestDecimal

/-- The text of a decimal with a fixed number of decimals, from the number without its point. -/
def fixedText (negative : Bool) (precision scaled : ℕ) : List Char :=
  (if negative then ['-'] else []) ++ (Nat.toDigits 10 (scaled / 10 ^ precision) ++
    if precision = 0 then [] else '.' :: fixedDigits precision scaled)

/-- The bytes that are asked for before the text is written, with a place for a point in any case. -/
def reserved (precision : ℕ) (text : List Char) : ℕ := text.length + if precision = 0 then 1 else 0

end HellRs.Double
