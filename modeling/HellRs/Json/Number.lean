import HellRs.Lib.Checked
import HellRs.Lib.Decimal

/-! # JSON numbers

The exact decimal numbers of the JSON reader: how the parser reads one, how two of them compare, and how one is written.
A coefficient is an integer of any length; an exponent is a machine integer of 64 bits. The parser takes the bytes of
the text from an offset on; all bytes that it looks for stand for characters of their own, so the text is a list of
characters here.
-/

namespace HellRs.Json

/-- Exact decimal number parsed from JSON source. -/
structure JsonNumber where
  coefficient : ℤ
  exponent10 : I64
  lexeme : List Char

namespace JsonNumber

/-- The loop of `normalized_parts`, which a zero coefficient never enters. -/
def shiftZeros (coefficient : ℤ) (nonzero : coefficient ≠ 0) (exponent10 : I64) : ℤ × I64 :=
  if divides : coefficient % 10 = 0 then
    match checked (exponent10.val + 1) with
    | none => (coefficient / 10, exponent10)
    | some nextExponent => shiftZeros (coefficient / 10) (by omega) nextExponent
  else (coefficient, exponent10)
termination_by coefficient.natAbs
decreasing_by omega

def normalizedParts (number : JsonNumber) : ℤ × I64 :=
  if zero : number.coefficient = 0 then (number.coefficient, ⟨0, by decide⟩)
  else shiftZeros number.coefficient zero number.exponent10

instance : BEq JsonNumber where
  beq left right := left.normalizedParts == right.normalizedParts

/-- `BigInteger` as text. -/
def display (integer : ℤ) : List Char :=
  (if integer < 0 then ['-'] else []) ++ Nat.toDigits 10 integer.natAbs

/-- The first loop of `push_json`. -/
def stripZeros (coefficient exponent10 : ℤ) : ℤ × ℤ :=
  if exponent10 < -1 ∧ coefficient ≠ 0 ∧ coefficient % 10 = 0 then stripZeros (coefficient / 10) (exponent10 + 1)
  else (coefficient, exponent10)
termination_by coefficient.natAbs

/-- The sign of a displayed coefficient and its digits. -/
def splitSign : List Char → List Char × List Char
  | '-' :: digits => (['-'], digits)
  | digits => ([], digits)

/-- The text that `push_json` adds to its output. -/
def pushJson (number : JsonNumber) : List Char :=
  let (coefficient, exponent10) := stripZeros number.coefficient number.exponent10.val
  let (sign, digits) := splitSign (display coefficient)
  sign ++
    if digits = ['0'] then if exponent10 < 0 then ['0', '.', '0'] else ['0']
    else if 0 ≤ exponent10 then digits ++ List.replicate exponent10.toNat '0'
    else
      let decimalPosition : ℤ := digits.length + exponent10
      if 0 ≤ decimalPosition then
        if decimalPosition = 0 then '0' :: '.' :: digits
        else digits.take decimalPosition.toNat ++ '.' :: digits.drop decimalPosition.toNat
      else
        let (first, rest) := digits.splitAt 1
        first ++ '.' :: ((if rest.isEmpty then ['0'] else rest) ++ 'e' :: display (decimalPosition - 1))

/-- `BigInteger::parse`, of a text without blanks around it. -/
def parseInteger (text : List Char) : Option ℤ :=
  let (negative, digits) := match text with
    | '-' :: rest => (true, rest)
    | '+' :: rest => (false, rest)
    | rest => (false, rest)
  if digits.isEmpty || !digits.all Char.isDigit then none
  else some (if negative then -Nat.ofDigitChars 10 digits 0 else Nat.ofDigitChars 10 digits 0)

end JsonNumber

namespace Parser

/-- Takes the character if it comes first. -/
def take (expected : Char) (text : List Char) : Bool × List Char :=
  if text.head? = some expected then (true, text.tail) else (false, text)

/-- The text goes on with a digit. -/
def peekDigit (text : List Char) : Bool := text.head?.any Char.isDigit

/-- The integer digits of a number and what stands behind them. -/
def integerDigits : List Char → Option (List Char × List Char)
  | '0' :: rest => if peekDigit rest then none else some (['0'], rest)
  | first :: rest =>
    if first.isDigit then some (first :: rest.takeWhile Char.isDigit, rest.dropWhile Char.isDigit) else none
  | [] => none

/-- The digits behind a decimal point, if there is one. -/
def fractionDigits (text : List Char) : Option (Option (List Char) × List Char) :=
  let (point, text) := take '.' text
  if point then
    if peekDigit text then some (some (text.takeWhile Char.isDigit), text.dropWhile Char.isDigit) else none
  else some (none, text)

/-- The loop over the digits of an exponent. -/
def exponentDigits (explicitExponent : I64) : List Char → Option (I64 × List Char)
  | digit :: rest =>
    if digit.isDigit then do
      let tens ← checked (explicitExponent.val * 10)
      let sum ← checked (tens.val + (digit.toNat - '0'.toNat : ℕ))
      exponentDigits sum rest
    else some (explicitExponent, digit :: rest)
  | [] => some (explicitExponent, [])

/-- The exponent of a number, zero if there is none. -/
def explicitExponent (text : List Char) : Option (I64 × List Char) :=
  if text.head? = some 'e' ∨ text.head? = some 'E' then
    let (exponentNegative, text) := take '-' text.tail
    let text := if exponentNegative then text else (take '+' text).2
    if peekDigit text then do
      let (exponent, rest) ← exponentDigits ⟨0, by decide⟩ text
      let exponent ← if exponentNegative then checked (-exponent.val) else some exponent
      some (exponent, rest)
    else none
  else some (⟨0, by decide⟩, text)

/-- `Parser::number`: the number that the text begins with and what stands behind it. -/
def number (text : List Char) : Option (JsonNumber × List Char) := do
  let (negative, digitsStart) := take '-' text
  let (integer, integerEnd) ← integerDigits digitsStart
  let (fraction, fractionEnd) ← fractionDigits integerEnd
  let (exponent, rest) ← explicitExponent fractionEnd
  let fractionLength ← checked (fraction.elim 0 List.length : ℕ)
  let exponent10 ← checked (exponent.val - fractionLength.val)
  let coefficient ← JsonNumber.parseInteger ((if negative then ['-'] else []) ++ integer ++ fraction.getD [])
  some (⟨coefficient, exponent10, text.take (text.length - rest.length)⟩, rest)

end Parser

end HellRs.Json
