import Mathlib
import HellRs.Lib.Checked

/-! # Integers of any length

`BigInteger` as the runtime keeps it: a sign and limbs in base `10^9`, least first. A limb is below the base, so every value
that a loop computes is below `base * base` and fits the 64 bits of the source. The values of the type are in normal form;
what an operation builds has to show that it is.
-/

namespace HellRs

/-- The signed integers of 128 bits. -/
abbrev I128 := {value : ℤ // -2 ^ 127 ≤ value ∧ value < 2 ^ 127}

namespace BigInteger

abbrev base : ℕ := 1000000000

abbrev Limb := Fin base

instance base_neZero : NeZero base := ⟨by decide⟩

/-- `value % BASE` and `value / BASE`. -/
def split (value : ℕ) (fits : value < base * base) : Limb × Limb :=
  (⟨value % base, Nat.mod_lt _ (by decide)⟩, ⟨value / base, Nat.div_lt_of_lt_mul fits⟩)

theorem limb_lt (limb : Limb) : (limb : ℕ) < 1000000000 := limb.isLt

theorem product_fits (result left right carry : Limb) : (result + left * right + carry : ℕ) < base * base := by
  have product : (left * right : ℕ) ≤ 999999999 * 999999999 :=
    Nat.mul_le_mul (Nat.le_of_lt_succ (limb_lt left)) (Nat.le_of_lt_succ (limb_lt right))
  have := limb_lt result
  have := limb_lt carry
  have : base * base = 1000000000 * 1000000000 := rfl
  omega

theorem scaled_fits (left right carry : Limb) : (left * right + carry : ℕ) < base * base := by
  simpa using product_fits 0 left right carry

theorem sum_fits (left right carry : Limb) : (left + right + carry : ℕ) < base * base := by
  simpa using product_fits left right 1 carry

theorem carry_fits (limb carry : Limb) : (limb + carry : ℕ) < base * base := by
  simpa using sum_fits limb 0 carry

/-- Every value that a loop computes is a machine integer of 64 bits. -/
theorem base_mul_base_lt : base * base < 2 ^ 64 := by decide

/-- The loop that cuts a magnitude into limbs. -/
def limbsOf (magnitude : ℕ) : List Limb :=
  if magnitude = 0 then [] else ⟨magnitude % base, Nat.mod_lt _ (by decide)⟩ :: limbsOf (magnitude / base)
termination_by magnitude
decreasing_by exact Nat.div_lt_self (Nat.pos_of_ne_zero ‹_›) (by decide)

/-- The loop of `add_magnitudes`. -/
def addLoop : ℕ → List Limb → List Limb → Limb → List Limb
  | 0, _, _, carry => if carry = 0 then [] else [carry]
  | count + 1, left, right, carry =>
    let (limb, carry) := split (left.headD 0 + right.headD 0 + carry) (sum_fits _ _ _)
    limb :: addLoop count left.tail right.tail carry

def addMagnitudes (left right : List Limb) : List Limb := addLoop (max left.length right.length) left right 0

theorem toNat_lt {value : ℤ} (less : value < base) : value.toNat < base := by
  have : (base : ℤ) = 1000000000 := rfl
  have : base = 1000000000 := rfl
  omega

/-- The loop of `subtract_magnitudes`. -/
def subtractLoop : List Limb → List Limb → Bool → List Limb
  | [], _, _ => []
  | larger :: rest, smaller, borrow =>
    let value : ℤ := (larger : ℕ) - (smaller.headD 0 : ℕ) - borrow.toNat
    if negative : value < 0 then
      ⟨(value + base).toNat, toNat_lt (by omega)⟩ :: subtractLoop rest smaller.tail true
    else ⟨value.toNat, toNat_lt (by have := limb_lt larger; simp only [value, base]; omega)⟩ :: subtractLoop rest smaller.tail false

def subtractMagnitudes (larger smaller : List Limb) : List Limb := subtractLoop larger smaller false

def compareMagnitudes (left right : List Limb) : Ordering :=
  (compare left.length right.length).then (compare left.reverse right.reverse)

/-- The second inner loop of `multiply`, which carries on; an index out of range panics. -/
def carryOn : List Limb → Limb → Option (List Limb)
  | [], carry => if carry = 0 then some [] else none
  | result :: results, carry =>
    if carry = 0 then some (result :: results)
    else
      let (limb, carry) := split (result + carry) (carry_fits result carry)
      (carryOn results carry).map (limb :: ·)

/-- The first inner loop of `multiply`, over the limbs of the right factor. -/
def multiplyRow (left : Limb) : List Limb → List Limb → Limb → Option (List Limb)
  | [], results, carry => carryOn results carry
  | _ :: _, [], _ => none
  | right :: rights, result :: results, carry =>
    let (limb, carry) := split (result + left * right + carry) (product_fits _ _ _ _)
    (multiplyRow left rights results carry).map (limb :: ·)

/-- The outer loop of `multiply`: the limbs of the result from `left_index` on. -/
def multiplyLoop (right : List Limb) : List Limb → List Limb → Option (List Limb)
  | [], results => some results
  | left :: lefts, results =>
    match multiplyRow left right results 0 with
    | none | some [] => none
    | some (result :: results) => (multiplyLoop right lefts results).map (result :: ·)

/-- A divisor of `div_rem_euclid_small`, which asserts that it is not zero. -/
abbrev Divisor := {divisor : ℕ // 0 < divisor ∧ divisor < 2 ^ 32}

/-- The loop of `div_rem_euclid_small`, from the greatest limb down. -/
def divideLoop (divisor : Divisor) : List Limb → List Limb × Fin divisor.val
  | [] => ([], ⟨0, divisor.property.1⟩)
  | limb :: limbs =>
    let (quotient, remainder) := divideLoop divisor limbs
    let current := remainder * base + limb
    (⟨current / divisor.val, Nat.div_lt_of_lt_mul (by
        have whole : (remainder + 1 : ℕ) * base ≤ divisor.val * base := Nat.mul_le_mul_right _ remainder.isLt
        have : (limb : ℕ) < base := limb.isLt
        rw [Nat.add_mul] at whole
        omega)⟩ :: quotient,
      ⟨current % divisor.val, Nat.mod_lt _ divisor.property.1⟩)

/-- The loop of `multiply_small`. -/
def multiplySmallLoop (factor : Limb) : List Limb → Limb → List Limb
  | [], carry => if carry = 0 then [] else [carry]
  | limb :: limbs, carry =>
    let (limb, carry) := split (limb * factor + carry) (scaled_fits limb factor carry)
    limb :: multiplySmallLoop factor limbs carry

/-- The loop of `add_small`. -/
def addSmallLoop : List Limb → Limb → List Limb
  | [], carry => if carry = 0 then [] else [carry]
  | limb :: limbs, carry =>
    let (limb, carry) := split (limb + carry) (carry_fits limb carry)
    if carry = 0 then limb :: limbs else limb :: addSmallLoop limbs carry

end BigInteger

open BigInteger

/-- A sign and limbs in normal form: the greatest limb is not zero, and zero has no sign. -/
structure BigInteger where
  negative : Bool
  limbs : List Limb
  normal : limbs.getLast? ≠ some 0
  signed : negative = true → limbs ≠ []
deriving DecidableEq

namespace BigInteger

@[ext] theorem ext_parts {left right : BigInteger} (negative : left.negative = right.negative)
    (limbs : left.limbs = right.limbs) : left = right := by
  cases left
  cases right
  cases negative
  cases limbs
  rfl

def normalized (negative : Bool) (limbs : List Limb) : BigInteger where
  negative := negative && !(limbs.rdropWhile (· = 0)).isEmpty
  limbs := limbs.rdropWhile (· = 0)
  normal := by
    intro last
    obtain ⟨_, isLast⟩ := List.getLast?_eq_some_iff.mp last
    have nonempty : limbs.rdropWhile (· = 0) ≠ [] := by rw [isLast]; exact List.append_ne_nil_of_right_ne_nil _ nofun
    have := List.rdropWhile_last_not (fun limb : Limb => decide (limb = 0)) limbs nonempty
    simp [isLast] at this
  signed := by simp

/-- What `from_i64`, `from_u64` and `from_i128` do with the value of a machine integer. -/
def ofInt (value : ℤ) : BigInteger := normalized (value < 0) (limbsOf value.natAbs)

def fromI64 (value : I64) : BigInteger := ofInt value.val

def fromU64 (value : UInt64) : BigInteger := ofInt value.toNat

def fromI128 (value : I128) : BigInteger := ofInt value.val

def isZero (integer : BigInteger) : Bool := integer.limbs.isEmpty

def zero : BigInteger := ofInt 0

def add (left right : BigInteger) : BigInteger :=
  if left.negative = right.negative then normalized left.negative (addMagnitudes left.limbs right.limbs)
  else
    match compareMagnitudes left.limbs right.limbs with
    | .gt => normalized left.negative (subtractMagnitudes left.limbs right.limbs)
    | .lt => normalized right.negative (subtractMagnitudes right.limbs left.limbs)
    | .eq => zero

/-- The negation that `subtract` makes. -/
def negated (integer : BigInteger) : BigInteger :=
  if zero : integer.isZero then integer
  else { integer with negative := !integer.negative, signed := fun _ => by simpa [isZero] using zero }

def subtract (left right : BigInteger) : BigInteger := left.add right.negated

/-- `None` stands for a panic. -/
def multiply? (left right : BigInteger) : Option BigInteger :=
  if left.isZero || right.isZero then some zero
  else
    (multiplyLoop right.limbs left.limbs (List.replicate (left.limbs.length + right.limbs.length) 0)).map
      (normalized (left.negative != right.negative))

/-- `wrapping_mul(BASE)` and `wrapping_add`. -/
def wrapLimb (limb : Limb) (value : UInt64) : UInt64 := value * UInt64.ofNat base + UInt64.ofNat limb

def wrappingI64 (integer : BigInteger) : Int64 :=
  let value := integer.limbs.foldr wrapLimb 0
  (if integer.negative then 0 - value else value).toInt64

/-- A checked operation of `u64`. -/
def checkedU64 (value : ℕ) : Option UInt64 := if value < 2 ^ 64 then some (UInt64.ofNat value) else none

/-- `checked_mul(BASE)` and `checked_add`. -/
def checkLimb (limb : Limb) (value : Option UInt64) : Option UInt64 := do
  let product ← checkedU64 ((← value).toNat * base)
  checkedU64 (product.toNat + limb)

def toU64 (integer : BigInteger) : Option UInt64 :=
  if integer.negative then none else integer.limbs.foldr checkLimb (some 0)

def divRemEuclidSmall (integer : BigInteger) (divisor : Divisor) : BigInteger × Fin divisor.val :=
  let (quotient, remainder) := divideLoop divisor integer.limbs
  if exact : integer.negative = false ∨ remainder.val = 0 then (normalized integer.negative quotient, remainder)
  else
    ((normalized true quotient).subtract (ofInt 1),
      ⟨divisor.val - remainder, Nat.sub_lt divisor.property.1 (Nat.pos_of_ne_zero (not_or.mp exact).2)⟩)

/-- The order of the integers. -/
def cmp (left right : BigInteger) : Ordering :=
  match left.negative, right.negative with
  | true, false => .lt
  | false, true => .gt
  | false, false => compareMagnitudes left.limbs right.limbs
  | true, true => compareMagnitudes right.limbs left.limbs

end BigInteger

end HellRs
