import Mathlib
import HellRs.Integer.Magnitude

/-! # `BigInteger` arithmetic

A `BigInteger` stands for a mathematical integer, and every operation computes the operation of that name on the integers.
-/

namespace HellRs.BigInteger

/-- A magnitude with a sign. -/
def withSign (negative : Bool) (number : ℕ) : ℤ := if negative then -number else number

@[simp] theorem withSign_zero (negative : Bool) : withSign negative 0 = 0 := by cases negative <;> rfl

/-- The integer that a `BigInteger` stands for. -/
def value (integer : BigInteger) : ℤ := withSign integer.negative (magnitude integer.limbs)

@[simp] theorem value_normalized (negative : Bool) (limbs : List Limb) :
    (normalized negative limbs).value = withSign negative (magnitude limbs) := by
  have same := magnitude_rdropWhile limbs
  change withSign (negative && !(limbs.rdropWhile (· = 0)).isEmpty) (magnitude (limbs.rdropWhile (· = 0))) = _
  cases empty : limbs.rdropWhile (· = 0) with
  | nil =>
    rw [empty] at same
    rw [← same]
    simp
  | cons limb rest =>
    rw [empty] at same
    simp [same]

theorem magnitude_eq_natAbs (integer : BigInteger) : magnitude integer.limbs = integer.value.natAbs := by
  unfold value withSign
  split <;> simp

theorem magnitude_pos {integer : BigInteger} (nonempty : integer.limbs ≠ []) : 0 < magnitude integer.limbs :=
  Nat.pos_of_ne_zero fun none => nonempty ((magnitude_eq_zero_iff integer.normal).mp none)

theorem negative_iff (integer : BigInteger) : integer.negative = true ↔ integer.value < 0 := by
  unfold value withSign
  constructor
  · intro negative
    have := magnitude_pos (integer.signed negative)
    rw [if_pos negative]
    omega
  · intro less
    by_contra positive
    rw [if_neg positive] at less
    omega

theorem isZero_iff (integer : BigInteger) : integer.isZero = true ↔ integer.value = 0 := by
  rw [isZero, List.isEmpty_iff, ← magnitude_eq_zero_iff integer.normal, magnitude_eq_natAbs, Int.natAbs_eq_zero]

/-- Equal integers have the same representation. -/
theorem value_inj {left right : BigInteger} : left.value = right.value ↔ left = right := by
  refine ⟨fun same => ?_, congrArg value⟩
  refine BigInteger.ext_parts ?_ ((magnitude_inj left.normal right.normal).mp ?_)
  · rw [Bool.eq_iff_iff, negative_iff, negative_iff, same]
  · rw [magnitude_eq_natAbs, magnitude_eq_natAbs, same]

/-! Construction -/

theorem withSign_natAbs (number : ℤ) : withSign (decide (number < 0)) number.natAbs = number := by
  unfold withSign
  split
  next less =>
    have := of_decide_eq_true less
    omega
  next notLess =>
    have := of_decide_eq_false (Bool.eq_false_iff.mpr notLess)
    omega

@[simp] theorem value_ofInt (number : ℤ) : (ofInt number).value = number := by
  rw [ofInt, value_normalized, magnitude_limbsOf, withSign_natAbs]

@[simp] theorem value_fromI64 (number : I64) : (fromI64 number).value = number.val := value_ofInt _

@[simp] theorem value_fromU64 (number : UInt64) : (fromU64 number).value = number.toNat := value_ofInt _

@[simp] theorem value_fromI128 (number : I128) : (fromI128 number).value = number.val := value_ofInt _

@[simp] theorem value_zero : zero.value = 0 := value_ofInt _

/-! Addition and subtraction -/

@[simp] theorem value_add (left right : BigInteger) : (left.add right).value = left.value + right.value := by
  unfold add
  split
  next same =>
    rw [value_normalized, magnitude_addMagnitudes]
    unfold value withSign
    rw [← same]
    split <;> omega
  next differ =>
    have opposite : right.negative = !left.negative := by
      cases isLeft : left.negative <;> cases isRight : right.negative <;> simp_all
    rw [compareMagnitudes_eq left.normal right.normal]
    split
    next greater =>
      rw [Nat.compare_eq_gt] at greater
      rw [value_normalized, magnitude_subtractMagnitudes right.normal greater.le]
      unfold value withSign
      cases isLeft : left.negative <;> simp only [opposite, isLeft, Bool.not_true, Bool.not_false, Bool.false_eq_true, if_true,
        if_false] <;> omega
    next less =>
      rw [Nat.compare_eq_lt] at less
      rw [value_normalized, magnitude_subtractMagnitudes left.normal less.le]
      unfold value withSign
      cases isLeft : left.negative <;> simp only [opposite, isLeft, Bool.not_true, Bool.not_false, Bool.false_eq_true, if_true,
        if_false] <;> omega
    next equal =>
      rw [Nat.compare_eq_eq] at equal
      rw [value_zero]
      unfold value withSign
      cases isLeft : left.negative <;> simp only [opposite, isLeft, Bool.not_true, Bool.not_false, Bool.false_eq_true, if_true,
        if_false] <;> omega

theorem value_negated (integer : BigInteger) : integer.negated.value = -integer.value := by
  unfold negated
  split
  next isZero =>
    rw [(isZero_iff integer).mp isZero]
    rfl
  next =>
    change withSign (!integer.negative) (magnitude integer.limbs) = -withSign integer.negative (magnitude integer.limbs)
    cases integer.negative <;> simp [withSign]

@[simp] theorem value_subtract (left right : BigInteger) : (left.subtract right).value = left.value - right.value := by
  rw [subtract, value_add, value_negated, Int.sub_eq_add_neg]

/-! Multiplication -/

theorem withSign_mul (left right : Bool) (number number' : ℕ) :
    withSign (left != right) (number * number') = withSign left number * withSign right number' := by
  cases left <;> cases right <;> simp [withSign]

theorem value_multiply? (left right : BigInteger) : (left.multiply? right).map value = some (left.value * right.value) := by
  unfold multiply?
  split
  next isZero =>
    rw [Bool.or_eq_true, isZero_iff, isZero_iff] at isZero
    rw [Option.map_some, value_zero, Option.some.injEq, eq_comm, Int.mul_eq_zero]
    exact isZero
  next =>
    obtain ⟨limbs, isProduct, same⟩ := @multiplyLoop_eq right.limbs left.limbs
      (List.replicate (left.limbs.length + right.limbs.length) 0) List.length_replicate
      (by rw [magnitude_replicate_zero]; exact Nat.pow_pos (by decide))
    rw [isProduct, Option.map_some, Option.map_some, value_normalized, same, magnitude_replicate_zero, Nat.zero_add, withSign_mul]
    rfl

theorem multiply?_isSome (left right : BigInteger) : (left.multiply? right).isSome = true := by
  rw [← Option.isSome_map (f := value), value_multiply?]
  rfl

/-- `multiply`, which does not panic. -/
def multiply (left right : BigInteger) : BigInteger := (left.multiply? right).get (multiply?_isSome left right)

@[simp] theorem value_multiply (left right : BigInteger) : (left.multiply right).value = left.value * right.value := by
  have product := value_multiply? left right
  rw [← Option.some_get (multiply?_isSome left right), Option.map_some, Option.some.injEq] at product
  exact product

/-! Comparison -/

theorem cmp_eq (left right : BigInteger) : left.cmp right = compare left.value right.value := by
  have leftNegative := negative_iff left
  have rightNegative := negative_iff right
  have leftMagnitude := magnitude_eq_natAbs left
  have rightMagnitude := magnitude_eq_natAbs right
  unfold cmp
  rw [compareMagnitudes_eq left.normal right.normal, compareMagnitudes_eq right.normal left.normal, leftMagnitude, rightMagnitude]
  have same {first second : ℕ} {first' second' : ℤ} (less : first < second ↔ first' < second') (greater : second < first ↔ second' < first') :
      compare first second = compare first' second' := by
    rcases lt_trichotomy first' second' with below | equal | above
    · rw [compare_lt_iff_lt.mpr below, compare_lt_iff_lt.mpr (less.mpr below)]
    · rw [compare_eq_iff_eq.mpr equal, compare_eq_iff_eq.mpr (by omega)]
    · rw [compare_gt_iff_gt.mpr above, compare_gt_iff_gt.mpr (greater.mpr above)]
  cases isLeft : left.negative <;> cases isRight : right.negative <;>
    simp only [isLeft, isRight, Bool.false_eq_true, false_iff, true_iff] at leftNegative rightNegative
  · exact same (by omega) (by omega)
  · exact (compare_gt_iff_gt.mpr (by omega)).symm
  · exact (compare_lt_iff_lt.mpr (by omega)).symm
  · exact same (by omega) (by omega)

/-! Division by a small divisor -/

theorem value_divRemEuclidSmall (integer : BigInteger) (divisor : Divisor) :
    (integer.divRemEuclidSmall divisor).1.value = integer.value / divisor.val ∧
      (((integer.divRemEuclidSmall divisor).2 : ℕ) : ℤ) = integer.value % divisor.val := by
  have whole := magnitude_divideLoop divisor integer.limbs
  have positive := divisor.property.1
  unfold divRemEuclidSmall
  generalize divideLoop divisor integer.limbs = parts at whole ⊢
  obtain ⟨quotient, remainder⟩ := parts
  dsimp only at whole ⊢
  have wholeInt : (magnitude quotient : ℤ) * divisor.val + remainder = magnitude integer.limbs := by exact_mod_cast whole
  have below := remainder.isLt
  rw [eq_comm, @eq_comm ℤ _ (integer.value % _)]
  split
  next exact =>
    rw [Int.ediv_emod_unique (by omega), value_normalized]
    refine ⟨?_, by simp, by exact_mod_cast below⟩
    unfold value withSign
    cases negative : integer.negative with
    | false =>
      simp only [Bool.false_eq_true, if_false, ← wholeInt]
      ring
    | true =>
      have none : (remainder : ℤ) = 0 := by simpa [negative] using exact
      simp only [if_true, ← wholeInt, none]
      ring
  next inexact =>
    rw [not_or, Bool.not_eq_false] at inexact
    rw [Int.ediv_emod_unique (by omega), value_subtract, value_normalized, value_ofInt, Nat.cast_sub below.le]
    refine ⟨?_, by omega, by omega⟩
    unfold value withSign
    rw [if_pos rfl, if_pos inexact.1, ← wholeInt]
    ring

/-! Machine integers -/

theorem checkedU64_eq_some_iff {number : ℕ} {machine : UInt64} : checkedU64 number = some machine ↔ machine.toNat = number := by
  unfold checkedU64
  split
  next fits =>
    rw [Option.some.injEq]
    constructor
    · rintro rfl
      exact UInt64.toNat_ofNat_of_lt' fits
    · rintro rfl
      exact UInt64.ofNat_toNat
  next exceeds =>
    refine ⟨nofun, fun same => absurd machine.toNat_lt ?_⟩
    rwa [same]

theorem checkedU64_eq_none_iff {number : ℕ} : checkedU64 number = none ↔ 2 ^ 64 ≤ number := by
  unfold checkedU64
  split <;> simp_all

theorem checkLimb_checkedU64 (limb : Limb) (number : ℕ) : checkLimb limb (checkedU64 number) = checkedU64 (limb + base * number) := by
  cases rest : checkedU64 number with
  | none =>
    have exceeds : 2 ^ 64 ≤ limb + base * number :=
      (checkedU64_eq_none_iff.mp rest).trans ((Nat.le_mul_of_pos_left number (by decide)).trans (Nat.le_add_left _ _))
    rw [checkedU64_eq_none_iff.mpr exceeds]
    rfl
  | some machine =>
    have isMachine := checkedU64_eq_some_iff.mp rest
    unfold checkLimb
    rw [Option.bind_eq_bind, Option.bind_some, isMachine, Nat.mul_comm]
    cases product : checkedU64 (base * number) with
    | none =>
      have exceeds : 2 ^ 64 ≤ limb + base * number := (checkedU64_eq_none_iff.mp product).trans (Nat.le_add_left _ _)
      rw [checkedU64_eq_none_iff.mpr exceeds]
      rfl
    | some product' =>
      rw [Option.bind_some, checkedU64_eq_some_iff.mp product, Nat.add_comm]

/-- The checked loop fails only when the number is too large. -/
theorem foldr_checkLimb (limbs : List Limb) : limbs.foldr checkLimb (some 0) = checkedU64 (magnitude limbs) := by
  induction limbs with
  | nil => rfl
  | cons limb limbs ih => rw [List.foldr_cons, ih, magnitude_cons, checkLimb_checkedU64]

theorem toU64_eq_some_iff {integer : BigInteger} {machine : UInt64} :
    integer.toU64 = some machine ↔ (machine.toNat : ℤ) = integer.value := by
  have negative := negative_iff integer
  have isMagnitude := magnitude_eq_natAbs integer
  unfold toU64
  split
  next isNegative =>
    have := negative.mp isNegative
    exact ⟨nofun, fun same => by omega⟩
  next positive =>
    have := mt negative.mpr positive
    rw [foldr_checkLimb, checkedU64_eq_some_iff]
    omega

theorem foldr_wrapLimb (limbs : List Limb) : limbs.foldr wrapLimb 0 = UInt64.ofNat (magnitude limbs) := by
  induction limbs with
  | nil => rfl
  | cons limb limbs ih =>
    rw [List.foldr_cons, ih, magnitude_cons, UInt64.ofNat_add, UInt64.ofNat_mul, UInt64.add_comm, UInt64.mul_comm]
    rfl

theorem toInt_wrappingI64 (integer : BigInteger) : integer.wrappingI64.toInt = integer.value.bmod (2 ^ 64) := by
  unfold wrappingI64
  rw [foldr_wrapLimb]
  have machine : (if integer.negative then 0 - UInt64.ofNat (magnitude integer.limbs) else UInt64.ofNat (magnitude integer.limbs)).toInt64 =
      Int64.ofInt integer.value := by
    unfold value withSign
    cases integer.negative <;> simp [Int64.ofInt_eq_ofNat]
  simp only [machine, Int64.toInt_ofInt]
  rfl

/-- Every operation on integers of any length computes the operation on the mathematical integers. -/
theorem agrees_with_integers :
    (∀ left right : BigInteger, left = right ↔ left.value = right.value) ∧
    (∀ left right : BigInteger, (left.add right).value = left.value + right.value) ∧
    (∀ left right : BigInteger, (left.subtract right).value = left.value - right.value) ∧
    (∀ left right : BigInteger, (left.multiply? right).map value = some (left.value * right.value)) ∧
    (∀ left right : BigInteger, left.cmp right = compare left.value right.value) ∧
    (∀ (integer : BigInteger) (divisor : Divisor), (integer.divRemEuclidSmall divisor).1.value = integer.value / divisor.val ∧
      (((integer.divRemEuclidSmall divisor).2 : ℕ) : ℤ) = integer.value % divisor.val) ∧
    (∀ number : I64, (fromI64 number).value = number.val) ∧
    (∀ number : UInt64, (fromU64 number).value = number.toNat) ∧
    (∀ number : I128, (fromI128 number).value = number.val) ∧
    (∀ integer : BigInteger, integer.wrappingI64.toInt = integer.value.bmod (2 ^ 64)) ∧
    (∀ (integer : BigInteger) (machine : UInt64), integer.toU64 = some machine ↔ (machine.toNat : ℤ) = integer.value) :=
  ⟨fun _ _ => value_inj.symm, value_add, value_subtract, value_multiply?, cmp_eq, value_divRemEuclidSmall, value_fromI64, value_fromU64,
    value_fromI128, toInt_wrappingI64, fun _ _ => toU64_eq_some_iff⟩

end HellRs.BigInteger
