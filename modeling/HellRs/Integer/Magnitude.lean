import Mathlib
import HellRs.Integer.BigInteger

/-! # The magnitude of limbs

What the loops over limbs compute, in terms of the natural number that the limbs write.
-/

namespace HellRs.BigInteger

/-- The natural number that the limbs write. -/
def magnitude (limbs : List Limb) : ℕ := Nat.ofDigits base (limbs.map Fin.val)

@[simp] theorem magnitude_nil : magnitude [] = 0 := rfl

@[simp] theorem magnitude_cons (limb : Limb) (limbs : List Limb) : magnitude (limb :: limbs) = limb + base * magnitude limbs := by
  simp [magnitude, Nat.ofDigits_cons]

theorem magnitude_append (limbs more : List Limb) :
    magnitude (limbs ++ more) = magnitude limbs + base ^ limbs.length * magnitude more := by
  simp [magnitude, Nat.ofDigits_append]

@[simp] theorem magnitude_singleton (limb : Limb) : magnitude [limb] = limb := by simp

theorem magnitude_lt (limbs : List Limb) : magnitude limbs < base ^ limbs.length := by
  have bound := @Nat.ofDigits_lt_base_pow_length base (limbs.map Fin.val) (by decide) fun limb member => by
    obtain ⟨limb, -, rfl⟩ := List.mem_map.mp member
    exact limb.isLt
  rwa [List.length_map] at bound

theorem magnitude_eq_head (limbs : List Limb) : magnitude limbs = limbs.headD 0 + base * magnitude limbs.tail := by
  cases limbs with
  | nil => rfl
  | cons limb limbs => exact magnitude_cons limb limbs

@[simp] theorem magnitude_replicate_zero (count : ℕ) : magnitude (List.replicate count 0) = 0 := by
  induction count with
  | zero => rfl
  | succ count ih => rw [List.replicate_succ, magnitude_cons, ih]; rfl

theorem split_eq {value : ℕ} (fits : value < base * base) : ((split value fits).1 + base * (split value fits).2 : ℕ) = value :=
  Nat.mod_add_div value base

/-- The limbs have no leading zero. -/
def Normal (limbs : List Limb) : Prop := limbs.getLast? ≠ some 0

theorem normal_cons_iff {limb : Limb} {limbs : List Limb} : Normal (limb :: limbs) ↔ (limbs = [] → limb ≠ 0) ∧ Normal limbs := by
  cases limbs with
  | nil => simp [Normal]
  | cons following limbs => simp [Normal]

theorem digits_magnitude {limbs : List Limb} (normal : Normal limbs) : Nat.digits base (magnitude limbs) = limbs.map Fin.val := by
  refine Nat.digits_ofDigits base (by decide) _ (fun limb member => ?_) fun nonempty last => ?_
  · obtain ⟨limb, -, rfl⟩ := List.mem_map.mp member
    exact limb.isLt
  · have there : limbs ≠ [] := fun empty => nonempty (by rw [empty]; rfl)
    rw [List.getLast_map] at last
    exact normal (by rw [List.getLast?_eq_some_getLast there]; exact congrArg some (Fin.ext last))

/-- Limbs in normal form are determined by their magnitude. -/
theorem magnitude_inj {left right : List Limb} (leftNormal : Normal left) (rightNormal : Normal right) :
    magnitude left = magnitude right ↔ left = right := by
  refine ⟨fun same => ?_, congrArg magnitude⟩
  apply (List.map_injective_iff.mpr Fin.val_injective : Function.Injective (List.map (Fin.val : Limb → ℕ)))
  rw [← digits_magnitude leftNormal, ← digits_magnitude rightNormal, same]

theorem magnitude_eq_zero_iff {limbs : List Limb} (normal : Normal limbs) : magnitude limbs = 0 ↔ limbs = [] :=
  @magnitude_inj limbs [] normal (by rintro ⟨⟩)

/-! Cutting a magnitude into limbs -/

@[simp] theorem magnitude_limbsOf (number : ℕ) : magnitude (limbsOf number) = number := by
  induction number using limbsOf.induct with
  | case1 => rw [limbsOf, if_pos rfl, magnitude_nil]
  | case2 number nonzero ih =>
    rw [limbsOf, if_neg nonzero, magnitude_cons, ih]
    exact Nat.mod_add_div number base

theorem magnitude_rdropWhile (limbs : List Limb) : magnitude (limbs.rdropWhile (· = 0)) = magnitude limbs := by
  induction limbs using List.reverseRecOn with
  | nil => rfl
  | append_singleton limbs limb ih =>
    rw [List.rdropWhile_concat]
    split
    next isZero =>
      rw [ih, magnitude_append, of_decide_eq_true isZero]
      simp
    next => rfl

/-! Addition and subtraction -/

theorem magnitude_addLoop {count : ℕ} {left right : List Limb} (leftFits : left.length ≤ count) (rightFits : right.length ≤ count)
    (carry : Limb) : magnitude (addLoop count left right carry) = magnitude left + magnitude right + carry := by
  induction count generalizing left right carry with
  | zero =>
    rw [List.eq_nil_of_length_eq_zero (Nat.le_zero.mp leftFits), List.eq_nil_of_length_eq_zero (Nat.le_zero.mp rightFits)]
    unfold addLoop
    split
    next none => simp [none]
    next => simp
  | succ count ih =>
    have whole := split_eq (sum_fits (left.headD 0) (right.headD 0) carry)
    unfold addLoop
    rw [magnitude_cons, ih (by rw [List.length_tail]; omega) (by rw [List.length_tail]; omega), magnitude_eq_head left,
      magnitude_eq_head right, Nat.mul_add, Nat.mul_add]
    omega

theorem magnitude_addMagnitudes (left right : List Limb) :
    magnitude (addMagnitudes left right) = magnitude left + magnitude right := by
  simpa [addMagnitudes] using magnitude_addLoop (le_max_left left.length right.length) (le_max_right _ _) 0

/-- The limbs of a difference, with what has been borrowed beyond the last of them. -/
theorem magnitude_subtractLoop (larger smaller : List Limb) (fits : smaller.length ≤ larger.length) (borrow : Bool) :
    ∃ borrowed : ℕ, magnitude (subtractLoop larger smaller borrow) + magnitude smaller + borrow.toNat =
      magnitude larger + base ^ larger.length * borrowed := by
  induction larger generalizing smaller borrow with
  | nil =>
    rw [List.eq_nil_of_length_eq_zero (Nat.le_zero.mp fits)]
    exact ⟨borrow.toNat, by simp [subtractLoop]⟩
  | cons limb larger ih =>
    have tailFits : smaller.tail.length ≤ larger.length := by
      rw [List.length_tail]
      rw [List.length_cons] at fits
      omega
    have isLimb := limb_lt limb
    have isHead := limb_lt (smaller.headD 0)
    have isBit := borrow.toNat_le
    have base_eq : (base : ℤ) = 1000000000 := rfl
    unfold subtractLoop
    dsimp only
    split
    next negative =>
      obtain ⟨borrowed, same⟩ := ih smaller.tail tailFits true
      refine ⟨borrowed, ?_⟩
      rw [magnitude_cons, magnitude_cons, magnitude_eq_head smaller, List.length_cons, pow_succ', Nat.mul_assoc]
      have := congrArg (base * ·) same
      simp only [Nat.mul_add, Bool.toNat_true, base] at this ⊢
      omega
    next positive =>
      obtain ⟨borrowed, same⟩ := ih smaller.tail tailFits false
      refine ⟨borrowed, ?_⟩
      rw [magnitude_cons, magnitude_cons, magnitude_eq_head smaller, List.length_cons, pow_succ', Nat.mul_assoc]
      have := congrArg (base * ·) same
      simp only [Nat.mul_add, Bool.toNat_false, base] at this ⊢
      omega

theorem length_subtractLoop (larger smaller : List Limb) (borrow : Bool) :
    (subtractLoop larger smaller borrow).length = larger.length := by
  induction larger generalizing smaller borrow with
  | nil => rfl
  | cons limb larger ih =>
    unfold subtractLoop
    dsimp only
    split <;> simp only [List.length_cons, ih]

theorem length_le_of_magnitude_le {larger smaller : List Limb} (normal : Normal smaller)
    (smallerLess : magnitude smaller ≤ magnitude larger) : smaller.length ≤ larger.length := by
  have digits := Nat.le_length_digits_le base _ _ smallerLess
  rw [digits_magnitude normal, List.length_map] at digits
  exact digits.trans ((Nat.digits_length_le_iff (by decide) _).mpr (magnitude_lt larger))

theorem magnitude_subtractMagnitudes {larger smaller : List Limb} (normal : Normal smaller)
    (smallerLess : magnitude smaller ≤ magnitude larger) :
    magnitude (subtractMagnitudes larger smaller) = magnitude larger - magnitude smaller := by
  obtain ⟨borrowed, same⟩ := magnitude_subtractLoop larger smaller (length_le_of_magnitude_le normal smallerLess) false
  have bound := magnitude_lt (subtractLoop larger smaller false)
  rw [length_subtractLoop] at bound
  have nothing : borrowed = 0 := by
    by_contra something
    have : base ^ larger.length * 1 ≤ base ^ larger.length * borrowed := Nat.mul_le_mul_left _ (Nat.pos_of_ne_zero something)
    simp only [Bool.toNat_false] at same
    omega
  rw [nothing, Nat.mul_zero, Bool.toNat_false] at same
  unfold subtractMagnitudes
  omega

/-! Comparison -/

/-- Of two numbers with equally many limbs, the first difference from the top decides. -/
theorem compare_limbs_eq {left right : List Limb} (sameLength : left.length = right.length) :
    compare left right = compare (magnitude left.reverse) (magnitude right.reverse) := by
  induction left generalizing right with
  | nil =>
    rw [List.eq_nil_of_length_eq_zero sameLength.symm]
    rfl
  | cons limb left ih =>
    cases right with
    | nil => cases sameLength
    | cons limb' right =>
      have sameTail : left.length = right.length := Nat.succ.inj sameLength
      simp only [List.compare_cons_cons, List.reverse_cons, magnitude_append, magnitude_singleton, List.length_reverse, ← sameTail, ih sameTail]
      have leftLt := magnitude_lt left.reverse
      have rightLt := magnitude_lt right.reverse
      rw [List.length_reverse] at leftLt rightLt
      rw [← sameTail] at rightLt
      rcases lt_trichotomy limb limb' with less | rfl | greater
      · have more : base ^ left.length * (limb + 1 : ℕ) ≤ base ^ left.length * limb' := Nat.mul_le_mul_left _ less
        rw [Nat.mul_add] at more
        have lower : magnitude left.reverse + base ^ left.length * limb < magnitude right.reverse + base ^ left.length * limb' := by
          omega
        rw [compare_lt_iff_lt.mpr less, compare_lt_iff_lt.mpr lower]
        rfl
      · rw [compare_eq_iff_eq.mpr rfl, Ordering.eq_then]
        simp only [Nat.compare_eq_ite_lt, Nat.add_lt_add_iff_right]
      · have more : base ^ left.length * (limb' + 1 : ℕ) ≤ base ^ left.length * limb := Nat.mul_le_mul_left _ greater
        rw [Nat.mul_add] at more
        have upper : magnitude left.reverse + base ^ left.length * limb > magnitude right.reverse + base ^ left.length * limb' := by
          omega
        rw [compare_gt_iff_gt.mpr greater, compare_gt_iff_gt.mpr upper]
        rfl

theorem magnitude_lt_of_length_lt {left right : List Limb} (normal : Normal right) (shorter : left.length < right.length) :
    magnitude left < magnitude right := by
  by_contra notLess
  exact absurd (length_le_of_magnitude_le normal (Nat.le_of_not_lt notLess)) (Nat.not_le.mpr shorter)

theorem compareMagnitudes_eq {left right : List Limb} (leftNormal : Normal left) (rightNormal : Normal right) :
    compareMagnitudes left right = compare (magnitude left) (magnitude right) := by
  unfold compareMagnitudes
  rcases lt_trichotomy left.length right.length with shorter | same | longer
  · rw [compare_lt_iff_lt.mpr shorter, compare_lt_iff_lt.mpr (magnitude_lt_of_length_lt rightNormal shorter)]
    rfl
  · rw [compare_eq_iff_eq.mpr same, compare_limbs_eq (by simpa using same), List.reverse_reverse, List.reverse_reverse]
    rfl
  · rw [compare_gt_iff_gt.mpr longer, compare_gt_iff_gt.mpr (magnitude_lt_of_length_lt leftNormal longer)]
    rfl

/-! Multiplication -/

theorem carryOn_eq {results : List Limb} {carry : Limb} (fits : magnitude results + carry < base ^ results.length) :
    ∃ row, carryOn results carry = some row ∧ row.length = results.length ∧ magnitude row = magnitude results + carry := by
  induction results generalizing carry with
  | nil =>
    have none : carry = 0 := Fin.ext (by simpa using fits)
    exact ⟨[], by simp [carryOn, none], rfl, by simp [none]⟩
  | cons result results ih =>
    unfold carryOn
    split
    next none => exact ⟨result :: results, rfl, rfl, by simp [none]⟩
    next some =>
      have whole := split_eq (carry_fits result carry)
      generalize split _ _ = parts at whole ⊢
      obtain ⟨low, high⟩ := parts
      dsimp only at whole ⊢
      rw [magnitude_cons, List.length_cons, pow_succ'] at fits
      have less : base * (magnitude results + high) < base * base ^ results.length := by rw [Nat.mul_add]; omega
      obtain ⟨row, isRow, sameLength, same⟩ := ih (Nat.lt_of_mul_lt_mul_left less)
      refine ⟨low :: row, by rw [isRow]; rfl, by rw [List.length_cons, sameLength, List.length_cons], ?_⟩
      rw [magnitude_cons, magnitude_cons, same, Nat.mul_add]
      omega

theorem multiplyRow_eq {left : Limb} {right results : List Limb} {carry : Limb} (longer : right.length ≤ results.length)
    (fits : magnitude results + left * magnitude right + carry < base ^ results.length) :
    ∃ row, multiplyRow left right results carry = some row ∧ row.length = results.length ∧
      magnitude row = magnitude results + left * magnitude right + carry := by
  induction right generalizing results carry with
  | nil => simpa [multiplyRow] using carryOn_eq (by simpa using fits)
  | cons limb right ih =>
    cases results with
    | nil => exact absurd longer (Nat.not_succ_le_zero _)
    | cons result results =>
      have whole := split_eq (product_fits result left limb carry)
      unfold multiplyRow
      generalize split _ _ = parts at whole ⊢
      obtain ⟨low, high⟩ := parts
      dsimp only at whole ⊢
      have expand : (left * (limb + base * magnitude right) : ℕ) = left * limb + base * (left * magnitude right) := by ring
      rw [magnitude_cons, magnitude_cons, List.length_cons, pow_succ', expand] at fits
      have less : base * (magnitude results + left * magnitude right + high) < base * base ^ results.length := by
        rw [Nat.mul_add, Nat.mul_add]
        omega
      obtain ⟨row, isRow, sameLength, same⟩ := ih (Nat.le_of_succ_le_succ longer) (Nat.lt_of_mul_lt_mul_left less)
      refine ⟨low :: row, by rw [isRow]; rfl, by rw [List.length_cons, sameLength, List.length_cons], ?_⟩
      rw [magnitude_cons, magnitude_cons, magnitude_cons, same, expand, Nat.mul_add, Nat.mul_add]
      omega

/-- The outer loop, where the result so far takes no more limbs than the right factor. -/
theorem multiplyLoop_eq {right left results : List Limb} (sameLength : results.length = left.length + right.length)
    (fits : magnitude results < base ^ right.length) :
    ∃ limbs, multiplyLoop right left results = some limbs ∧ magnitude limbs = magnitude results + magnitude left * magnitude right := by
  induction left generalizing results with
  | nil => exact ⟨results, rfl, by simp⟩
  | cons limb left ih =>
    rw [List.length_cons] at sameLength
    have rightLt := magnitude_lt right
    have product : (limb * magnitude right : ℕ) + base ^ right.length ≤ base * base ^ right.length := by
      have : ((limb + 1) * base ^ right.length : ℕ) ≤ base * base ^ right.length := Nat.mul_le_mul_right _ limb.isLt
      have : (limb * magnitude right : ℕ) ≤ limb * base ^ right.length := Nat.mul_le_mul_left _ rightLt.le
      rw [Nat.add_mul] at *
      omega
    have rowFits : magnitude results + limb * magnitude right < base ^ (right.length + 1) := by rw [pow_succ']; omega
    obtain ⟨row, isRow, rowLength, same⟩ := @multiplyRow_eq limb right results 0 (by omega)
      (rowFits.trans_le (Nat.pow_le_pow_right (by decide) (by omega)))
    unfold multiplyLoop
    cases row with
    | nil => simp only [List.length_nil] at rowLength; omega
    | cons result row =>
      have rest : magnitude row < base ^ right.length := by
        have : magnitude (result :: row) < base * base ^ right.length := by
          rw [same, ← pow_succ']
          exact rowFits
        rw [magnitude_cons] at this
        exact Nat.lt_of_mul_lt_mul_left (Nat.lt_of_le_of_lt (Nat.le_add_left _ _) this)
      rw [List.length_cons] at rowLength
      obtain ⟨limbs, isProduct, sameProduct⟩ := @ih row (by omega) rest
      refine ⟨result :: limbs, by rw [isRow]; simp only [isProduct, Option.map_some], ?_⟩
      rw [magnitude_cons] at same
      rw [magnitude_cons, magnitude_cons, sameProduct, Nat.mul_add, Nat.add_mul, Nat.mul_assoc]
      simp only [Fin.coe_ofNat_eq_mod, Nat.zero_mod, Nat.add_zero] at same
      omega

/-! Small operands -/

theorem magnitude_divideLoop (divisor : Divisor) (limbs : List Limb) :
    magnitude (divideLoop divisor limbs).1 * divisor.val + (divideLoop divisor limbs).2 = magnitude limbs := by
  induction limbs with
  | nil => simp [divideLoop]
  | cons limb limbs ih =>
    simp only [divideLoop, magnitude_cons, ← ih]
    generalize divideLoop divisor limbs = parts
    have := Nat.div_add_mod' (parts.2 * base + limb) divisor.val
    calc _ = base * magnitude parts.1 * divisor.val + ((parts.2 * base + limb) / divisor.val * divisor.val +
          (parts.2 * base + limb) % divisor.val) := by ring
      _ = _ := by rw [this]; ring

theorem magnitude_multiplySmallLoop (factor : Limb) (limbs : List Limb) (carry : Limb) :
    magnitude (multiplySmallLoop factor limbs carry) = magnitude limbs * factor + carry := by
  induction limbs generalizing carry with
  | nil =>
    unfold multiplySmallLoop
    split
    next none => simp [none]
    next => simp
  | cons limb limbs ih =>
    have whole := split_eq (scaled_fits limb factor carry)
    unfold multiplySmallLoop
    generalize split _ _ = parts at whole ⊢
    obtain ⟨low, high⟩ := parts
    dsimp only at whole ⊢
    rw [magnitude_cons, magnitude_cons, ih, Nat.mul_add, Nat.add_mul, Nat.mul_assoc]
    omega

theorem magnitude_addSmallLoop (limbs : List Limb) (carry : Limb) : magnitude (addSmallLoop limbs carry) = magnitude limbs + carry := by
  induction limbs generalizing carry with
  | nil =>
    unfold addSmallLoop
    split
    next none => simp [none]
    next => simp
  | cons limb limbs ih =>
    have whole := split_eq (carry_fits limb carry)
    unfold addSmallLoop
    generalize split _ _ = parts at whole ⊢
    obtain ⟨low, high⟩ := parts
    dsimp only at whole ⊢
    split
    next none =>
      have : (high : ℕ) = 0 := congrArg Fin.val none
      rw [magnitude_cons, magnitude_cons]
      rw [this] at whole
      omega
    next =>
      rw [magnitude_cons, magnitude_cons, ih, Nat.mul_add]
      omega

theorem normal_carry (carry : Limb) : Normal (if carry = 0 then [] else [carry]) := by
  split
  next =>
    rintro ⟨⟩
  next some =>
    refine normal_cons_iff.mpr ⟨fun _ => some, ?_⟩
    rintro ⟨⟩

theorem multiplySmallLoop_eq_nil {factor : Limb} {limbs : List Limb} {carry : Limb} (nothing : multiplySmallLoop factor limbs carry = []) :
    limbs = [] ∧ carry = 0 := by
  cases limbs with
  | nil =>
    unfold multiplySmallLoop at nothing
    split at nothing
    next none => exact ⟨rfl, none⟩
    next => cases nothing
  | cons limb limbs => cases nothing

/-- A factor other than zero makes no leading zero. -/
theorem normal_multiplySmallLoop {factor : Limb} (nonzero : factor ≠ 0) {limbs : List Limb} (normal : Normal limbs) (carry : Limb) :
    Normal (multiplySmallLoop factor limbs carry) := by
  induction limbs generalizing carry with
  | nil => exact normal_carry carry
  | cons limb limbs ih =>
    obtain ⟨leading, rest⟩ := normal_cons_iff.mp normal
    have whole := split_eq (scaled_fits limb factor carry)
    unfold multiplySmallLoop
    generalize split _ _ = parts at whole ⊢
    obtain ⟨low, high⟩ := parts
    dsimp only at whole ⊢
    refine normal_cons_iff.mpr ⟨fun last => ?_, ih rest high⟩
    obtain ⟨noLimbs, noCarry⟩ := multiplySmallLoop_eq_nil last
    rintro rfl
    have product : 0 < (limb * factor : ℕ) :=
      Nat.mul_pos (Nat.pos_of_ne_zero fun none => leading noLimbs (Fin.ext none)) (Nat.pos_of_ne_zero fun none => nonzero (Fin.ext none))
    rw [noCarry] at whole
    simp only [Fin.coe_ofNat_eq_mod, Nat.zero_mod, Nat.mul_zero, Nat.add_zero] at whole
    omega

theorem addSmallLoop_ne_nil {limbs : List Limb} {carry : Limb} (some : carry ≠ 0) : addSmallLoop limbs carry ≠ [] := by
  cases limbs with
  | nil => simp [addSmallLoop, some]
  | cons limb limbs =>
    unfold addSmallLoop
    dsimp only
    split <;> exact nofun

theorem normal_addSmallLoop {limbs : List Limb} (normal : Normal limbs) (carry : Limb) : Normal (addSmallLoop limbs carry) := by
  induction limbs generalizing carry with
  | nil => exact normal_carry carry
  | cons limb limbs ih =>
    obtain ⟨leading, rest⟩ := normal_cons_iff.mp normal
    have whole := split_eq (carry_fits limb carry)
    unfold addSmallLoop
    generalize split _ _ = parts at whole ⊢
    obtain ⟨low, high⟩ := parts
    dsimp only at whole ⊢
    split
    next noCarry =>
      refine normal_cons_iff.mpr ⟨fun last => ?_, rest⟩
      rintro rfl
      have : (limb : ℕ) ≠ 0 := fun none => leading last (Fin.ext none)
      rw [noCarry] at whole
      simp only [Fin.coe_ofNat_eq_mod, Nat.zero_mod, Nat.mul_zero, Nat.add_zero] at whole
      omega
    next some => exact normal_cons_iff.mpr ⟨fun last => absurd last (addSmallLoop_ne_nil some), ih rest high⟩

end HellRs.BigInteger
