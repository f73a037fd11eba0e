import Mathlib

/-! # Checked machine integers

The values of a signed integer of 64 bits, and the checked operations: an operation computes on the integers, and its
result counts when it fits.
-/

namespace HellRs

/-- The least signed integer of 64 bits. -/
def i64Min : ℤ := -2 ^ 63

/-- The greatest signed integer of 64 bits. -/
def i64Max : ℤ := 2 ^ 63 - 1

/-- The signed integers of 64 bits. -/
abbrev I64 := {value : ℤ // i64Min ≤ value ∧ value ≤ i64Max}

/-- The integer as a machine integer, when it fits. -/
def checked (value : ℤ) : Option I64 :=
  if fits : i64Min ≤ value ∧ value ≤ i64Max then some ⟨value, fits⟩ else none

theorem checked_eq_some_iff {value : ℤ} {machine : I64} : checked value = some machine ↔ machine.val = value := by
  unfold checked
  split
  next fits =>
    rw [Option.some.injEq, Subtype.ext_iff]
    exact eq_comm
  next exceeds =>
    refine ⟨nofun, fun equal => ?_⟩
    exact absurd (equal ▸ machine.property) exceeds

@[simp] theorem checked_val (machine : I64) : checked machine.val = some machine := checked_eq_some_iff.mpr rfl

theorem checked_eq_none_iff {value : ℤ} : checked value = none ↔ ¬(i64Min ≤ value ∧ value ≤ i64Max) := by
  unfold checked
  split <;> simp_all

theorem checked_of_fits {value : ℤ} (lower : i64Min ≤ value) (upper : value ≤ i64Max) :
    checked value = some ⟨value, lower, upper⟩ := checked_eq_some_iff.mpr rfl

theorem i64Min_le_i64Max : i64Min ≤ i64Max := by norm_num [i64Min, i64Max]

theorem i64Min_eq : i64Min = -i64Max - 1 := by norm_num [i64Min, i64Max]

theorem i64Max_pos : 0 < i64Max := by norm_num [i64Max]

end HellRs
