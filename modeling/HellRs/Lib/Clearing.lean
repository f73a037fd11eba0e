import Mathlib

/-! # Clearing a relation

Items are cleared one after the other, each when all it depends on has been cleared. What can be
cleared is accessible, and a set of items none of which can be cleared next is not.
-/

namespace HellRs.Clearing

variable {α : Type*} {depends : α → α → Prop}

/-- Each item comes after all it depends on. -/
inductive Clears (depends : α → α → Prop) : List α → Prop
  | nil : Clears depends []
  | snoc {order : List α} {item : α} (cleared : Clears depends order)
      (ready : ∀ dependency, depends item dependency → dependency ∈ order) : Clears depends (order ++ [item])

theorem Clears.acc {order : List α} (cleared : Clears depends order) :
    ∀ item ∈ order, Acc (fun dependency item => depends item dependency) item := by
  induction cleared with
  | nil => simp
  | snoc _ ready ih =>
    intro item member
    rcases List.mem_append.mp member with earlier | last
    · exact ih item earlier
    · obtain rfl := List.mem_singleton.mp last
      exact .intro _ fun dependency isDependency => ih dependency (ready dependency isDependency)

/-- What has been cleared has ranks below the number of cleared items, which dependencies lower. -/
theorem Clears.exists_rank {order : List α} (cleared : Clears depends order) : ∃ rank : α → ℕ,
    ∀ item ∈ order, rank item < order.length ∧
      ∀ dependency, depends item dependency → dependency ∈ order ∧ rank dependency < rank item := by
  classical
  induction cleared with
  | nil => exact ⟨fun _ => 0, by simp⟩
  | @snoc order item _ ready ih =>
    obtain ⟨rank, ranked⟩ := ih
    by_cases isOld : item ∈ order
    · refine ⟨rank, fun other member => ?_⟩
      have member' : other ∈ order := by
        rcases List.mem_append.mp member with old | last
        · exact old
        · exact List.mem_singleton.mp last ▸ isOld
      obtain ⟨below, lower⟩ := ranked other member'
      refine ⟨by simp; omega, fun dependency isDependency => ?_⟩
      exact ⟨List.mem_append_left _ (lower dependency isDependency).1, (lower dependency isDependency).2⟩
    · obtain ⟨rank', self, others⟩ : ∃ rank' : α → ℕ,
          rank' item = order.length ∧ ∀ old ∈ order, rank' old = rank old := by
        refine ⟨Function.update rank item order.length, Function.update_self .., fun old member => ?_⟩
        have differs : old ≠ item := fun same => isOld (same ▸ member)
        rw [Function.update_of_ne differs]
      refine ⟨rank', fun other member => ?_⟩
      rcases List.mem_append.mp member with old | last
      · obtain ⟨below, lower⟩ := ranked other old
        rw [others other old]
        refine ⟨by simp; omega, fun dependency isDependency => ?_⟩
        obtain ⟨earlier, less⟩ := lower dependency isDependency
        exact ⟨List.mem_append_left _ earlier, by rwa [others dependency earlier]⟩
      · obtain rfl := List.mem_singleton.mp last
        rw [self]
        refine ⟨by simp, fun dependency isDependency => ?_⟩
        have earlier := ready dependency isDependency
        exact ⟨List.mem_append_left _ earlier, others dependency earlier ▸ (ranked dependency earlier).1⟩

/-- Items that all depend on one another's company are stuck. -/
theorem not_acc_of_stuck {stuck : α → Prop}
    (onward : ∀ item, stuck item → ∃ dependency, depends item dependency ∧ stuck dependency)
    {item : α} (isStuck : stuck item) : ¬Acc (fun dependency item => depends item dependency) item := by
  intro acc
  induction acc with
  | intro item _ ih =>
    obtain ⟨dependency, isDependency, isStuck'⟩ := onward item isStuck
    exact ih dependency isDependency isStuck'

/-- A well-founded relation has no cycle. -/
theorem no_cycle (wellFounded : WellFounded fun dependency item => depends item dependency) (item : α) :
    ¬Relation.TransGen depends item item := by
  intro cycle
  have back := Relation.transGen_swap.mpr cycle
  exact wellFounded.transGen.irrefl.irrefl item back

end HellRs.Clearing
