import HellRs.Lib.Loop

/-! # Traversals of trees in an arena

A work-list loop that visits an item and all its parts, where the parts of an item come before it in the
arena. The loop collects what each visited item emits.
-/

namespace HellRs.Traversal

open Loop Relation

variable {β : Type*} (children : ℕ → List ℕ) (emits : ℕ → List β)

/-- Visit the item on top of the stack. -/
def turn : List ℕ × List β → Option (Turn (List ℕ × List β) (List β))
  | ([], output) => some (.leave output)
  | (id :: work, output) => some (.again (children id ++ work, output ++ emits id))

/-- The second item is a part of the first, or the first itself. -/
def Part : ℕ → ℕ → Prop := ReflTransGen fun id child => child ∈ children id

/-- A list that holds what the items and their parts emit. -/
def Collects (items : List ℕ) (found : List β) : Prop :=
  ∀ value, value ∈ found ↔ ∃ item ∈ items, ∃ part, Part children item part ∧ value ∈ emits part

/-- The loop takes the items from the stack and adds what they emit to the output. -/
def Passes (items : List ℕ) (found : List β) : Prop :=
  ∀ work output, Reaches (turn children emits) (items ++ work, output) (work, output ++ found)

variable {children}

private theorem visits_all {items : List ℕ} (each : ∀ item ∈ items, ∃ found : List β,
      Collects children emits [item] found ∧ Passes children emits [item] found) :
    ∃ found, Collects children emits items found ∧ Passes children emits items found := by
  induction items with
  | nil => exact ⟨[], by simp [Collects], fun work output => by simpa using .refl⟩
  | cons item items ih =>
    obtain ⟨first, collects, passes⟩ := each item (List.mem_cons_self ..)
    obtain ⟨rest, collectsRest, passesRest⟩ := ih fun other member => each other (List.mem_cons_of_mem _ member)
    refine ⟨first ++ rest, fun value => ?_, fun work output => ?_⟩
    · rw [List.mem_append, collects value, collectsRest value]
      simp
    · rw [← List.append_assoc]
      exact (passes (items ++ work) output).trans (passesRest work (output ++ first))

/-- One item is visited with all its parts. -/
theorem visits (older : ∀ id, ∀ child ∈ children id, child < id) (id : ℕ) : ∃ found : List β,
    Collects children emits [id] found ∧ Passes children emits [id] found := by
  induction id using Nat.strong_induction_on with
  | _ id ih =>
    obtain ⟨found, collects, passes⟩ := visits_all emits fun child member => ih child (older id child member)
    refine ⟨emits id ++ found, fun value => ?_, fun work output => ?_⟩
    · rw [List.mem_append, collects value]
      constructor
      · rintro (here | ⟨child, isChild, part, isPart, emitted⟩)
        · exact ⟨id, List.mem_singleton_self _, id, .refl, here⟩
        · exact ⟨id, List.mem_singleton_self _, part, .head isChild isPart, emitted⟩
      · rintro ⟨item, isItem, part, isPart, emitted⟩
        obtain rfl := List.mem_singleton.mp isItem
        rcases isPart.cases_head with rfl | ⟨child, isChild, isPart'⟩
        · exact .inl emitted
        · exact .inr ⟨child, isChild, part, isPart', emitted⟩
    · rw [← List.append_assoc]
      exact .head rfl (passes work (output ++ emits id))

/-- The loop ends, and its output is what the item and its parts emit. -/
theorem traversal_returns (older : ∀ id, ∀ child ∈ children id, child < id) (id : ℕ) : ∃ found : List β,
    Returns (turn children emits) ([id], []) found ∧
      ∀ value, value ∈ found ↔ ∃ part, Part children id part ∧ value ∈ emits part := by
  obtain ⟨found, collects, passes⟩ := visits emits older id
  refine ⟨found, (passes [] []).returns (returns_of_leave rfl), fun value => ?_⟩
  simpa using collects value

end HellRs.Traversal
