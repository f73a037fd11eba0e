import Mathlib

/-! # Programs over a heap that only grows

A program with a state may stop. What is known of the state is said of a world, such as the kinds of the cells of a heap, and worlds
only grow: facts about a world stay true in all later ones. `Grows` says that a program takes a state of a world to a state of a later
one. What holds when the program stops is left to `stops`, as it may stop in the middle of a change.
-/

namespace HellRs

variable {σ W ε α β : Type}

/-- What a program comes to in a state. -/
def Ends [Preorder W] (holds : W → σ → Prop) (world : W) (post : W → α → Prop) (stops : ε → σ → Prop) : Except ε α × σ → Prop
  | (.ok value, state) => ∃ world', world ≤ world' ∧ holds world' state ∧ post world' value
  | (.error stop, state) => stops stop state

def Grows [Preorder W] (holds : W → σ → Prop) (world : W) (program : ExceptT ε (StateM σ) α) (post : W → α → Prop)
    (stops : ε → σ → Prop) : Prop :=
  ∀ state, holds world state → Ends holds world post stops (program state)

namespace Grows

variable [Preorder W] {holds : W → σ → Prop} {world : W} {program : ExceptT ε (StateM σ) α} {post : W → α → Prop}
  {stops stops' : ε → σ → Prop}

theorem pure {value : α} (there : post world value) : Grows holds world (pure value) post stops :=
  fun _ before => ⟨world, le_refl world, before, there⟩

theorem throw {stop : ε} (stopped : ∀ state, holds world state → stops stop state) :
    Grows holds world (throw stop : ExceptT ε (StateM σ) α) post stops :=
  fun state before => stopped state before

theorem bind {next : α → ExceptT ε (StateM σ) β} {post' : W → β → Prop} (first : Grows holds world program post stops)
    (continues : ∀ world', world ≤ world' → ∀ value, post world' value → Grows holds world' (next value) post' stops) :
    Grows holds world (program >>= next) post' stops := by
  intro state before
  have ended := first state before
  simp only [Bind.bind, ExceptT.bind, ExceptT.mk, StateT.bind]
  generalize program state = outcome at ended
  rcases outcome with ⟨_ | value, state'⟩
  · exact ended
  · obtain ⟨world', grown, after, there⟩ := ended
    have rest := continues world' grown value there state' after
    change Ends holds world post' stops (next value state')
    generalize next value state' = outcome at rest
    rcases outcome with ⟨_ | value', state''⟩
    · exact rest
    · obtain ⟨world'', grown', after', there'⟩ := rest
      exact ⟨world'', grown.trans grown', after', there'⟩

theorem mono {post' : W → α → Prop} (grows : Grows holds world program post stops)
    (weaker : ∀ world', world ≤ world' → ∀ value, post world' value → post' world' value)
    (stopped : ∀ stop state, stops stop state → stops' stop state) : Grows holds world program post' stops' := by
  intro state before
  have ended := grows state before
  generalize program state = outcome at ended ⊢
  rcases outcome with ⟨stop | value, state'⟩
  · exact stopped stop state' ended
  · obtain ⟨world', grown, after, there⟩ := ended
    exact ⟨world', grown, after, weaker world' grown value there⟩

end Grows

end HellRs
