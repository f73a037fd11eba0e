import Mathlib

/-! # Labelled transition systems

A step relation whose steps carry the act that is done. A run may be restricted to acts that fit the state they are done
in: what holds at the start and is kept by every step that fits holds wherever such a run leads. Where some party can
always act so that a rank drops, its acts alone lead to the end.
-/

namespace HellRs.Labelled

open Relation

variable {σ α : Type*} {Step : σ → α → σ → Prop} {Fits Fits' : α → σ → Prop}

/-- A run all of whose acts fit. -/
def Runs (Step : σ → α → σ → Prop) (Fits : α → σ → Prop) : σ → σ → Prop :=
  ReflTransGen fun state next => ∃ act, Fits act state ∧ Step state act next

/-- A run of any acts. -/
abbrev Reaches (Step : σ → α → σ → Prop) : σ → σ → Prop := Runs Step fun _ _ => True

theorem Runs.refl (state : σ) : Runs Step Fits state state := ReflTransGen.refl

theorem Runs.tail {first state next : σ} (runs : Runs Step Fits first state) {act : α} (step : Step state act next)
    (fits : Fits act state) : Runs Step Fits first next :=
  ReflTransGen.tail runs ⟨act, fits, step⟩

theorem Runs.head {state next last : σ} {act : α} (step : Step state act next) (fits : Fits act state)
    (runs : Runs Step Fits next last) : Runs Step Fits state last :=
  ReflTransGen.head ⟨act, fits, step⟩ runs

theorem Runs.mono (weaker : ∀ act state, Fits act state → Fits' act state) {first last : σ}
    (runs : Runs Step Fits first last) : Runs Step Fits' first last :=
  ReflTransGen.mono (fun _ _ ⟨act, fits, step⟩ => ⟨act, weaker act _ fits, step⟩) _ _ runs

/-- What every step that fits keeps holds along a run. -/
theorem Runs.invariant {first last : σ} (runs : Runs Step Fits first last) (Invariant : σ → Prop)
    (keeps : ∀ state act next, Invariant state → Fits act state → Step state act next → Invariant next)
    (holds : Invariant first) : Invariant last := by
  induction runs with
  | refl => exact holds
  | tail _ step ih =>
    obtain ⟨act, fits, step⟩ := step
    exact keeps _ _ _ ih fits step

/-- Some act that fits is possible and lowers the rank until the end is reached, so such acts alone lead there. -/
theorem exists_end {Invariant Done : σ → Prop} (rank : σ → ℕ)
    (advances : ∀ state, Invariant state → Done state ∨
      ∃ act next, Fits act state ∧ Step state act next ∧ Invariant next ∧ rank next < rank state)
    {state : σ} (holds : Invariant state) : ∃ last, Runs Step Fits state last ∧ Done last := by
  induction bound : rank state using Nat.strong_induction_on generalizing state with
  | _ bound' ih =>
    obtain done | ⟨act, next, fits, step, holds', lower⟩ := advances state holds
    · exact ⟨state, .refl state, done⟩
    · obtain ⟨last, runs, done⟩ := ih (rank next) (bound ▸ lower) holds' rfl
      exact ⟨last, runs.head step fits, done⟩

end HellRs.Labelled
