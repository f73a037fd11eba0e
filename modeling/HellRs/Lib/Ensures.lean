import Mathlib

/-! # Computations with a state that fail or panic

A failure is an answer of the computation; a panic is what a proof excludes. `Ensures` says of a computation
that it never panics and that every value it returns is of a kind, from whatever state it starts.
-/

namespace HellRs

inductive Stop (ε : Type*) where
  | panic
  | error (error : ε)
deriving DecidableEq

abbrev Fallible (σ ε : Type) := StateT σ (Except (Stop ε))

variable {σ ε α β : Type}

namespace Fallible

/-- A computation that only fails. -/
def ask (computation : StateT σ (Except ε) α) : Fallible σ ε α := fun state =>
  match computation state with
  | .ok result => .ok result
  | .error error => .error (.error error)

/-- A value that has to be there. -/
def expect : Option α → Fallible σ ε α
  | some value => pure value
  | none => throw .panic

end Fallible

open Fallible

theorem except_bind_eq_ok_iff {first : Except ε α} {next : α → Except ε β} {result : β} :
    (first >>= next) = .ok result ↔ ∃ value, first = .ok value ∧ next value = .ok result := by
  cases first with
  | error error => exact ⟨nofun, nofun⟩
  | ok value =>
    constructor
    · exact fun answered => ⟨value, rfl, answered⟩
    · rintro ⟨value', same, answered⟩
      cases same
      exact answered

theorem bind_eq_ok_iff {first : StateT σ (Except ε) α} {next : α → StateT σ (Except ε) β} {state : σ} {result : β × σ} :
    (first >>= next) state = .ok result ↔ ∃ value state', first state = .ok (value, state') ∧ next value state' = .ok result := by
  simp only [StateT.bind, Bind.bind, Except.bind]
  cases first state with
  | error error => simp
  | ok answer =>
    constructor
    · exact fun answered => ⟨answer.1, answer.2, rfl, answered⟩
    · rintro ⟨value, state', same, answered⟩
      cases same
      exact answered

theorem bind_ne_error {first : StateT σ (Except ε) α} {next : α → StateT σ (Except ε) β}
    (never : ∀ state error, first state ≠ .error error) (continues : ∀ value state error, next value state ≠ .error error)
    (state : σ) (error : ε) : (first >>= next) state ≠ .error error := by
  have answered := never state
  simp only [StateT.bind, Bind.bind, Except.bind]
  cases outcome : first state with
  | error error => exact absurd outcome (answered error)
  | ok answer => exact continues answer.1 answer.2 error

def Ensures (computation : Fallible σ ε α) (post : α → Prop) : Prop := ∀ state,
  match computation state with
  | .ok (value, _) => post value
  | .error .panic => False
  | .error (.error _) => True

namespace Ensures

variable {computation : Fallible σ ε α} {post : α → Prop}

theorem of_ok (ensures : Ensures computation post) {state state' : σ} {value : α}
    (returned : computation state = .ok (value, state')) : post value := by
  have := ensures state
  rwa [returned] at this

theorem no_panic (ensures : Ensures computation post) (state : σ) : computation state ≠ .error .panic := by
  intro panicked
  have := ensures state
  rwa [panicked] at this

theorem pure {value : α} (holds : post value) : Ensures (pure value : Fallible σ ε α) post := fun _ => holds

theorem bind {next : α → Fallible σ ε β} {post' : β → Prop} (ensures : Ensures computation post)
    (continues : ∀ value, post value → Ensures (next value) post') : Ensures (computation >>= next) post' := by
  intro state
  have first := ensures state
  simp only [StateT.bind, Bind.bind, Except.bind]
  generalize computation state = outcome at first
  rcases outcome with (_ | _) | ⟨value, state'⟩
  · exact first
  · trivial
  · exact continues value first state'

theorem mono {post' : α → Prop} (ensures : Ensures computation post) (weaker : ∀ value, post value → post' value) :
    Ensures computation post' := by
  intro state
  have holds := ensures state
  generalize computation state = outcome at holds
  rcases outcome with (_ | _) | ⟨value, _⟩
  · exact holds
  · trivial
  · exact weaker value holds

theorem and {post' : α → Prop} (ensures : Ensures computation post) (ensures' : Ensures computation post') :
    Ensures computation fun value => post value ∧ post' value := by
  intro state
  have first := ensures state
  have second := ensures' state
  generalize computation state = outcome at first second
  rcases outcome with (_ | _) | _
  · exact first
  · trivial
  · exact ⟨first, second⟩

theorem expect {result : Option α} {value : α} (there : result = some value) (holds : post value) :
    Ensures (expect result : Fallible σ ε α) post := by
  subst there
  exact pure holds

theorem bind_expect {result : Option α} {value : α} {next : α → Fallible σ ε β} {post' : β → Prop}
    (there : result = some value) (continues : Ensures (next value) post') :
    Ensures (Fallible.expect result >>= next) post' :=
  (expect there rfl).bind fun _ same => same ▸ continues

theorem foldlM {next : β → α → Fallible σ ε β} {post' : β → Prop} {items : List α}
    (step : ∀ value item, post' value → Ensures (next value item) post') {value : β} (holds : post' value) :
    Ensures (items.foldlM next value) post' := by
  induction items generalizing value with
  | nil => exact pure holds
  | cons item items ih => exact bind (step value item holds) fun _ holds => ih holds

theorem ask {computation : StateT σ (Except ε) α}
    (answers : ∀ state value state', computation state = .ok (value, state') → post value) :
    Ensures (ask computation) post := by
  intro state
  unfold Fallible.ask
  rcases answered : computation state with _ | ⟨value, state'⟩
  · trivial
  · exact answers state value state' answered

/-- Nothing is known of the answer. -/
theorem bind_ask {computation : StateT σ (Except ε) α} {next : α → Fallible σ ε β} {post' : β → Prop}
    (continues : ∀ value, Ensures (next value) post') : Ensures (Fallible.ask computation >>= next) post' :=
  bind (ask fun _ _ _ _ => trivial) fun value (_ : True) => continues value

/-- What follows a computation may be replaced for the values that it can return. -/
theorem bind_congr {first second : α → Fallible σ ε β} (ensures : Ensures computation post)
    (same : ∀ value, post value → first value = second value) : computation >>= first = computation >>= second := by
  funext state
  have holds := ensures state
  simp only [StateT.bind, Bind.bind, Except.bind]
  generalize computation state = outcome at holds
  rcases outcome with (_ | _) | ⟨value, state'⟩
  · rfl
  · rfl
  · exact congrFun (same value holds) state'

end Ensures

/-- The computation does not fail, whatever it panics on. -/
def NeverFails (computation : Fallible σ ε α) : Prop := ∀ state error, computation state ≠ .error (.error error)

namespace NeverFails

variable {computation : Fallible σ ε α}

theorem pure (value : α) : NeverFails (pure value : Fallible σ ε α) := fun _ _ => nofun

theorem bind {next : α → Fallible σ ε β} (never : NeverFails computation) (continues : ∀ value, NeverFails (next value)) :
    NeverFails (computation >>= next) := by
  intro state error failed
  have first := never state
  simp only [StateT.bind, Bind.bind, Except.bind] at failed
  generalize computation state = outcome at first failed
  rcases outcome with (_ | _) | ⟨value, state'⟩
  · cases failed
  · exact first _ rfl
  · exact continues value state' error failed

theorem expect (result : Option α) : NeverFails (expect result : Fallible σ ε α) := by
  cases result <;> exact fun _ _ => nofun

theorem ask {computation : StateT σ (Except ε) α} (answers : ∀ state error, computation state ≠ .error error) :
    NeverFails (ask computation) := by
  intro state error failed
  unfold Fallible.ask at failed
  rcases answered : computation state with other | ⟨value, state'⟩
  · exact answers state other answered
  · rw [answered] at failed
    cases failed

theorem foldlM {next : β → α → Fallible σ ε β} (step : ∀ value item, NeverFails (next value item)) (items : List α)
    (value : β) : NeverFails (items.foldlM next value) := by
  induction items generalizing value with
  | nil => exact pure value
  | cons item items ih => exact bind (step value item) ih

end NeverFails

/-- The computation returns a value of a kind. -/
def Succeeds (computation : Fallible σ ε α) (post : α → Prop) : Prop :=
  ∀ state, ∃ value state', computation state = .ok (value, state') ∧ post value

theorem Ensures.succeeds {computation : Fallible σ ε α} {post : α → Prop} (ensures : Ensures computation post)
    (never : NeverFails computation) : Succeeds computation post := by
  intro state
  have holds := ensures state
  have fails := never state
  generalize computation state = outcome at holds fails
  rcases outcome with (_ | error) | ⟨value, state'⟩
  · exact holds.elim
  · exact (fails error rfl).elim
  · exact ⟨value, state', rfl, holds⟩

/-- The computation returns a value of a kind and leaves the state as it is. -/
def Reads (computation : Fallible σ ε α) (post : α → Prop) : Prop :=
  ∀ state, ∃ value, computation state = .ok (value, state) ∧ post value

namespace Reads

variable {computation : Fallible σ ε α} {post : α → Prop}

theorem pure {value : α} (holds : post value) : Reads (pure value : Fallible σ ε α) post := fun _ => ⟨value, rfl, holds⟩

/-- A value that makes no difference need not be read. -/
theorem bind_eq {first : α → Fallible σ ε β} {second : Fallible σ ε β} (reads : Reads computation post)
    (same : ∀ value, post value → first value = second) : computation >>= first = second := by
  funext state
  obtain ⟨value, isRead, holds⟩ := reads state
  simp only [StateT.bind, Bind.bind, Except.bind, isRead]
  exact congrFun (same value holds) state

end Reads

end HellRs
