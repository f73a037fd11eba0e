import Mathlib

/-! # Work-list loops with explicit fuel

A loop is given by what one turn does to its state: it goes on with a new state, it leaves with a
value, or it has no result at all (a panic, or an inner loop that did not finish). `run` iterates
a turn a bounded number of times, so it computes; `Returns` forgets the bound. The rules below are
the ones a verification of such a loop needs: an invariant gives partial correctness, an invariant
with a decreasing measure gives termination, and both survive more fuel. Where a loop need not
leave, a measure that never grows still bounds how often a turn makes progress.
-/

namespace HellRs.Loop

variable {σ β : Type*}

/-- The effect of one turn of a loop on its state. -/
inductive Turn (σ β : Type*) where
  | again (state : σ)
  | leave (value : β)
deriving DecidableEq

/-- At most `fuel` turns from a state. -/
def run (turn : σ → Option (Turn σ β)) : ℕ → σ → Option β
  | 0, _ => none
  | fuel + 1, state =>
      match turn state with
      | none => none
      | some (.again next) => run turn fuel next
      | some (.leave value) => some value

/-- The loop leaves with this value, whatever number of turns it takes. -/
def Returns (turn : σ → Option (Turn σ β)) (state : σ) (value : β) : Prop :=
  ∃ fuel, run turn fuel state = some value

/-- Some turns that all go on lead from one state to the other. -/
def Reaches (turn : σ → Option (Turn σ β)) : σ → σ → Prop :=
  Relation.ReflTransGen fun state next => turn state = some (.again next)

variable {turn : σ → Option (Turn σ β)}

section Equations

-- Made here once, and not by each proof that rewrites with them.
attribute [local simp] run

end Equations

theorem run_again {state next : σ} (again : turn state = some (.again next)) (fuel : ℕ) :
    run turn (fuel + 1) state = run turn fuel next := by
  simp only [run, again]

theorem run_leave {state : σ} {value : β} (leave : turn state = some (.leave value)) (fuel : ℕ) :
    run turn (fuel + 1) state = some value := by
  simp only [run, leave]

/-- More fuel, and a turn that has a result more often, keep every result. -/
theorem run_mono {turn' : σ → Option (Turn σ β)}
    (finer : ∀ state result, turn state = some result → turn' state = some result)
    {fuel fuel' : ℕ} (le : fuel ≤ fuel') {state : σ} {value : β}
    (returned : run turn fuel state = some value) : run turn' fuel' state = some value := by
  induction fuel generalizing fuel' state with
  | zero => simp [run] at returned
  | succ fuel ih =>
    obtain ⟨rest, rfl⟩ : ∃ rest, fuel' = rest + 1 := ⟨fuel' - 1, by omega⟩
    cases result : turn state with
    | none => simp [run, result] at returned
    | some effect =>
      cases effect with
      | again next =>
        rw [run_again result] at returned
        rw [run_again (finer _ _ result)]
        exact ih (by omega) returned
      | leave found =>
        rw [run_leave result] at returned
        rw [run_leave (finer _ _ result)]
        exact returned

theorem Returns.unique {state : σ} {first second : β} (left : Returns turn state first)
    (right : Returns turn state second) : first = second := by
  obtain ⟨m, left⟩ := left
  obtain ⟨n, right⟩ := right
  have left' := run_mono (fun _ _ same => same) (le_max_left m n) left
  have right' := run_mono (fun _ _ same => same) (le_max_right m n) right
  exact Option.some.inj (left'.symm.trans right')

theorem returns_of_leave {state : σ} {value : β} (leave : turn state = some (.leave value)) :
    Returns turn state value :=
  ⟨1, run_leave leave 0⟩

theorem returns_of_again {state next : σ} {value : β} (again : turn state = some (.again next))
    (rest : Returns turn next value) : Returns turn state value := by
  obtain ⟨fuel, rest⟩ := rest
  exact ⟨fuel + 1, (run_again again fuel).trans rest⟩

theorem Reaches.single {state next : σ} (again : turn state = some (.again next)) :
    Reaches turn state next :=
  Relation.ReflTransGen.single again

theorem Reaches.head {state middle target : σ} (again : turn state = some (.again middle))
    (rest : Reaches turn middle target) : Reaches turn state target :=
  Relation.ReflTransGen.head again rest

theorem Reaches.trans {state middle target : σ} (first : Reaches turn state middle)
    (second : Reaches turn middle target) : Reaches turn state target :=
  Relation.ReflTransGen.trans first second

/-- A value returned from a later state of the loop is returned from the earlier one. -/
theorem Reaches.returns {state target : σ} {value : β} (path : Reaches turn state target)
    (rest : Returns turn target value) : Returns turn state value := by
  induction path using Relation.ReflTransGen.head_induction_on with
  | refl => exact rest
  | head again _ ih => exact returns_of_again again ih

/-- Partial correctness: what every turn preserves and every exit establishes holds of the result. -/
theorem run_invariant (Inv : σ → Prop) (Post : β → Prop)
    (keeps : ∀ state next, Inv state → turn state = some (.again next) → Inv next)
    (exits : ∀ state value, Inv state → turn state = some (.leave value) → Post value)
    {fuel : ℕ} {state : σ} {value : β} (holds : Inv state)
    (returned : run turn fuel state = some value) : Post value := by
  induction fuel generalizing state with
  | zero => simp [run] at returned
  | succ fuel ih =>
    cases result : turn state with
    | none => simp [run, result] at returned
    | some effect =>
      cases effect with
      | again next =>
        rw [run_again result] at returned
        exact ih (keeps _ _ holds result) returned
      | leave found =>
        rw [run_leave result] at returned
        obtain rfl := Option.some.inj returned
        exact exits _ _ holds result

theorem Reaches.mono {turn' : σ → Option (Turn σ β)}
    (finer : ∀ state result, turn state = some result → turn' state = some result) {state target : σ}
    (path : Reaches turn state target) : Reaches turn' state target := by
  induction path with
  | refl => exact .refl
  | tail _ again ih => exact .tail ih (finer _ _ again)

/-- Total correctness up to states in which a turn may have no result: with a well-founded measure
every turn of which makes progress, the loop leaves with a value or comes to such a state. The turn
itself may need fuel for loops inside it. -/
theorem run_total_or {δ : Type*} [WellFoundedRelation δ] (turn : ℕ → σ → Option (Turn σ β))
    (finer : ∀ {fuel fuel' : ℕ}, fuel ≤ fuel' → ∀ state result,
      turn fuel state = some result → turn fuel' state = some result)
    (Inv : σ → Prop) (Post : β → Prop) (Stuck : σ → Prop) (measure : σ → δ)
    (progress : ∀ state, Inv state →
      (∃ fuel next, turn fuel state = some (.again next) ∧ Inv next ∧
        WellFoundedRelation.rel (measure next) (measure state)) ∨
      (∃ fuel value, turn fuel state = some (.leave value) ∧ Post value) ∨ Stuck state)
    (state : σ) (holds : Inv state) :
    (∃ fuel value, run (turn fuel) fuel state = some value ∧ Post value) ∨
      ∃ fuel target, Reaches (turn fuel) state target ∧ Stuck target := by
  induction state using (InvImage.wf measure WellFoundedRelation.wf).induction with
  | _ state ih =>
    rcases progress state holds with
      ⟨first, next, again, kept, less⟩ | ⟨fuel, value, leave, post⟩ | stuck
    · rcases ih next less kept with ⟨rest, value, returned, post⟩ | ⟨rest, target, path, stuck⟩
      · refine .inl ⟨max first rest + 1, value, ?_, post⟩
        rw [run_again (finer (by omega) _ _ again)]
        exact run_mono (finer (by omega)) (le_max_right first rest) returned
      · refine .inr ⟨max first rest, target, ?_, stuck⟩
        exact Reaches.head (finer (le_max_left first rest) _ _ again)
          (path.mono (finer (le_max_right first rest)))
    · refine .inl ⟨fuel + 1, value, ?_, post⟩
      rw [run_leave (finer (by omega) _ _ leave)]
    · exact .inr ⟨0, state, .refl, stuck⟩

/-- Total correctness: with a well-founded measure every turn of which makes progress, the loop
leaves with a value. -/
theorem run_total {δ : Type*} [WellFoundedRelation δ] (turn : ℕ → σ → Option (Turn σ β))
    (finer : ∀ {fuel fuel' : ℕ}, fuel ≤ fuel' → ∀ state result,
      turn fuel state = some result → turn fuel' state = some result)
    (Inv : σ → Prop) (Post : β → Prop) (measure : σ → δ)
    (progress : ∀ state, Inv state →
      (∃ fuel next, turn fuel state = some (.again next) ∧ Inv next ∧
        WellFoundedRelation.rel (measure next) (measure state)) ∨
      ∃ fuel value, turn fuel state = some (.leave value) ∧ Post value)
    (state : σ) (holds : Inv state) :
    ∃ fuel value, run (turn fuel) fuel state = some value ∧ Post value :=
  (run_total_or turn finer Inv Post (fun _ => False) measure
    (fun state holds => (progress state holds).imp_right .inl) state holds).resolve_right
    fun ⟨_, _, _, stuck⟩ => stuck

/-- The same rule for a turn with no inner loop. -/
theorem returns_total {δ : Type*} [WellFoundedRelation δ] (turn : σ → Option (Turn σ β))
    (Inv : σ → Prop) (Post : β → Prop) (measure : σ → δ)
    (progress : ∀ state, Inv state →
      (∃ next, turn state = some (.again next) ∧ Inv next ∧
        WellFoundedRelation.rel (measure next) (measure state)) ∨
      ∃ value, turn state = some (.leave value) ∧ Post value)
    (state : σ) (holds : Inv state) : ∃ value, Returns turn state value ∧ Post value := by
  obtain ⟨fuel, value, returned, post⟩ := run_total (fun _ => turn)
    (fun _ _ _ same => same) Inv Post measure
    (fun state holds => (progress state holds).imp (fun ⟨next, rest⟩ => ⟨0, next, rest⟩)
      (fun ⟨value, rest⟩ => ⟨0, value, rest⟩)) state holds
  exact ⟨value, ⟨fuel, returned⟩, post⟩

/-- Along an infinite sequence, a well-founded measure that never grows decreases only finitely
often. -/
theorem finite_descents {δ : Type*} {less : δ → δ → Prop} (wf : WellFounded less) (measure : ℕ → δ)
    (descends : ℕ → Prop) (start : ℕ)
    (stays : ∀ n, start ≤ n → measure (n + 1) = measure n ∨ less (measure (n + 1)) (measure n))
    (strict : ∀ n, start ≤ n → descends n → less (measure (n + 1)) (measure n)) :
    {n | start ≤ n ∧ descends n}.Finite := by
  induction at_ : measure start using wf.induction generalizing start with
  | _ bound ih =>
    subst at_
    by_cases further : ∃ n, start ≤ n ∧ less (measure (n + 1)) (measure n)
    · -- The first decrease from the start on divides the sequence.
      classical
      obtain ⟨after, less'⟩ := Nat.find_spec further
      have least := fun n => @Nat.find_min _ _ further n
      generalize Nat.find further = first at after less' least
      have same : ∀ n, start ≤ n → n ≤ first → measure n = measure start := by
        intro n le upper
        induction n, le using Nat.le_induction with
        | base => rfl
        | succ n le previous =>
          rcases stays n le with equal | decrease
          · exact equal.trans (previous (by omega))
          · exact absurd ⟨le, decrease⟩ (least n (by omega))
      rw [same first after le_rfl] at less'
      have rest := ih _ less' (first + 1) (fun n le => stays n (by omega))
        (fun n le => strict n (by omega)) rfl
      refine ((Set.finite_le_nat first).union rest).subset ?_
      rintro n ⟨le, down⟩
      rcases Nat.lt_or_ge first n with later | earlier
      · exact .inr ⟨later, down⟩
      · exact .inl earlier
    · refine Set.finite_empty.subset ?_
      rintro n ⟨le, down⟩
      exact further ⟨n, le, strict n le down⟩

end HellRs.Loop
