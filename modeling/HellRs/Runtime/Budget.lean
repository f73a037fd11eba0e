import HellRs.Core.Verify
import HellRs.Lib.Loop
import HellRs.Runtime.Links

/-! # Iterations and charges

Every iteration of `run_machine` charges one step. Between two charges an evaluator follows links,
unwinds, drops guards, waits or runs native code, and all of these but the last two come to an end
when the links are acyclic. So an evaluator with a finite budget iterates only finitely often, if
its native code passes on the error of a nested call that was stopped.
-/

namespace HellRs.Runtime

open Core Builtins Chase

variable {H : Host}

/-- Native code passes the error of a nested call on. -/
def Natives.Propagates (natives : Natives H) : Prop :=
  ∀ (operation : H.Code) (captured : List ThunkId) (error : RuntimeError), ∃ error',
    natives.act (natives.resume operation captured (.error error)).1
      (natives.resume operation captured (.error error)).2 = .fail error'

/-- The step is an iteration of `run_machine` or of one of the loops in it, other than a round of
waiting for another evaluator. -/
def Local.Iterates (self : EvaluationId) (state : Local H) : Prop :=
  match state.phase with
  | .loop _ | .unwinding _ | .dropping _ _ => True
  | .entering thunk => ∀ owner, state.heap[thunk]? = some (.evaluating owner) → owner = self
  | _ => False

/-- The step is an iteration of `run_machine` whose charge succeeds. -/
def Local.Charges (state : Local H) : Prop :=
  state.evaluator.stopped = none ∧ match state.phase with
    | .loop _ => True
    | _ => False

/-- How far running code is from its next iteration, without another nested call. -/
def Running.rank (natives : Natives H) (running : Running H ThunkId) : ℕ :=
  match running.act natives with
  | .force _ | .allocate _ => 7
  | _ => 3

/-- How far an evaluator is from its next charge: every nested call can end in one more iteration of
its caller. -/
def Phase.rank (natives : Natives H) (phase : Phase H) (stack : Stack H) : ℕ × (ThunkId ⊕ ℕ) :=
  let nested := 4 * stack.countP Frame.isForcing
  match phase with
  | .idle | .finished _ => (nested, .inr 0)
  | .loop _ => (nested + 2, .inr 0)
  | .entering thunk | .waiting thunk _ | .woken thunk => (nested + 8, .inl thunk)
  | .running code => (nested + code.rank natives, .inr 0)
  | .unwinding _ => (nested + 1, .inr stack.length)
  | .dropping _ guards => (nested + 1, .inr guards.length)

def Local.rank (natives : Natives H) (state : Local H) : ℕ × (ThunkId ⊕ ℕ) :=
  state.phase.rank natives state.stack

/-- Less far from the next charge, over these links. -/
def Nearer (links : ThunkId → Option ThunkId) : ℕ × (ThunkId ⊕ ℕ) → ℕ × (ThunkId ⊕ ℕ) → Prop :=
  Prod.Lex (· < ·) (Sum.Lex (fun target thunk => links thunk = some target) (· < ·))

theorem Nearer.of_lt {links : ThunkId → Option ThunkId} {first second : ℕ × (ThunkId ⊕ ℕ)}
    (less : first.1 < second.1) : Nearer links first second :=
  Prod.Lex.left first.2 second.2 less

theorem nearer_wellFounded {heap : Heap H} (acyclic : Acyclic heap.links) :
    WellFounded (Nearer heap.links) :=
  WellFounded.prod_lex Nat.lt_wfRel.wf
    (Sum.lex_wf (acyclic.wellFounded _ fun _ _ link => Heap.links_key _ _ link) Nat.lt_wfRel.wf)

namespace Stack

@[simp] theorem countP_below (stack : Stack H) :
    stack.below.countP Frame.isForcing = stack.countP Frame.isForcing := by
  induction stack with
  | nil => rfl
  | cons frame stack ih => cases frame <;> simp_all [below, Frame.isForcing]

@[simp] theorem countP_forcing (caller : Running H ThunkId) (stack : Stack H) :
    List.countP Frame.isForcing (.forcing caller :: stack) = stack.countP Frame.isForcing + 1 := by
  simp [List.countP_cons, Frame.isForcing]

@[simp] theorem countP_update (thunk : ThunkId) (stack : Stack H) :
    List.countP Frame.isForcing (.update thunk :: stack) = stack.countP Frame.isForcing := by
  simp [Frame.isForcing]

@[simp] theorem countP_continuations (pushed : List (Continuation ThunkId)) :
    (pushed.map Frame.continuation : Stack H).countP Frame.isForcing = 0 := by
  simp [List.countP_map, Function.comp_def, Frame.isForcing]

end Stack

namespace Running

variable {natives : Natives H}

theorem rank_le (natives : Natives H) (running : Running H ThunkId) : running.rank natives ≤ 7 := by
  simp only [rank]
  split <;> omega

/-- After an error running code does not start another nested call. -/
theorem rank_resume_error (propagates : natives.Propagates) (error : RuntimeError)
    (running : Running H ThunkId) : (running.resume natives (.error error)).rank natives = 3 := by
  cases running with
  | native operation captured =>
    obtain ⟨error', fails⟩ := propagates operation captured error
    simp [rank, resume, act, fails]
  | append left right => rfl
  | finished outcome => cases outcome <;> rfl

end Running

namespace Local

variable {natives : Natives H} {program : CoreProgram} {limit : FrameLimit} {self : EvaluationId}
  {state next : Local H}

@[simp] theorem move_rank (phase : Phase H) (stack : Stack H) :
    (state.move phase stack).rank natives = phase.rank natives stack := rfl

/-- An error that leaves `run_machine` brings the evaluator nearer to its next charge. -/
theorem leave_error_nearer (propagates : natives.Propagates) (error : RuntimeError)
    {links : ThunkId → Option ThunkId} (bound : ThunkId ⊕ ℕ) :
    Nearer links ((state.leave natives (.error error) state.stack).rank natives)
      (4 * state.stack.countP Frame.isForcing + 1, bound) := by
  refine .of_lt ?_
  simp only [leave]
  rcases state.stack with _ | ⟨frame, stack⟩
  · simp [deliver, Phase.rank]
  · cases frame with
    | forcing caller =>
      simp only [deliver, move_rank, Phase.rank, Running.rank_resume_error propagates,
        Stack.countP_forcing]
      omega
    | _ => simp [deliver, Phase.rank]

theorem settle_rank (limit : FrameLimit) (state : Local H) (stack : Stack H)
    (transition : Fresh H ThunkId (Pushed H ThunkId)) :
    ((state.settle limit stack transition).rank natives).1 <
      4 * stack.countP Frame.isForcing + 8 := by
  simp only [settle]
  split
  · simp [Phase.rank]
  · split
    · simp [Phase.rank]
    · split
      next => simp [Phase.rank, -List.countP_map]
      next running _ =>
        have bound := running.rank_le natives
        simp only [move_rank, Phase.rank, List.countP_append, Stack.countP_continuations]
        omega

theorem enterThunk_rank {thunk : ThunkId} (here : state.phase = .entering thunk)
    (step : state.enterThunk limit self thunk = some next) :
    Nearer state.heap.links (next.rank natives) (state.rank natives) ∨
      (∃ owner, owner ≠ self ∧ state.heap[thunk]? = some (.evaluating owner)) ∧
        next.rank natives = state.rank natives := by
  have before : state.rank natives =
      (4 * state.stack.countP Frame.isForcing + 8, .inl thunk) := by rw [rank, here]; rfl
  rw [before]
  simp only [enterThunk] at step
  split at step
  next => cases step
  next => cases step; exact .inl (.of_lt (by simp [Phase.rank]))
  next => cases step; exact .inl (.of_lt (by simp [Phase.rank]))
  next target found =>
    cases step
    refine .inl (Prod.Lex.right _ (Sum.Lex.inl ?_))
    simp [Heap.links, found, ThunkState.link]
  next owner found =>
    split at step
    next => cases step; exact .inl (.of_lt (by simp [Phase.rank]))
    next other =>
      split at step
      next => cases step; exact .inl (.of_lt (by simp [Phase.rank]))
      next => cases step; exact .inr ⟨⟨owner, other, found⟩, rfl⟩
  next =>
    split at step
    next => cases step; exact .inl (.of_lt (by simp [Phase.rank]))
    next =>
      cases step
      refine .inl (.of_lt ((settle_rank limit _ _ _).trans_le ?_))
      simp

theorem settle_enters (stack : Stack H) (transition : Fresh H ThunkId (Pushed H ThunkId))
    (thunk : ThunkId) : (state.settle limit stack transition).phase ≠ .entering thunk := by
  simp only [settle]
  split
  · simp
  · split
    · simp
    · split <;> simp

theorem enterThunk_enters {thunk target : ThunkId}
    (step : state.enterThunk limit self thunk = some next) (enters : next.phase = .entering target) :
    state.heap.links thunk = some target := by
  simp only [enterThunk] at step
  split at step
  next => cases step
  next => cases step; cases enters
  next => cases step; cases enters
  next found =>
    cases step
    cases enters
    simp [Heap.links, found, ThunkState.link]
  next =>
    split at step
    · cases step; cases enters
    · split at step <;> cases step <;> cases enters
  next =>
    split at step
    · cases step; cases enters
    · cases step; exact absurd enters (settle_enters _ _ _)

/-- A step without a successful charge brings the evaluator nearer to its next charge, or is none of
the iterations. -/
theorem step_rank (propagates : natives.Propagates) (uncharged : ¬state.Charges)
    (step : state.step natives program limit self = some next) :
    Nearer state.heap.links (next.rank natives) (state.rank natives) ∨
      ¬state.Iterates self ∧ next.rank natives = state.rank natives := by
  simp only [Local.step] at step
  split at step
  next => cases step
  next => cases step
  next control here =>
    split at step
    next =>
      cases step
      exact .inl (.of_lt (by simp [rank, here, drop, Phase.rank]))
    next running => exact absurd ⟨running, by rw [here]; trivial⟩ uncharged
  next thunk here =>
    rcases enterThunk_rank here step with nearer | ⟨⟨owner, other, found⟩, same⟩
    · exact .inl nearer
    · refine .inr ⟨fun iterates => ?_, same⟩
      rw [Iterates, here] at iterates
      exact other (iterates owner found)
  next thunk owner here =>
    cases step
    exact .inr ⟨by simp [Iterates, here], by simp [rank, here, Phase.rank]⟩
  next thunk here =>
    split at step
    next => cases step; exact .inl (.of_lt (by simp [rank, here, Phase.rank]))
    next =>
      cases step
      exact .inr ⟨by simp [Iterates, here], by simp [rank, here, Phase.rank]⟩
  next running here =>
    cases step
    rw [rank, rank, here]
    simp only [advance]
    split
    next acts => exact .inl (.of_lt (by simp [Phase.rank, Running.rank, acts]))
    next acts => exact .inl (.of_lt (by simp [Phase.rank, Running.rank, acts]))
    next acts => exact .inl (.of_lt (by simp [drop, Phase.rank, Running.rank, acts]))
    next acts =>
      refine .inl (.of_lt ?_)
      simp only [move_phase, move_stack, Phase.rank, Running.rank, acts, Stack.countP_forcing]
      omega
    next cell acts =>
      have full : running.rank natives = 7 := by simp [Running.rank, acts]
      rcases ((running.allocated natives state.heap.length).rank_le natives).lt_or_eq with less | same
      · exact .inl (.of_lt (by simp [Phase.rank, full, less]))
      · exact .inr ⟨by simp [Iterates, here], by simp [Phase.rank, full, same]⟩
  next error here =>
    cases step
    refine .inl ?_
    rw [rank, rank, here]
    simp only [unwind]
    split
    next thunk rest isTop =>
      simp only [Phase.rank, move_phase, move_stack, isTop]
      exact Prod.Lex.right _ (Sum.Lex.inr (by simp))
    next frame rest isTop =>
      simp only [Phase.rank, move_phase, move_stack, isTop]
      exact Prod.Lex.right _ (Sum.Lex.inr (by simp))
    next => exact leave_error_nearer propagates error _
  next error guards here =>
    cases step
    refine .inl ?_
    rw [rank, rank, here]
    cases guards with
    | nil => exact leave_error_nearer propagates error _
    | cons thunk guards => exact Prod.Lex.right _ (Sum.Lex.inr (by simp))

end Local

namespace System

variable {natives : Natives H} {program : CoreProgram} {limit : FrameLimit} {system next : System H}

/-- The action is a step of this evaluator, from a state with this property. -/
def Steps (system : System H) (action : Action H) (id : EvaluationId) (property : Local H → Prop) :
    Prop :=
  ∃ evaluator, action = .step id ∧ system.evaluators[id]? = some evaluator ∧
    property (system.view evaluator)

/-- The action is an iteration of an evaluator. -/
def Iterates (system : System H) (action : Action H) : Prop :=
  ∃ id, system.Steps action id (Local.Iterates id)

/-- The action charges one step. -/
def Charges (system : System H) (action : Action H) : Prop :=
  ∃ id, system.Steps action id Local.Charges

/-- An endless run from a system. -/
structure Endless (natives : Natives H) (program : CoreProgram) (limit : FrameLimit)
    (states : ℕ → System H) (actions : ℕ → Action H) : Prop where
  act : ∀ n, (states n).act natives program limit (actions n) = some (states (n + 1))
  /-- The host starts finitely many evaluations. -/
  forces : {n | ∃ id thunk, actions n = .force id thunk}.Finite

/-- How far this evaluator is from its next charge. -/
def rank (natives : Natives H) (system : System H) (id : EvaluationId) : ℕ × (ThunkId ⊕ ℕ) :=
  (system.evaluators[id]?.map fun evaluator => (system.view evaluator).rank natives).getD (0, .inr 0)

theorem Aliases.charges {action : Action H} {thunk target : ThunkId}
    (aliases : system.Aliases action thunk target) : system.Charges action := by
  obtain ⟨id, evaluator, isStep, here, phase, running, _⟩ := aliases
  exact ⟨id, evaluator, isStep, here, running, by rw [phase]; trivial⟩

theorem act_length {action : Action H} (acted : system.act natives program limit action = some next) :
    next.evaluators.length = system.evaluators.length := by
  rcases act_cases acted with ⟨id, evaluator, state, here, acts, rfl⟩ | ⟨cell, rfl, rfl⟩
  · exact List.length_set
  · rfl

/-- An uncharged action other than a start brings each evaluator nearer to its next charge, or is no
iteration of it. -/
theorem act_rank {action : Action H} (propagates : natives.Propagates)
    (acted : system.act natives program limit action = some next)
    (uncharged : ¬system.Charges action) (started : ∀ id thunk, action ≠ .force id thunk)
    (id : EvaluationId) :
    Nearer system.heap.links (next.rank natives id) (system.rank natives id) ∨
      ¬system.Steps action id (Local.Iterates id) ∧
        next.rank natives id = system.rank natives id := by
  rcases act_cases acted with ⟨self, evaluator, state, here, acts, rfl⟩ | ⟨cell, rfl, rfl⟩
  · rw [rank, rank, update_evaluators here]
    by_cases same : id = self
    · subst same
      rw [if_pos rfl, here]
      cases acts with
      | force thunk => exact absurd rfl (started id thunk)
      | step step =>
        have uncharged' : ¬(system.view evaluator).Charges := fun charges =>
          uncharged ⟨id, evaluator, rfl, here, charges⟩
        rcases Local.step_rank propagates uncharged' step with nearer | ⟨idle, equal⟩
        · exact .inl nearer
        · refine .inr ⟨?_, equal⟩
          rintro ⟨_, _, isHere, iterates⟩
          obtain rfl := Option.some.inj (here.symm.trans isHere)
          exact idle iterates
      | cancel => exact .inr ⟨fun ⟨_, isStep, _⟩ => (nomatch isStep), rfl⟩
      | exhaust => exact .inr ⟨fun ⟨_, isStep, _⟩ => (nomatch isStep), rfl⟩
    · rw [if_neg same]
      refine .inr ⟨?_, rfl⟩
      rintro ⟨_, rfl, _⟩
      cases acts
      exact same rfl
  · exact .inr ⟨fun ⟨_, isStep, _⟩ => (nomatch isStep), rfl⟩

/-- With acyclic links, a finite budget allows only finitely many iterations. -/
theorem Endless.finite_iterations {states : ℕ → System H} {actions : ℕ → Action H}
    (propagates : natives.Propagates) (endless : Endless natives program limit states actions)
    (reachable : Reachable natives program limit (states 0)) (acyclic : Acyclic (states 0).heap.links)
    (productive : ∀ n, (states n).Productive (actions n))
    (charges : {n | (states n).Charges (actions n)}.Finite) :
    {n | (states n).Iterates (actions n)}.Finite := by
  have reached : ∀ n, Reachable natives program limit (states n) ∧ Acyclic (states n).heap.links := by
    intro n
    induction n with
    | zero => exact ⟨reachable, acyclic⟩
    | succ n ih => exact ⟨ih.1.act (endless.act n), (acyclic_act_iff ih.1 ih.2 (endless.act n)).mpr (productive n)⟩
  -- From some position on nothing is charged or started, and the links stay as they are.
  obtain ⟨start, last⟩ := (charges.union endless.forces).bddAbove
  have uncharged : ∀ n, start < n → ¬(states n).Charges (actions n) :=
    fun n later charged => absurd (last (.inl charged)) (Nat.not_le.mpr later)
  have started : ∀ n, start < n → ∀ id thunk, actions n ≠ .force id thunk :=
    fun n later id thunk isForce => absurd (last (.inr ⟨id, thunk, isForce⟩)) (Nat.not_le.mpr later)
  have links : ∀ n, start + 1 ≤ n → (states n).heap.links = (states (start + 1)).heap.links := by
    intro n later
    induction n, later using Nat.le_induction with
    | base => rfl
    | succ n later ih =>
      rw [← ih]
      exact act_links (reached n).1 (endless.act n)
        fun thunk target aliases => uncharged n later aliases.charges
  have each : ∀ id, {n | start + 1 ≤ n ∧ (states n).Steps (actions n) id (Local.Iterates id)}.Finite := by
    intro id
    have moves : ∀ n, start + 1 ≤ n → _ := fun n later =>
      links n later ▸ act_rank propagates (endless.act n) (uncharged n later) (started n later) id
    refine Loop.finite_descents (nearer_wellFounded (reached (start + 1)).2)
      (fun n => (states n).rank natives id) _ _ ?_ ?_
    · exact fun n later => (moves n later).symm.imp_left And.right
    · exact fun n later iterates => (moves n later).resolve_right fun idle => idle.1 iterates
  have size : ∀ n, (states n).evaluators.length = (states 0).evaluators.length := by
    intro n
    induction n with
    | zero => rfl
    | succ n ih => rw [act_length (endless.act n), ih]
  refine ((Set.finite_le_nat start).union
    ((Set.finite_lt_nat (states 0).evaluators.length).biUnion fun id _ => each id)).subset ?_
  rintro n ⟨id, steps⟩
  rcases Nat.lt_or_ge start n with later | earlier
  · obtain ⟨evaluator, isStep, here, iterates⟩ := steps
    have inside := (List.getElem?_eq_some_iff.mp here).1
    rw [size n] at inside
    exact .inr (Set.mem_biUnion (show id ∈ _ from inside) ⟨later, evaluator, isStep, here, iterates⟩)
  · exact .inl earlier

/-- A round of the loop of `enter_thunk` that leads to another one follows a link. -/
theorem links_of_enters {id : EvaluationId} {thunk target : ThunkId}
    (enters : system.Enters id thunk) (acted : system.act natives program limit (.step id) = some next)
    (enters' : next.Enters id target) : system.heap.links thunk = some target := by
  obtain ⟨evaluator, here, entering⟩ := enters
  simp only [act, System.evaluator, here, Option.bind_eq_bind, Option.bind_some,
    Option.bind_eq_some_iff] at acted
  obtain ⟨state, step, acted⟩ := acted
  cases acted
  obtain ⟨_, isSelf, after⟩ := enters'
  rw [update_evaluators here, if_pos rfl] at isSelf
  obtain rfl := Option.some.inj isSelf
  rw [Local.step, show (system.view evaluator).phase = _ from entering] at step
  exact Local.enterThunk_enters step after

section FixIdentity

/-- The native code of the two builtins, and of a failed nested call. -/
inductive FixCode where
  | fix
  | fixed
  | identity
  | failed (error : RuntimeError)

def fixHost : Host := ⟨FixCode, Unit⟩

/-- `Function.fix` allocates its thunk and `Function.id` has its argument, each as an alias. -/
def fixNatives : Natives fixHost where
  builtin builtin _ :=
    match builtin with
    | 329 => .fix
    | 330 => .identity
    | _ => .failed (.internal "not used here")
  act operation captured :=
    match operation, captured with
    | .fix, [function] => .allocate (.fixed function)
    | .fixed, [thunk] => .finish (.aliasOf thunk)
    | .identity, [argument] => .finish (.aliasOf argument)
    | .failed error, _ => .fail error
    | _, _ => .panic
  resume operation captured
    | .ok _ => (operation, captured)
    | .error error => (.failed error, [])
  allocated _ _ thunk := (.fixed, [thunk])

/-- `main = Function.fix Function.id`. -/
def fixIdentity : CoreProgram where
  root := 0
  nodes := [
    ⟨3, ⟨0, 0, 0⟩, .apply 1 2⟩,
    ⟨5, ⟨0, 0, 0⟩, .builtin 329 none⟩,
    ⟨4, ⟨0, 0, 0⟩, .builtin 330 none⟩]
  types := ⟨[.constructor "Text" Types.KindArena.TYPE, .constructor "IO" 5,
    .constructor "()" Types.KindArena.TYPE, .apply 1 2, .function 3 3, .function 4 3]⟩
  mainType := 3
  instanceEvidence := []

/-- A thunk that applies itself to itself, and one evaluator. -/
def selfApplication : System fixHost where
  heap := [.suspended (.apply 0 0)]
  waits := []
  evaluators := [⟨.idle, [], false, none⟩]

/-- The evaluator has claimed the thunk and enters it again. -/
def reentered : System fixHost where
  heap := [.evaluating 0]
  waits := []
  evaluators := [⟨.entering 0, [.continuation (.apply 0), .update 0], false, none⟩]

theorem selfApplication_run : RunWhere fixNatives fixIdentity none Productive selfApplication
    [.force 0 0, .step 0, .step 0, .step 0] reentered := by
  refine .snoc (.snoc (.snoc (.snoc (.refl _) ?_ rfl) ?_ rfl) ?_ rfl) ?_ rfl
  all_goals
    rintro thunk target ⟨id, evaluator, isStep, here, phase, _⟩
    cases isStep
  all_goals
    obtain rfl := Option.some.inj here
    cases phase

theorem verify_fixIdentity : verify 40 fixIdentity = some (.ok fixIdentity.seal) := by
  decide

/-- A thunk of the program, and one evaluator. -/
def mainThunk : System fixHost where
  heap := [.suspended (.expression 0 [])]
  waits := []
  evaluators := [⟨.idle, [], false, none⟩]

theorem mainThunk_initial : mainThunk.Initial := by
  refine ⟨?_, rfl, by simp [mainThunk]⟩
  intro thunk owner
  match thunk with
  | 0 => simp [mainThunk]
  | _ + 1 => simp [mainThunk]

theorem mainThunk_acyclic : Acyclic mainThunk.heap.links := by
  intro first second link
  match first with
  | 0 => cases link
  | _ + 1 => cases link

/-- The recursive thunk is an alias of itself. -/
def fixedSystem : System fixHost where
  heap := [.indirection 3, .evaluated (.function (.native 329 [] none)),
    .evaluated (.function (.native 330 [] none)), .indirection 3]
  waits := []
  evaluators := [⟨.entering 3, [], false, none⟩]

theorem acts_fixIdentity : mainThunk.acts fixNatives fixIdentity none
    (.force 0 0 :: .replicate 21 (.step 0)) = some fixedSystem := rfl

theorem fixed_endless : Endless fixNatives fixIdentity none (fun _ => fixedSystem)
    (fun _ => .step 0) where
  act _ := rfl
  forces := by simp

end FixIdentity

end System

end HellRs.Runtime
