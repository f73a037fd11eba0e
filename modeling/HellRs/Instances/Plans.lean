import HellRs.Core.Typing

/-! # Plans of class-instance evidence

The compiler retains a plan for every class constraint that it has to satisfy, with the plans of the premises; the
verifier walks the graph of the plans again. Both are stated here for any instance manifest: the verifier of
`HellRs.Core` is the one below at the manifest of the repository. The identifiers of plans are unbounded. A missing
result stands for a type identifier out of bounds, or for too little fuel.
-/

namespace HellRs.Instances

open Types Builtins Core Loop

/-- `instance`: the first row of the class and the target. -/
def instanceIn (manifest : List InstanceSpec) (typeClass : TypeClass) (target : String) : Option InstanceSpec :=
  manifest.find? fun spec => spec.typeClass = typeClass ∧ spec.target = target

/-- The instance for the head of a type, with the arguments of the type. -/
def resolve (fuel : ℕ) (manifest : List InstanceSpec) (types : TypeArena) (typeClass : TypeClass) (ty : TypeId) :
    Option (Option (InstanceSpec × List TypeId)) := do
  let head ← instanceHead fuel types ty
  some (head.bind fun (target, arguments) => (instanceIn manifest typeClass target).map fun found => (found, arguments))

section Planner

abbrev Constraint := TypeClass × TypeId

/-- `InstanceEvidencePlans`. -/
structure InstanceEvidencePlans where
  plans : List InstanceEvidencePlan
  identities : List (Constraint × InstanceEvidencePlanId)
deriving DecidableEq, Repr

def InstanceEvidencePlans.default : InstanceEvidencePlans := ⟨[], []⟩

def InstanceEvidencePlans.get (store : InstanceEvidencePlans) (constraint : Constraint) : Option InstanceEvidencePlanId :=
  store.identities.lookup constraint

/-- A plan is appended, and found under its constraint. -/
def InstanceEvidencePlans.push (store : InstanceEvidencePlans) (plan : InstanceEvidencePlan) : InstanceEvidencePlans where
  plans := store.plans ++ [plan]
  identities := ((plan.typeClass, plan.head), store.plans.length) :: store.identities

/-- Pending work of `retain`. -/
inductive RetainWork where
  | enter (head : TypeId)
  | leave (head : TypeId)
deriving DecidableEq, Repr

structure RetainState where
  work : List RetainWork
  active : List TypeId
  store : InstanceEvidencePlans
deriving Repr

/-- What `retain` returns, and the plans after it. -/
abbrev Retained := Option InstanceEvidencePlanId × InstanceEvidencePlans

def retainTurn (fuel : ℕ) (manifest : List InstanceSpec) (types : TypeArena) (typeClass : TypeClass) (root : TypeId)
    (state : RetainState) : Option (Turn RetainState Retained) :=
  match state.work with
  | [] => some (.leave (state.store.get (typeClass, root), state.store))
  | .leave head :: work => do
      match ← resolve fuel manifest types typeClass head with
      | none => some (.leave (none, state.store))
      | some (found, arguments) =>
          match (arguments.take found.resolution.premiseCount).mapM fun premise => state.store.get (typeClass, premise) with
          | none => some (.leave (none, state.store))
          | some premises =>
              let store := state.store.push ⟨typeClass, head, found.resolution, premises⟩
              if head ∈ state.active then some (.again { work, active := state.active.erase head, store })
              else some (.leave (none, store))
  | .enter head :: work =>
      if (state.store.get (typeClass, head)).isSome then some (.again { state with work })
      else if head ∈ state.active then some (.leave (none, state.store))
      else do
        match ← resolve fuel manifest types typeClass head with
        | none => some (.leave (none, state.store))
        | some (found, arguments) =>
            if found.resolution.headArity ≠ arguments.length then some (.leave (none, state.store))
            else
              some (.again { state with
                work := (arguments.take found.resolution.premiseCount).map .enter ++ .leave head :: work
                active := head :: state.active })

/-- `InstanceEvidencePlans::retain`. -/
def retain (fuel : ℕ) (manifest : List InstanceSpec) (types : TypeArena) (store : InstanceEvidencePlans)
    (constraint : Constraint) : Option Retained :=
  run (retainTurn fuel manifest types constraint.1 constraint.2) fuel ⟨[.enter constraint.2], [], store⟩

/-- The plans of a program: its constraints are retained in order, unless one has no plan. -/
def planAll (fuel : ℕ) (manifest : List InstanceSpec) (types : TypeArena) :
    InstanceEvidencePlans → List Constraint → Option (Option InstanceEvidencePlans)
  | store, [] => some (some store)
  | store, constraint :: constraints => do
      match ← retain fuel manifest types store constraint with
      | (none, _) => some none
      | (some _, store) => planAll fuel manifest types store constraints

end Planner

section Validator

variable (fuel : ℕ) (manifest : List InstanceSpec) (types : TypeArena) (plans : List InstanceEvidencePlan)

/-- The checks on one plan: its instance, its arity and the constraints of its premises. -/
def agrees (plan : InstanceEvidencePlan) : Option Bool := do
  match ← resolve fuel manifest types plan.typeClass plan.head with
  | none => some false
  | some (found, arguments) =>
      if plan.resolution ≠ found.resolution ∨ found.resolution.headArity ≠ arguments.length ∨
          plan.premises.length ≠ found.resolution.premiseCount then some false
      else some ((plan.premises.zip arguments).all fun (premise, argument) =>
        match plans[premise]? with
        | none => false
        | some child => child.typeClass = plan.typeClass ∧ child.head = argument)

def graphTurn (state : EvidenceState) : Option (Turn EvidenceState (Option (List InstanceEvidencePlanId))) :=
  match state.work with
  | [] => some (.leave (some state.visited))
  | .leave id :: work =>
      if id ∈ state.active then some (.again { state with work, active := state.active.erase id })
      else some (.leave none)
  | .enter id :: work =>
      if id ∈ state.active then some (.leave none)
      else if id ∈ state.visited then some (.again { state with work })
      else
        match plans[id]? with
        | none => some (.leave none)
        | some plan => do
            if ← agrees fuel manifest types plans plan then
              some (.again {
                work := plan.premises.map .enter ++ .leave id :: work
                active := id :: state.active
                visited := id :: state.visited })
            else some (.leave none)

/-- `validate_instance_evidence_graph`. -/
def validateGraph (root : InstanceEvidencePlanId) : Option (Option (List InstanceEvidencePlanId)) :=
  run (graphTurn fuel manifest types plans) fuel ⟨[.enter root], [], []⟩

/-- `validate_instance_evidence_plan`. -/
def validatePlan (evidence : ClassEvidence) : Option Bool :=
  match plans[evidence.plan]? with
  | none => some false
  | some root =>
      if root.typeClass = evidence.typeClass ∧ root.head = evidence.head then do
        some (← validateGraph fuel manifest types plans evidence.plan).isSome
      else some false

/-- The plans reachable from any of the roots; a root that fails ends the check. -/
def reachableFrom : List InstanceEvidencePlanId → List InstanceEvidencePlanId →
    Option (Option (List InstanceEvidencePlanId))
  | [], reachable => some (some reachable)
  | root :: roots, reachable => do
      match ← validateGraph fuel manifest types plans root with
      | none => some none
      | some found => reachableFrom roots (reachable ++ found.filter fun plan => plan ∉ reachable)

/-- `instance_evidence_inventory_is_exact`. -/
def inventoryIsExact (roots : List InstanceEvidencePlanId) : Option Bool :=
  match roots with
  | [] => some plans.isEmpty
  | first :: roots => do
      let found ← validateGraph fuel manifest types plans first
      match ← reachableFrom fuel manifest types plans roots (found.getD []) with
      | none => some false
      | some reachable => some (decide (reachable.length = plans.length ∧
          (plans.map fun plan => (plan.typeClass, plan.head)).Nodup))

end Validator

section Verifier

theorem agrees_instances (fuel : ℕ) (types : TypeArena) (plans : List InstanceEvidencePlan) (plan : InstanceEvidencePlan) :
    agrees fuel instances types plans plan = planAgrees fuel types plans plan := by
  simp only [agrees, planAgrees, resolve, Option.bind_eq_bind, Option.bind_assoc, Option.bind_some]
  congr 1
  funext head
  rcases head with _ | ⟨target, arguments⟩
  · rfl
  · have same : instanceIn instances plan.typeClass target = findInstance plan.typeClass target := rfl
    simp only [Option.bind_some, same]
    cases findInstance plan.typeClass target <;> rfl

theorem validateGraph_instances (fuel : ℕ) (types : TypeArena) (plans : List InstanceEvidencePlan)
    (root : InstanceEvidencePlanId) :
    validateGraph fuel instances types plans root = validateInstanceEvidenceGraph fuel types plans root := by
  have same : graphTurn fuel instances types plans = evidenceTurn fuel types plans := by
    funext state
    simp only [graphTurn, evidenceTurn, agrees_instances] <;> rfl
  rw [validateGraph, validateInstanceEvidenceGraph, same]

/-- The verifier of the repository is the one for its manifest. -/
theorem validatePlan_instances (fuel : ℕ) (types : TypeArena) (plans : List InstanceEvidencePlan)
    (evidence : ClassEvidence) :
    validatePlan fuel instances types plans evidence = validateInstanceEvidencePlan fuel types plans evidence := by
  simp only [validatePlan, validateInstanceEvidencePlan, validateGraph_instances] <;> rfl

theorem inventoryIsExact_instances (fuel : ℕ) (program : CoreProgram) :
    inventoryIsExact fuel instances program.types program.instanceEvidence (evidenceRoots program) =
      instanceEvidenceInventoryIsExact fuel program := by
  have same : reachableFrom fuel instances program.types program.instanceEvidence = reachableEvidence fuel program := by
    funext roots
    induction roots with
    | nil => rfl
    | cons root roots ih =>
      funext reachable
      simp only [reachableFrom, reachableEvidence, validateGraph_instances, ih] <;> rfl
  simp only [inventoryIsExact, instanceEvidenceInventoryIsExact, validateGraph_instances, same] <;> rfl

end Verifier

end HellRs.Instances
