import HellRs.Instances.Derivation

/-! # What the planner retains

Entering a type either leaves the stack of work below it as it was, with a plan for the type and for what it needs, or
ends the loop because some constraint has no derivation. The induction is on the identifier of the type; the types on
the way to it are larger, so no type is entered while it is active.
-/

namespace HellRs.Instances

open Types Builtins Core Loop

variable {manifest : List InstanceSpec} {types : TypeArena}

def constraintAt (plans : List InstanceEvidencePlan) (id : InstanceEvidencePlanId) : Option Constraint :=
  plans[id]?.map fun plan => (plan.typeClass, plan.head)

/-- The premises of a plan are plans for the premises of its constraint. -/
def Fits (manifest : List InstanceSpec) (types : TypeArena) (plans : List InstanceEvidencePlan)
    (plan : InstanceEvidencePlan) : Prop :=
  ∃ premises, premisesAt manifest types plan.typeClass plan.head = some (plan.resolution, premises) ∧
    plan.premises.map (constraintAt plans) = premises.map fun premise => some (plan.typeClass, premise)

/-- The plans are found by their constraints, and their premises are plans. -/
structure Planned (manifest : List InstanceSpec) (types : TypeArena) (store : InstanceEvidencePlans) : Prop where
  found : ∀ constraint id, store.get constraint = some id ↔ constraintAt store.plans id = some constraint
  fits : ∀ plan ∈ store.plans, Fits manifest types store.plans plan

/-- The second constraint is a premise of the first. -/
def Premise (manifest : List InstanceSpec) (types : TypeArena) (constraint premise : Constraint) : Prop :=
  premise.1 = constraint.1 ∧ ∃ resolution premises,
    premisesAt manifest types constraint.1 constraint.2 = some (resolution, premises) ∧ premise.2 ∈ premises

/-- The constraint itself, its premises, their premises, and so on. -/
def Needs (manifest : List InstanceSpec) (types : TypeArena) : Constraint → Constraint → Prop :=
  Relation.ReflTransGen (Premise manifest types)

theorem Needs.le (wellFounded : types.WellFounded) {constraint needed : Constraint}
    (needs : Needs manifest types constraint needed) : needed.2 ≤ constraint.2 := by
  induction needs with
  | refl => exact Nat.le_refl _
  | tail _ premise ih =>
    obtain ⟨-, resolution, premises, found, member⟩ := premise
    exact (Nat.le_of_lt ((premisesAt_lt wellFounded found).2 _ member)).trans ih

section Store

variable {store : InstanceEvidencePlans}

theorem planned_default : Planned manifest types .default :=
  ⟨fun _ _ => ⟨nofun, nofun⟩, nofun⟩

theorem constraintAt_append {plans : List InstanceEvidencePlan} {plan : InstanceEvidencePlan}
    {id : InstanceEvidencePlanId} {constraint : Constraint} :
    constraintAt (plans ++ [plan]) id = some constraint ↔
      constraintAt plans id = some constraint ∨ id = plans.length ∧ (plan.typeClass, plan.head) = constraint := by
  rcases Nat.lt_trichotomy id plans.length with inside | rfl | outside
  · simp [constraintAt, List.getElem?_append_left inside, Nat.ne_of_lt inside]
  · simp [constraintAt]
  · rw [constraintAt, constraintAt, List.getElem?_eq_none (by simp; exact outside),
      List.getElem?_eq_none (Nat.le_of_lt outside)]
    simp [Nat.ne_of_gt outside]

theorem mapM_found {typeClass : TypeClass} {premises : List TypeId} {ids : List InstanceEvidencePlanId}
    (planned : Planned manifest types store)
    (found : (premises.mapM fun premise => store.get (typeClass, premise)) = some ids) :
    ids.map (constraintAt store.plans) = premises.map fun premise => some (typeClass, premise) := by
  induction premises generalizing ids with
  | nil =>
    obtain rfl := Option.some.inj found
    rfl
  | cons premise premises ih =>
    simp only [List.mapM_cons, Option.bind_eq_bind, Option.bind_eq_some_iff] at found
    obtain ⟨id, known, rest, knownRest, equal⟩ := found
    obtain rfl := Option.some.inj equal
    rw [List.map_cons, List.map_cons, ih knownRest, (planned.found _ _).mp known]

theorem mapM_isSome {α β : Type*} {f : α → Option β} {items : List α} (known : ∀ item ∈ items, (f item).isSome) :
    ∃ values, items.mapM f = some values := by
  induction items with
  | nil => exact ⟨[], rfl⟩
  | cons item items ih =>
    obtain ⟨value, here⟩ := Option.isSome_iff_exists.mp (known item (List.mem_cons_self ..))
    obtain ⟨values, rest⟩ := ih fun other member => known other (List.mem_cons_of_mem _ member)
    exact ⟨value :: values, by simp [List.mapM_cons, here, rest]⟩

theorem get_push {plan : InstanceEvidencePlan} (constraint : Constraint) :
    (store.push plan).get constraint =
      if constraint = (plan.typeClass, plan.head) then some store.plans.length else store.get constraint := by
  simp only [InstanceEvidencePlans.get, InstanceEvidencePlans.push, List.lookup_cons]
  split
  next same => rw [if_pos (eq_of_beq same)]
  next other => rw [if_neg (ne_of_beq_false other)]

/-- A plan for a new constraint, with plans for its premises. -/
theorem Planned.push (planned : Planned manifest types store) {plan : InstanceEvidencePlan}
    (fresh : store.get (plan.typeClass, plan.head) = none) (fits : Fits manifest types store.plans plan) :
    Planned manifest types (store.push plan) := by
  have old {plan' : InstanceEvidencePlan} (fits : Fits manifest types store.plans plan') :
      Fits manifest types (store.plans ++ [plan]) plan' := by
    obtain ⟨premises, resolved, known⟩ := fits
    refine ⟨premises, resolved, ?_⟩
    rw [← known]
    apply List.map_congr_left
    intro id member
    have present : constraintAt store.plans id ∈ premises.map fun premise => some (plan'.typeClass, premise) :=
      known ▸ List.mem_map_of_mem member
    obtain ⟨premise, -, here⟩ := List.mem_map.mp present
    rw [← here, constraintAt_append]
    exact .inl here.symm
  constructor
  · intro constraint id
    rw [get_push, InstanceEvidencePlans.push, constraintAt_append, ← planned.found]
    split
    next same =>
      rw [same, fresh]
      simp [eq_comm]
    next other => simp [Ne.symm other]
  · intro plan' member
    rcases List.mem_append.mp member with earlier | isNew
    · exact old (planned.fits plan' earlier)
    · obtain rfl := List.mem_singleton.mp isNew
      exact old fits

/-- A premise of a plan that fits is a plan for a premise of its constraint, and all these have one. -/
theorem Fits.premise {plans : List InstanceEvidencePlan} {plan : InstanceEvidencePlan}
    (fits : Fits manifest types plans plan) {constraint : Constraint} :
    Premise manifest types (plan.typeClass, plan.head) constraint ↔
      ∃ child ∈ plan.premises, constraintAt plans child = some constraint := by
  obtain ⟨premises, resolved, children⟩ := fits
  have listed : (∃ child ∈ plan.premises, constraintAt plans child = some constraint) ↔
      ∃ premise ∈ premises, some (plan.typeClass, premise) = some constraint := by
    rw [← List.mem_map, ← List.mem_map, children]
  rw [listed]
  constructor
  · rintro ⟨sameClass, resolution, premises', found, member⟩
    rw [resolved] at found
    obtain ⟨-, rfl⟩ := Prod.mk.inj (Option.some.inj found)
    exact ⟨constraint.2, member, congrArg some (Prod.ext sameClass.symm rfl)⟩
  · rintro ⟨premise, member, same⟩
    obtain rfl := Option.some.inj same
    exact ⟨rfl, plan.resolution, premises, resolved, member⟩

/-- Every constraint that has a plan is derivable, when all plans fit. -/
theorem derives_of_fits (wellFounded : types.WellFounded) {plans : List InstanceEvidencePlan}
    (fits : ∀ plan ∈ plans, Fits manifest types plans plan) {id : InstanceEvidencePlanId} {typeClass : TypeClass}
    {ty : TypeId} (known : constraintAt plans id = some (typeClass, ty)) :
    Derives manifest typeClass (types.tree ty) := by
  induction ty using Nat.strongRecOn generalizing id with
  | ind ty ih =>
    obtain ⟨plan, here, same⟩ := Option.map_eq_some_iff.mp known
    obtain ⟨rfl, rfl⟩ := Prod.mk.inj same
    have fit := fits plan (List.mem_of_getElem? here)
    obtain ⟨premises, resolved, -⟩ := fits plan (List.mem_of_getElem? here)
    obtain ⟨allocated, smaller⟩ := premisesAt_lt wellFounded resolved
    refine (derives_iff wellFounded allocated).mpr ⟨_, premises, resolved, fun premise member => ?_⟩
    have isPremise : Premise manifest types (plan.typeClass, plan.head) (plan.typeClass, premise) :=
      ⟨rfl, _, premises, resolved, member⟩
    obtain ⟨child, -, isChild⟩ := fit.premise.mp isPremise
    exact ih premise (smaller premise member) isChild

theorem Planned.derives (wellFounded : types.WellFounded) (planned : Planned manifest types store)
    {constraint : Constraint} (known : (store.get constraint).isSome) :
    Derives manifest constraint.1 (types.tree constraint.2) := by
  obtain ⟨id, found⟩ := Option.isSome_iff_exists.mp known
  exact derives_of_fits wellFounded planned.fits ((planned.found _ _).mp found)

end Store

section Retain

variable (manifest types) in
/-- The plans after these types have been entered. -/
structure Retains (typeClass : TypeClass) (heads : List TypeId) (store after : InstanceEvidencePlans) : Prop where
  planned : Planned manifest types after
  kept : ∀ constraint id, store.get constraint = some id → after.get constraint = some id
  here : ∀ head ∈ heads, (after.get (typeClass, head)).isSome
  added : ∀ constraint, (after.get constraint).isSome →
    (store.get constraint).isSome ∨ ∃ head ∈ heads, Needs manifest types (typeClass, head) constraint

variable (manifest types) in
/-- The types are entered from any stack of work, and have plans, or one of them has no derivation and the loop leaves. -/
def Enters (fuel : ℕ) (typeClass : TypeClass) (root : TypeId) (heads : List TypeId) : Prop :=
  ∀ work active store, Planned manifest types store → (∀ head ∈ heads, ∀ outer ∈ active, head < outer) →
    (∃ after, Reaches (retainTurn fuel manifest types typeClass root)
        ⟨heads.map .enter ++ work, active, store⟩ ⟨work, active, after⟩ ∧ Retains manifest types typeClass heads store after) ∨
      (∃ head ∈ heads, ¬ Derives manifest typeClass (types.tree head)) ∧
        ∃ after, Returns (retainTurn fuel manifest types typeClass root)
          ⟨heads.map .enter ++ work, active, store⟩ (none, after) ∧ Planned manifest types after

variable {fuel : ℕ} {typeClass : TypeClass} {root : TypeId} {store after : InstanceEvidencePlans}

theorem enters_all {heads : List TypeId} (each : ∀ head ∈ heads, Enters manifest types fuel typeClass root [head]) :
    Enters manifest types fuel typeClass root heads := by
  induction heads with
  | nil => exact fun work active store planned _ => .inl ⟨store, .refl, planned, fun _ _ same => same, nofun, fun _ => .inl⟩
  | cons head heads ih =>
    intro work active store planned below
    have first := each head (List.mem_cons_self ..) (heads.map .enter ++ work) active store planned
      fun _ same outer => List.mem_singleton.mp same ▸ below head (List.mem_cons_self ..) outer
    rcases first with ⟨middle, path, retains⟩ | ⟨⟨bad, isHead, underivable⟩, after, returns, planned⟩
    · have rest := ih (fun other member => each other (List.mem_cons_of_mem _ member)) work active middle retains.planned
        fun other member => below other (List.mem_cons_of_mem _ member)
      rcases rest with ⟨after, path', retains'⟩ | ⟨⟨bad, member, underivable⟩, after, returns, planned⟩
      · refine .inl ⟨after, path.trans path', retains'.planned, ?_, ?_, ?_⟩
        · exact fun constraint id known => retains'.kept constraint id (retains.kept constraint id known)
        · intro other member
          rcases List.mem_cons.mp member with rfl | later
          · obtain ⟨id, known⟩ := Option.isSome_iff_exists.mp (retains.here other (List.mem_singleton_self _))
            exact Option.isSome_iff_exists.mpr ⟨id, retains'.kept _ id known⟩
          · exact retains'.here other later
        · intro constraint known
          rcases retains'.added constraint known with earlier | ⟨other, member, needs⟩
          · rcases retains.added constraint earlier with old | ⟨other, isHead, needs⟩
            · exact .inl old
            · obtain rfl := List.mem_singleton.mp isHead
              exact .inr ⟨other, List.mem_cons_self .., needs⟩
          · exact .inr ⟨other, List.mem_cons_of_mem _ member, needs⟩
      · exact .inr ⟨⟨bad, List.mem_cons_of_mem _ member, underivable⟩, after, path.returns returns, planned⟩
    · obtain rfl := List.mem_singleton.mp isHead
      exact .inr ⟨⟨bad, List.mem_cons_self .., underivable⟩, after, returns, planned⟩

/-- The turn that leaves a type whose premises have plans. -/
theorem leaves (wellFounded : types.WellFounded) (enough : types.nodes.length ≤ fuel) {head : TypeId}
    {resolution : InstanceResolution} {premises : List TypeId}
    (found : premisesAt manifest types typeClass head = some (resolution, premises))
    (planned : Planned manifest types store) (fresh : store.get (typeClass, head) = none)
    (known : ∀ premise ∈ premises, (store.get (typeClass, premise)).isSome) (work : List RetainWork) (active : List TypeId) :
    ∃ after, Planned manifest types after ∧
      (∀ constraint, after.get constraint =
        if constraint = (typeClass, head) then some store.plans.length else store.get constraint) ∧
      retainTurn fuel manifest types typeClass root ⟨.leave head :: work, head :: active, store⟩ =
        some (.again ⟨work, active, after⟩) := by
  have allocated := (premisesAt_lt wellFounded found).1
  obtain ⟨ids, knownIds⟩ := mapM_isSome known
  simp only [premisesAt, Option.bind_eq_bind, Option.bind_eq_some_iff] at found
  obtain ⟨⟨spec, arguments⟩, resolved, matched⟩ := found
  have total := @resolve_total manifest types typeClass wellFounded head allocated fuel (allocated.trans_le enough)
  rw [resolved] at total
  split at matched
  next arity =>
    obtain ⟨rfl, rfl⟩ := Prod.mk.inj (Option.some.inj matched)
    have fits : Fits manifest types store.plans ⟨typeClass, head, spec.resolution, ids⟩ := by
      refine ⟨_, ?_, mapM_found planned knownIds⟩
      simp [premisesAt, resolved, arity]
    refine ⟨_, planned.push fresh fits, get_push, ?_⟩
    simp [retainTurn, total, knownIds]
  next => cases matched

/-- The turn that enters a type with no plan: it leaves when there is no instance, else the premises come next. -/
theorem enters_turn (wellFounded : types.WellFounded) (enough : types.nodes.length ≤ fuel) {head : TypeId}
    (allocated : head < types.nodes.length) (fresh : store.get (typeClass, head) = none) (work : List RetainWork)
    {active : List TypeId} (inactive : head ∉ active) :
    retainTurn fuel manifest types typeClass root ⟨.enter head :: work, active, store⟩ =
      some (match premisesAt manifest types typeClass head with
        | none => .leave (none, store)
        | some (_, premises) => .again ⟨premises.map .enter ++ .leave head :: work, head :: active, store⟩) := by
  have total := @resolve_total manifest types typeClass wellFounded head allocated fuel (allocated.trans_le enough)
  simp only [retainTurn, fresh, Option.isSome_none, Bool.false_eq_true, if_false, inactive, total,
    Option.bind_eq_bind, Option.bind_some, premisesAt]
  rcases (resolve (head + 1) manifest types typeClass head).join with _ | ⟨found, arguments⟩
  · rfl
  · by_cases arity : found.resolution.headArity = arguments.length
    · simp [arity]
    · simp [arity]

theorem enters_one (wellFounded : types.WellFounded) (enough : types.nodes.length ≤ fuel) {head : TypeId}
    (allocated : head < types.nodes.length) : Enters manifest types fuel typeClass root [head] := by
  induction head using Nat.strongRecOn with
  | ind head ih =>
    intro work active store planned below
    have inactive : head ∉ active := fun member =>
      absurd (below head (List.mem_singleton_self _) head member) (Nat.lt_irrefl head)
    cases known : store.get (typeClass, head) with
    | some id =>
      refine .inl ⟨store, .single ?_, planned, fun _ _ same => same, ?_, fun _ => .inl⟩
      · simp [retainTurn, known]
      · intro other same
        obtain rfl := List.mem_singleton.mp same
        exact Option.isSome_of_eq_some known
    | none =>
      have turned := @enters_turn manifest types fuel typeClass root store wellFounded enough head allocated known work active
        inactive
      cases found : premisesAt manifest types typeClass head with
      | none =>
        rw [found] at turned
        refine .inr ⟨⟨head, List.mem_singleton_self _, fun derives => ?_⟩, store, returns_of_leave turned, planned⟩
        obtain ⟨_, _, resolved, -⟩ := (derives_iff wellFounded allocated).mp derives
        rw [found] at resolved
        cases resolved
      | some resolved =>
        obtain ⟨resolution, premises⟩ := resolved
        rw [found] at turned
        obtain ⟨-, smaller⟩ := premisesAt_lt wellFounded found
        have inner := enters_all (fun premise member => ih premise (smaller premise member) ((smaller premise member).trans allocated))
          (.leave head :: work) (head :: active) store planned fun premise member outer isOuter => by
            rcases List.mem_cons.mp isOuter with rfl | isOuter
            · exact smaller premise member
            · exact (smaller premise member).trans (below head (List.mem_singleton_self _) outer isOuter)
        rcases inner with ⟨middle, path, retains⟩ | ⟨⟨bad, member, underivable⟩, after, returns, planned⟩
        · -- What the premises need is smaller, so the type itself has no plan yet.
          have fresh : middle.get (typeClass, head) = none := by
            by_contra other
            rcases retains.added _ (Option.isSome_iff_ne_none.mpr other) with old | ⟨premise, member, needs⟩
            · rw [known] at old
              cases old
            · exact absurd (needs.le wellFounded) (Nat.not_le_of_lt (smaller premise member))
          obtain ⟨after, planned, get, leave⟩ := @leaves manifest types fuel typeClass root middle wellFounded enough head
            resolution premises found retains.planned fresh retains.here work active
          refine .inl ⟨after, .head turned (path.trans (.single leave)), planned, ?_, ?_, ?_⟩
          · intro constraint id old
            have kept := retains.kept constraint id old
            rw [get, if_neg (by rintro rfl; rw [fresh] at kept; cases kept)]
            exact kept
          · intro other same
            obtain rfl := List.mem_singleton.mp same
            rw [get, if_pos rfl]
            rfl
          · intro constraint has
            rw [get] at has
            split at has
            next same => exact .inr ⟨head, List.mem_singleton_self _, same ▸ .refl⟩
            next =>
              rcases retains.added constraint has with old | ⟨premise, member, needs⟩
              · exact .inl old
              · have isPremise : Premise manifest types (typeClass, head) (typeClass, premise) :=
                  ⟨rfl, resolution, premises, found, member⟩
                exact .inr ⟨head, List.mem_singleton_self _, .head isPremise needs⟩
        · refine .inr ⟨⟨head, List.mem_singleton_self _, fun derives => ?_⟩, after, returns_of_again turned returns, planned⟩
          obtain ⟨_, premises', resolved, derived⟩ := (derives_iff wellFounded allocated).mp derives
          rw [found] at resolved
          obtain ⟨-, rfl⟩ := Prod.mk.inj (Option.some.inj resolved)
          exact underivable (derived bad member)

/-- `retain` with enough fuel: it returns the plan of the constraint, or there is no derivation. -/
theorem retain_returns (wellFounded : types.WellFounded) (enough : types.nodes.length ≤ fuel)
    (allocated : root < types.nodes.length) (planned : Planned manifest types store) :
    ∃ result, Returns (retainTurn fuel manifest types typeClass root) ⟨[.enter root], [], store⟩ result ∧
      ((∃ id, result.1 = some id ∧ result.2.get (typeClass, root) = some id ∧
          Retains manifest types typeClass [root] store result.2) ∨
        result.1 = none ∧ ¬ Derives manifest typeClass (types.tree root) ∧ Planned manifest types result.2) := by
  have enters : Enters manifest types fuel typeClass root [root] := enters_one wellFounded enough allocated
  rcases enters [] [] store planned nofun with
    ⟨after, path, retains⟩ | ⟨⟨bad, isRoot, underivable⟩, after, returns, planned⟩
  · obtain ⟨id, here⟩ := Option.isSome_iff_exists.mp (retains.here root (List.mem_singleton_self _))
    have leave : retainTurn fuel manifest types typeClass root ⟨[], [], after⟩ = some (.leave (some id, after)) := by
      simp [retainTurn, here]
    exact ⟨(some id, after), path.returns (returns_of_leave leave), .inl ⟨id, rfl, here, retains⟩⟩
  · obtain rfl := List.mem_singleton.mp isRoot
    exact ⟨(none, after), returns, .inr ⟨rfl, underivable, planned⟩⟩

theorem retainTurn_mono {fuel fuel' : ℕ} (le : fuel ≤ fuel') (state : RetainState)
    (result : Turn RetainState Retained) (turned : retainTurn fuel manifest types typeClass root state = some result) :
    retainTurn fuel' manifest types typeClass root state = some result := by
  simp only [retainTurn] at turned ⊢
  split at turned
  next => exact turned
  next =>
    simp only [Option.bind_eq_bind, Option.bind_eq_some_iff] at turned ⊢
    obtain ⟨out, resolved, turned⟩ := turned
    exact ⟨out, resolve_mono le resolved, turned⟩
  next =>
    split at turned
    next known =>
      rw [if_pos known]
      exact turned
    next unknown =>
      rw [if_neg unknown]
      split at turned
      next member =>
        rw [if_pos member]
        exact turned
      next member =>
        rw [if_neg member]
        simp only [Option.bind_eq_bind, Option.bind_eq_some_iff] at turned ⊢
        obtain ⟨out, resolved, turned⟩ := turned
        exact ⟨out, resolve_mono le resolved, turned⟩

end Retain

section Runs

variable {store : InstanceEvidencePlans} {constraint : Constraint}

theorem retain_mono {fuel fuel' : ℕ} (le : fuel ≤ fuel') {result : Retained}
    (returned : retain fuel manifest types store constraint = some result) :
    retain fuel' manifest types store constraint = some result :=
  run_mono (retainTurn_mono le) le returned

theorem retain_unique {fuel fuel' : ℕ} {first second : Retained}
    (left : retain fuel manifest types store constraint = some first)
    (right : retain fuel' manifest types store constraint = some second) : first = second := by
  have left' := retain_mono (Nat.le_max_left fuel fuel') left
  have right' := retain_mono (Nat.le_max_right fuel fuel') right
  exact Option.some.inj (left'.symm.trans right')

/-- What a call of `retain` means. -/
theorem retain_total (wellFounded : types.WellFounded) (allocated : constraint.2 < types.nodes.length)
    (planned : Planned manifest types store) :
    ∃ fuel result, retain fuel manifest types store constraint = some result ∧
      ((∃ id, result.1 = some id ∧ result.2.get constraint = some id ∧
          Retains manifest types constraint.1 [constraint.2] store result.2) ∨
        result.1 = none ∧ ¬ Derives manifest constraint.1 (types.tree constraint.2) ∧ Planned manifest types result.2) := by
  obtain ⟨result, ⟨fuel, returned⟩, outcome⟩ := retain_returns wellFounded (Nat.le_refl _) allocated planned
  refine ⟨max types.nodes.length fuel, result, ?_, outcome⟩
  exact run_mono (retainTurn_mono (Nat.le_max_left _ _)) (Nat.le_max_right _ _) returned

/-- The constraint has a type in the arena when `retain` returns. -/
theorem retain_allocated (wellFounded : types.WellFounded) (planned : Planned manifest types store) {fuel : ℕ}
    {result : Retained} (returned : retain fuel manifest types store constraint = some result) :
    constraint.2 < types.nodes.length := by
  cases fuel with
  | zero => cases returned
  | succ fuel =>
    cases known : store.get constraint with
    | some id =>
      obtain ⟨plan, here, rfl⟩ := Option.map_eq_some_iff.mp ((planned.found _ _).mp known)
      obtain ⟨premises, resolved, -⟩ := planned.fits plan (List.mem_of_getElem? here)
      exact (premisesAt_lt wellFounded resolved).1
    | none =>
      cases resolved : resolve (fuel + 1) manifest types constraint.1 constraint.2 with
      | some out => exact resolve_allocated resolved
      | none =>
        have stuck : retainTurn (fuel + 1) manifest types constraint.1 constraint.2 ⟨[.enter constraint.2], [], store⟩ = none := by
          have none_ : store.get (constraint.1, constraint.2) = none := known
          simp [retainTurn, none_, resolved]
        rw [retain, run, stuck] at returned
        cases returned

/-- Any calls of `retain`, some of which may have found no plan. -/
inductive Calls (manifest : List InstanceSpec) (types : TypeArena) : InstanceEvidencePlans → Prop where
  | default : Calls manifest types .default
  | retain {store : InstanceEvidencePlans} {fuel : ℕ} {constraint : Constraint} {result : Retained}
      (calls : Calls manifest types store) (returned : retain fuel manifest types store constraint = some result) :
      Calls manifest types result.2

theorem Calls.planned (wellFounded : types.WellFounded) (calls : Calls manifest types store) :
    Planned manifest types store := by
  induction calls with
  | default => exact planned_default
  | retain calls returned ih =>
    obtain ⟨fuel, result, returned', outcome⟩ := retain_total wellFounded (retain_allocated wellFounded ih returned) ih
    obtain rfl := retain_unique returned returned'
    rcases outcome with ⟨id, -, -, retains⟩ | ⟨-, -, planned⟩
    · exact retains.planned
    · exact planned

/-- A constraint has a plan after the calls exactly when it is derivable, and then one plan only. -/
theorem retain_iff (wellFounded : types.WellFounded) (allocated : constraint.2 < types.nodes.length)
    (planned : Planned manifest types store) :
    (∃ fuel id after, retain fuel manifest types store constraint = some (some id, after)) ↔
      Derives manifest constraint.1 (types.tree constraint.2) := by
  obtain ⟨fuel, ⟨plan, after⟩, returned, outcome⟩ := retain_total wellFounded allocated planned
  rcases outcome with ⟨id, rfl, here, retains⟩ | ⟨rfl, underivable, -⟩
  · exact iff_of_true ⟨fuel, id, after, returned⟩ (retains.planned.derives wellFounded (Option.isSome_of_eq_some here))
  · refine iff_of_false ?_ underivable
    rintro ⟨fuel', id, after', returned'⟩
    cases retain_unique returned returned'

theorem planAll_mono {fuel fuel' : ℕ} (le : fuel ≤ fuel') {constraints : List Constraint}
    {result : Option InstanceEvidencePlans} (returned : planAll fuel manifest types store constraints = some result) :
    planAll fuel' manifest types store constraints = some result := by
  induction constraints generalizing store with
  | nil => exact returned
  | cons constraint constraints ih =>
    simp only [planAll, Option.bind_eq_bind, Option.bind_eq_some_iff] at returned ⊢
    obtain ⟨retained, first, rest⟩ := returned
    refine ⟨retained, retain_mono le first, ?_⟩
    split at rest
    next => exact rest
    next => exact ih rest

/-- The plans of derivable constraints are those that they need. -/
theorem planAll_total (wellFounded : types.WellFounded) (planned : Planned manifest types store)
    {constraints : List Constraint} (allocated : ∀ constraint ∈ constraints, constraint.2 < types.nodes.length)
    (derives : ∀ constraint ∈ constraints, Derives manifest constraint.1 (types.tree constraint.2)) :
    ∃ fuel after, planAll fuel manifest types store constraints = some (some after) := by
  induction constraints generalizing store with
  | nil => exact ⟨0, store, rfl⟩
  | cons constraint constraints ih =>
    obtain ⟨fuel, ⟨plan, middle⟩, returned, outcome⟩ :=
      retain_total wellFounded (allocated constraint (List.mem_cons_self ..)) planned
    rcases outcome with ⟨id, rfl, -, retains⟩ | ⟨-, underivable, -⟩
    · obtain ⟨fuel', after, rest⟩ := ih retains.planned (fun other member => allocated other (List.mem_cons_of_mem _ member))
        fun other member => derives other (List.mem_cons_of_mem _ member)
      refine ⟨max fuel fuel', after, ?_⟩
      simp only [planAll, retain_mono (Nat.le_max_left fuel fuel') returned, Option.bind_eq_bind, Option.bind_some]
      exact planAll_mono (Nat.le_max_right fuel fuel') rest
    · exact absurd (derives constraint (List.mem_cons_self ..)) underivable

/-- What the plans of a program are. -/
theorem planAll_spec (wellFounded : types.WellFounded) (planned : Planned manifest types store)
    {constraints : List Constraint} {fuel : ℕ} {after : InstanceEvidencePlans}
    (returned : planAll fuel manifest types store constraints = some (some after)) :
    Planned manifest types after ∧ (∀ constraint id, store.get constraint = some id → after.get constraint = some id) ∧
      (∀ constraint ∈ constraints, (after.get constraint).isSome) ∧
      ∀ constraint, (after.get constraint).isSome →
        (store.get constraint).isSome ∨ ∃ root ∈ constraints, Needs manifest types root constraint := by
  induction constraints generalizing store with
  | nil =>
    obtain rfl := Option.some.inj (Option.some.inj returned)
    exact ⟨planned, fun _ _ same => same, nofun, fun _ => .inl⟩
  | cons constraint constraints ih =>
    simp only [planAll, Option.bind_eq_bind, Option.bind_eq_some_iff] at returned
    obtain ⟨retained, first, rest⟩ := returned
    split at rest
    next => cases rest
    next id middle =>
      obtain ⟨fuel', result, returned', outcome⟩ :=
        retain_total wellFounded (retain_allocated wellFounded planned first) planned
      obtain rfl := retain_unique first returned'
      rcases outcome with ⟨id, -, here, retains⟩ | ⟨other, -⟩
      · obtain ⟨planned', kept, known, added⟩ := ih retains.planned rest
        refine ⟨planned', fun other id old => kept other id (retains.kept other id old), fun other member => ?_, ?_⟩
        · rcases List.mem_cons.mp member with rfl | later
          · exact Option.isSome_of_eq_some (kept _ _ here)
          · exact known other later
        · intro other has
          rcases added other has with middle_ | ⟨root, member, needs⟩
          · rcases retains.added other middle_ with old | ⟨head, isHead, needs⟩
            · exact .inl old
            · obtain rfl := List.mem_singleton.mp isHead
              exact .inr ⟨constraint, List.mem_cons_self .., needs⟩
          · exact .inr ⟨root, List.mem_cons_of_mem _ member, needs⟩
      · cases other

end Runs

end HellRs.Instances
