import HellRs.Instances.Inventory

/-! # Instance evidence is exact

The graphs of plans that the verifier accepts are those that the planner retains for the same evidence, up to the
numbering of the plans.
-/

namespace HellRs.Instances

open Types Builtins Core Loop

variable {manifest : List InstanceSpec} {types : TypeArena} {planned plans : List InstanceEvidencePlan}

def constraintOf (evidence : ClassEvidence) : Constraint := (evidence.typeClass, evidence.head)

/-- The second list holds the plans of the first one at other places. -/
structure Renumbers (rename : InstanceEvidencePlanId → InstanceEvidencePlanId) (planned plans : List InstanceEvidencePlan) :
    Prop where
  length : planned.length = plans.length
  injective : ∀ id < planned.length, ∀ other < planned.length, rename id = rename other → id = other
  plan : ∀ id plan, planned[id]? = some plan → plans[rename id]? = some { plan with premises := plan.premises.map rename }

/-- The plans are those that the planner retains for the evidence, and the evidence names them. -/
def PlannedFor (manifest : List InstanceSpec) (types : TypeArena) (plans : List InstanceEvidencePlan)
    (roots : List ClassEvidence) : Prop :=
  ∃ fuel store rename, planAll fuel manifest types .default (roots.map constraintOf) = some (some store) ∧
    Renumbers rename store.plans plans ∧
    ∀ evidence ∈ roots, ∃ id, store.get (constraintOf evidence) = some id ∧ evidence.plan = rename id

theorem constraintAt_lt {id : InstanceEvidencePlanId} {constraint : Constraint}
    (known : constraintAt plans id = some constraint) : id < plans.length := by
  obtain ⟨plan, here, -⟩ := Option.map_eq_some_iff.mp known
  exact (List.getElem?_eq_some_iff.mp here).1

theorem constraintAt_exists {id : InstanceEvidencePlanId} (small : id < plans.length) :
    ∃ constraint, constraintAt plans id = some constraint :=
  ⟨_, congrArg (Option.map _) (List.getElem?_eq_getElem small)⟩

theorem unique_iff : (plans.map fun plan => (plan.typeClass, plan.head)).Nodup ↔
    ∀ id other constraint, constraintAt plans id = some constraint → constraintAt plans other = some constraint → id = other := by
  have at_ (id : ℕ) : (plans.map fun plan => (plan.typeClass, plan.head))[id]? = constraintAt plans id :=
    List.getElem?_map ..
  constructor
  · intro once id other constraint known known'
    have small := constraintAt_lt known
    refine (List.getElem?_inj ?_ once).mp ?_
    · rwa [List.length_map]
    · rw [at_, at_, known, known']
  · intro unique
    refine List.nodup_iff_getElem?_ne_getElem?.mpr fun id other less small same => ?_
    rw [List.length_map] at small
    obtain ⟨constraint, known⟩ := constraintAt_exists small
    rw [at_, at_, known] at same
    exact absurd (unique id other constraint same known) (Nat.ne_of_lt less)

section Transport

variable {rename : InstanceEvidencePlanId → InstanceEvidencePlanId}

theorem Renumbers.constraintAt (renumbers : Renumbers rename planned plans) {id : InstanceEvidencePlanId}
    {constraint : Constraint} (known : Instances.constraintAt planned id = some constraint) :
    Instances.constraintAt plans (rename id) = some constraint := by
  obtain ⟨plan, here, rfl⟩ := Option.map_eq_some_iff.mp known
  rw [Instances.constraintAt, renumbers.plan id plan here]
  rfl

theorem Renumbers.surjective (renumbers : Renumbers rename planned plans) {id : InstanceEvidencePlanId}
    (small : id < plans.length) : ∃ old plan, planned[old]? = some plan ∧ rename old = id := by
  have inside (old : Fin planned.length) : rename old < planned.length := by
    obtain ⟨constraint, known⟩ := constraintAt_exists old.isLt
    exact (constraintAt_lt (renumbers.constraintAt known)).trans_eq renumbers.length.symm
  have injective : Function.Injective fun old : Fin planned.length => (⟨rename old, inside old⟩ : Fin planned.length) := by
    intro first second same
    exact Fin.ext (renumbers.injective _ first.isLt _ second.isLt (Fin.mk.inj same))
  obtain ⟨old, same⟩ := Finite.surjective_of_injective injective ⟨id, renumbers.length ▸ small⟩
  exact ⟨old, planned[old], List.getElem?_eq_getElem old.isLt, Fin.mk.inj same⟩

theorem Renumbers.fits (renumbers : Renumbers rename planned plans) {plan : InstanceEvidencePlan}
    (fits : Fits manifest types planned plan) : Fits manifest types plans { plan with premises := plan.premises.map rename } := by
  obtain ⟨premises, resolved, matched⟩ := fits
  refine ⟨premises, resolved, ?_⟩
  rw [← matched, List.map_map]
  apply List.map_congr_left
  intro child member
  have present : Instances.constraintAt planned child ∈ premises.map fun premise => some (plan.typeClass, premise) :=
    matched ▸ List.mem_map_of_mem member
  obtain ⟨premise, -, same⟩ := List.mem_map.mp present
  rw [Function.comp_apply, ← same, renumbers.constraintAt same.symm]

theorem Renumbers.follows (renumbers : Renumbers rename planned plans) {id premise : InstanceEvidencePlanId}
    (follows : Follows planned id premise) : Follows plans (rename id) (rename premise) := by
  obtain ⟨plan, here, member⟩ := follows
  exact ⟨_, renumbers.plan id plan here, List.mem_map_of_mem member⟩

theorem Renumbers.reach (renumbers : Renumbers rename planned plans) {id other : InstanceEvidencePlanId}
    (reach : Reach planned id other) : Reach plans (rename id) (rename other) := by
  induction reach with
  | refl => exact .refl
  | tail _ follows ih => exact ih.tail (renumbers.follows follows)

end Transport

/-- A plan reaches the plans of all constraints that its own constraint needs. -/
theorem reach_of_needs (fits : ∀ plan ∈ plans, Fits manifest types plans plan) {id : InstanceEvidencePlanId}
    {constraint needed : Constraint} (known : constraintAt plans id = some constraint)
    (needs : Needs manifest types constraint needed) :
    ∃ other, Reach plans id other ∧ constraintAt plans other = some needed := by
  induction needs with
  | refl => exact ⟨id, .refl, known⟩
  | tail _ premise ih =>
    obtain ⟨middle, reach, atMiddle⟩ := ih
    obtain ⟨plan, here, rfl⟩ := Option.map_eq_some_iff.mp atMiddle
    obtain ⟨child, member, isChild⟩ := (fits plan (List.mem_of_getElem? here)).premise.mp premise
    exact ⟨child, reach.tail ⟨plan, here, member⟩, isChild⟩

/-- A plan only reaches plans of constraints that its own constraint needs. -/
theorem needs_of_reach (fits : ∀ plan ∈ plans, Fits manifest types plans plan) {id other : InstanceEvidencePlanId}
    {constraint : Constraint} (known : constraintAt plans id = some constraint) (reach : Reach plans id other) :
    ∃ needed, constraintAt plans other = some needed ∧ Needs manifest types constraint needed := by
  induction reach with
  | refl => exact ⟨constraint, known, .refl⟩
  | tail _ follows ih =>
    obtain ⟨middle, atMiddle, needs⟩ := ih
    obtain ⟨plan, here, member⟩ := follows
    have fit := fits plan (List.mem_of_getElem? here)
    obtain ⟨premises, resolved, matched⟩ := fits plan (List.mem_of_getElem? here)
    have present := matched ▸ List.mem_map_of_mem (f := constraintAt plans) member
    obtain ⟨premise, -, same⟩ := List.mem_map.mp present
    rw [constraintAt, here, Option.map_some, Option.some.injEq] at atMiddle
    subst atMiddle
    exact ⟨_, same.symm, needs.tail (fit.premise.mpr ⟨_, member, same.symm⟩)⟩

/-- What the planner retains for some evidence is an exact graph, in every numbering. -/
theorem exact_of_planned (wellFounded : types.WellFounded) {roots : List ClassEvidence}
    (planned : PlannedFor manifest types plans roots) : Exact manifest types plans roots := by
  obtain ⟨fuel, store, rename, returned, renumbers, named⟩ := planned
  obtain ⟨stored, -, -, added⟩ := planAll_spec wellFounded planned_default returned
  have old {id : InstanceEvidencePlanId} (small : id < plans.length) := renumbers.surjective small
  refine ⟨fun evidence member => ?_, fun plan member => ?_, unique_iff.mpr ?_, fun id small => ?_⟩
  · obtain ⟨id, found, same⟩ := named evidence member
    rw [same]
    exact renumbers.constraintAt ((stored.found _ _).mp found)
  · obtain ⟨id, here⟩ := List.mem_iff_getElem?.mp member
    obtain ⟨old, plan', atOld, rfl⟩ := old (List.getElem?_eq_some_iff.mp here).1
    obtain rfl := Option.some.inj (here.symm.trans (renumbers.plan old plan' atOld))
    exact renumbers.fits (stored.fits plan' (List.mem_of_getElem? atOld))
  · intro id other constraint known known'
    obtain ⟨first, plan, atFirst, rfl⟩ := old (constraintAt_lt known)
    obtain ⟨second, plan', atSecond, rfl⟩ := old (constraintAt_lt known')
    have same {place : InstanceEvidencePlanId} {plan : InstanceEvidencePlan} (here : store.plans[place]? = some plan)
        (known : constraintAt plans (rename place) = some constraint) : store.get constraint = some place := by
      have isHere : constraintAt store.plans place = some (plan.typeClass, plan.head) := by rw [constraintAt, here]; rfl
      rw [renumbers.constraintAt isHere] at known
      exact Option.some.inj known ▸ (stored.found _ _).mpr isHere
    rw [Option.some.inj ((same atFirst known).symm.trans (same atSecond known'))]
  · obtain ⟨id, plan, here, rfl⟩ := old small
    have isHere : constraintAt store.plans id = some (plan.typeClass, plan.head) := by rw [constraintAt, here]; rfl
    have known := (stored.found _ _).mpr isHere
    rcases added _ (Option.isSome_of_eq_some known) with none_ | ⟨root, member, needs⟩
    · cases none_
    · obtain ⟨evidence, isRoot, rfl⟩ := List.mem_map.mp member
      obtain ⟨start, found, same⟩ := named evidence isRoot
      obtain ⟨other, reach, isOther⟩ := reach_of_needs stored.fits ((stored.found _ _).mp found) needs
      obtain rfl := Option.some.inj (((stored.found _ _).mpr isOther).symm.trans known)
      exact ⟨evidence, isRoot, same ▸ renumbers.reach reach⟩

theorem map_cancel {α β : Type*} {f : α → Option β} (injective : ∀ first second value, f first = some value →
      f second = some value → first = second) {left right : List α} (present : ∀ item ∈ left, (f item).isSome)
    (same : left.map f = right.map f) : left = right := by
  induction left generalizing right with
  | nil => exact (List.map_eq_nil_iff.mp same.symm).symm
  | cons item left ih =>
    cases right with
    | nil => cases same
    | cons item' right =>
      obtain ⟨here, rest⟩ := List.cons.inj same
      obtain ⟨value, known⟩ := Option.isSome_iff_exists.mp (present item (List.mem_cons_self ..))
      rw [injective item item' value known (here ▸ known), ih (fun other member => present other (List.mem_cons_of_mem _ member)) rest]

theorem mem_constraints {constraint : Constraint} :
    constraint ∈ (plans.map fun plan => (plan.typeClass, plan.head)) ↔ ∃ id, constraintAt plans id = some constraint := by
  rw [List.mem_iff_getElem?]
  exact exists_congr fun id => by rw [List.getElem?_map]; rfl

/-- Plans that fit, are found under the same constraints and have one plan for each constraint differ in their numbering only. -/
theorem renumbers_of_fits {rename : InstanceEvidencePlanId → InstanceEvidencePlanId}
    (fits : ∀ plan ∈ planned, Fits manifest types planned plan) (fits' : ∀ plan ∈ plans, Fits manifest types plans plan)
    (unique : (planned.map fun plan => (plan.typeClass, plan.head)).Nodup)
    (unique' : (plans.map fun plan => (plan.typeClass, plan.head)).Nodup)
    (finds : ∀ id constraint, constraintAt planned id = some constraint → constraintAt plans (rename id) = some constraint)
    (onto : ∀ id constraint, constraintAt plans id = some constraint → ∃ old, constraintAt planned old = some constraint) :
    Renumbers rename planned plans := by
  refine ⟨?_, fun id small other small' same => ?_, fun id plan here => ?_⟩
  · have perm := (List.perm_ext_iff_of_nodup unique unique').mpr fun constraint => by
      rw [mem_constraints, mem_constraints]
      exact ⟨fun ⟨id, known⟩ => ⟨_, finds id constraint known⟩, fun ⟨id, known⟩ => onto id constraint known⟩
    simpa using perm.length_eq
  · obtain ⟨constraint, known⟩ := constraintAt_exists small
    obtain ⟨constraint', known'⟩ := constraintAt_exists small'
    have found := finds id constraint known
    rw [same, finds other constraint' known'] at found
    obtain rfl := Option.some.inj found
    exact unique_iff.mp unique id other _ known known'
  · have isHere : constraintAt planned id = some (plan.typeClass, plan.head) := by rw [constraintAt, here]; rfl
    obtain ⟨plan', here', equal⟩ := Option.map_eq_some_iff.mp (finds id _ isHere)
    obtain ⟨sameClass, sameHead⟩ := Prod.mk.inj equal
    obtain ⟨premises, resolved, matched⟩ := fits plan (List.mem_of_getElem? here)
    obtain ⟨premises', resolved', matched'⟩ := fits' plan' (List.mem_of_getElem? here')
    rw [sameClass, sameHead, resolved] at resolved'
    obtain ⟨sameResolution, rfl⟩ := Prod.mk.inj (Option.some.inj resolved')
    have present {child : InstanceEvidencePlanId} (member : child ∈ plan'.premises) : (constraintAt plans child).isSome := by
      have inside := matched' ▸ List.mem_map_of_mem (f := constraintAt plans) member
      obtain ⟨premise, -, known⟩ := List.mem_map.mp inside
      exact Option.isSome_of_eq_some known.symm
    have sameChildren : plan'.premises = plan.premises.map rename := by
      refine map_cancel (unique_iff.mp unique') (fun child member => present member) ?_
      rw [matched', sameClass, ← matched, List.map_map]
      apply List.map_congr_left
      intro child member
      have inside := matched ▸ List.mem_map_of_mem (f := constraintAt planned) member
      obtain ⟨premise, -, known⟩ := List.mem_map.mp inside
      rw [Function.comp_apply, ← known, finds child _ known.symm]
    rw [here', ← sameChildren]
    obtain ⟨typeClass, head, resolution, children⟩ := plan'
    simp only at sameClass sameHead sameResolution
    rw [sameClass, sameHead, sameResolution]

/-- An exact graph is what the planner retains for its evidence, in some numbering. -/
theorem planned_of_exact (wellFounded : types.WellFounded) {roots : List ClassEvidence}
    (exact_ : Exact manifest types plans roots) : PlannedFor manifest types plans roots := by
  have allocated : ∀ constraint ∈ roots.map constraintOf, constraint.2 < types.nodes.length := by
    intro constraint member
    obtain ⟨evidence, isRoot, rfl⟩ := List.mem_map.mp member
    obtain ⟨plan, here, equal⟩ := Option.map_eq_some_iff.mp (exact_.named evidence isRoot)
    obtain ⟨premises, resolved, -⟩ := exact_.fits plan (List.mem_of_getElem? here)
    obtain ⟨-, sameHead⟩ := Prod.mk.inj equal
    exact sameHead.symm.trans_lt (premisesAt_lt wellFounded resolved).1
  have derives : ∀ constraint ∈ roots.map constraintOf, Derives manifest constraint.1 (types.tree constraint.2) := by
    intro constraint member
    obtain ⟨evidence, isRoot, rfl⟩ := List.mem_map.mp member
    exact derives_of_fits wellFounded exact_.fits (exact_.named evidence isRoot)
  obtain ⟨fuel, store, returned⟩ := planAll_total wellFounded planned_default allocated derives
  obtain ⟨stored, -, known, added⟩ := planAll_spec wellFounded planned_default returned
  have unique : ∀ id other constraint, constraintAt store.plans id = some constraint →
      constraintAt store.plans other = some constraint → id = other := fun id other constraint first second =>
    Option.some.inj (((stored.found _ _).mpr first).symm.trans ((stored.found _ _).mpr second))
  have finds : ∀ id, ∃ other, ∀ constraint, constraintAt store.plans id = some constraint →
      constraintAt plans other = some constraint := by
    intro id
    cases here : constraintAt store.plans id with
    | none => exact ⟨0, nofun⟩
    | some constraint =>
      rcases added constraint (Option.isSome_of_eq_some ((stored.found _ _).mpr here)) with none_ | ⟨root, member, needs⟩
      · cases none_
      · obtain ⟨evidence, isRoot, rfl⟩ := List.mem_map.mp member
        obtain ⟨other, -, found⟩ := reach_of_needs exact_.fits (exact_.named evidence isRoot) needs
        exact ⟨other, fun constraint' same => Option.some.inj same ▸ found⟩
  have onto : ∀ id constraint, constraintAt plans id = some constraint → ∃ old, constraintAt store.plans old = some constraint := by
    intro id constraint here
    obtain ⟨evidence, isRoot, reach⟩ := exact_.used id (constraintAt_lt here)
    obtain ⟨needed, found, needs⟩ := needs_of_reach exact_.fits (exact_.named evidence isRoot) reach
    obtain rfl := Option.some.inj (here.symm.trans found)
    obtain ⟨start, isStart⟩ := Option.isSome_iff_exists.mp (known _ (List.mem_map_of_mem isRoot))
    obtain ⟨old, -, isOld⟩ := reach_of_needs stored.fits ((stored.found _ _).mp isStart) needs
    exact ⟨old, isOld⟩
  choose rename finds using finds
  refine ⟨fuel, store, rename, returned,
    renumbers_of_fits stored.fits exact_.fits (unique_iff.mpr unique) exact_.unique finds onto, fun evidence member => ?_⟩
  obtain ⟨id, found⟩ := Option.isSome_iff_exists.mp (known _ (List.mem_map_of_mem member))
  exact ⟨id, found, unique_iff.mp exact_.unique _ _ _ (exact_.named evidence member) (finds id _ ((stored.found _ _).mp found))⟩

/-- What the planner has retained after any calls: at most one plan for a closed constraint, and all plans fit. -/
structure Retained.Canonical (manifest : List InstanceSpec) (types : TypeArena) (plans : List InstanceEvidencePlan) : Prop where
  fits : ∀ plan ∈ plans, Fits manifest types plans plan
  unique : (plans.map fun plan => (plan.typeClass, plan.head)).Nodup
  closed : ∀ plan ∈ plans, ∀ plan' ∈ plans, plan.typeClass = plan'.typeClass → Closed (types.tree plan.head) →
    types.tree plan.head = types.tree plan'.head → plan = plan'

theorem Planned.canonical (wellFounded : types.WellFounded) (shared : types.Shared) {store : InstanceEvidencePlans}
    (planned : Planned manifest types store) : Retained.Canonical manifest types store.plans := by
  have unique : ∀ id other constraint, constraintAt store.plans id = some constraint →
      constraintAt store.plans other = some constraint → id = other := fun id other constraint first second =>
    Option.some.inj (((planned.found _ _).mpr first).symm.trans ((planned.found _ _).mpr second))
  refine ⟨planned.fits, unique_iff.mpr unique, fun plan member plan' member' sameClass closed sameTree => ?_⟩
  obtain ⟨_, resolved, -⟩ := planned.fits plan member
  obtain ⟨_, resolved', -⟩ := planned.fits plan' member'
  have sameHead := shared.injective wellFounded (premisesAt_lt wellFounded resolved).1 (premisesAt_lt wellFounded resolved').1
    closed sameTree
  obtain ⟨id, here⟩ := List.mem_iff_getElem?.mp member
  obtain ⟨other, here'⟩ := List.mem_iff_getElem?.mp member'
  obtain rfl := unique id other (plan.typeClass, plan.head) (by rw [constraintAt, here]; rfl)
    (by rw [constraintAt, here', sameClass, sameHead]; rfl)
  exact Option.some.inj (here.symm.trans here')

/-- The planner returns a plan for a constraint exactly when it is derivable, keeps one plan for each constraint, and the
verifier accepts the graphs of plans that the planner retains for the evidence, in every numbering, and no others. -/
theorem instance_evidence_exact (manifest : List InstanceSpec) (wellFounded : types.WellFounded) (shared : types.Shared) :
    (∀ store, Calls manifest types store → Retained.Canonical manifest types store.plans ∧
      ∀ constraint : Constraint, constraint.2 < types.nodes.length →
        (∃ fuel result, retain fuel manifest types store constraint = some result) ∧
        ((∃ fuel id after, retain fuel manifest types store constraint = some (some id, after)) ↔
          Derives manifest constraint.1 (types.tree constraint.2))) ∧
    ∀ plans roots, Accepts manifest types plans roots ↔ PlannedFor manifest types plans roots := by
  refine ⟨fun store calls => ?_, fun plans roots => ?_⟩
  · have planned := calls.planned wellFounded
    refine ⟨planned.canonical wellFounded shared, fun constraint allocated => ⟨?_, retain_iff wellFounded allocated planned⟩⟩
    obtain ⟨fuel, result, returned, -⟩ := retain_total wellFounded allocated planned
    exact ⟨fuel, result, returned⟩
  · rw [accepts_iff wellFounded]
    exact ⟨planned_of_exact wellFounded, exact_of_planned wellFounded⟩

/-- The types `Int`, `Maybe` and `Maybe Int`. -/
def maybeInt : TypeArena := ⟨[.constructor "Int" 0, .constructor "Maybe" 1, .apply 1 0]⟩

theorem maybeInt_wellFounded : maybeInt.WellFounded := by
  intro id node found child member
  obtain ⟨small, rfl⟩ := List.getElem?_eq_some_iff.mp found
  match id, small with
  | 0, _ => cases member
  | 1, _ => cases member
  | 2, _ =>
    rcases List.mem_cons.mp member with rfl | last
    · exact Nat.one_lt_two
    · obtain rfl := List.mem_singleton.mp last
      exact Nat.two_pos

theorem maybeInt_shared : maybeInt.Shared := by
  intro id id' node _ found found'
  obtain ⟨small, same⟩ := List.getElem?_eq_some_iff.mp found
  obtain ⟨small', same'⟩ := List.getElem?_eq_some_iff.mp found'
  have nodup : maybeInt.nodes.Nodup := by decide
  exact (List.Nodup.getElem_inj_iff nodup).mp (same.trans same'.symm)

theorem instance_evidence_exact_maybeInt :
    ((∃ fuel id after, retain fuel instances maybeInt .default (.Show, 2) = some (some id, after)) ↔
      Derives instances .Show (maybeInt.tree 2)) ∧
    ∀ plans roots, Accepts instances maybeInt plans roots ↔ PlannedFor instances maybeInt plans roots :=
  ⟨(((instance_evidence_exact instances maybeInt_wellFounded maybeInt_shared).1 .default .default).2 (.Show, 2) (by decide)).2,
    (instance_evidence_exact instances maybeInt_wellFounded maybeInt_shared).2⟩

end HellRs.Instances
