import HellRs.Instances.Planner

/-! # What the validator accepts

The walk over the graph of plans succeeds exactly when all plans that the root reaches fit, and then it visits these. A
walk through plans that fit meets no cycle, since the types of the premises are smaller.
-/

namespace HellRs.Instances

open Types Builtins Core Loop

variable {manifest : List InstanceSpec} {types : TypeArena} {plans : List InstanceEvidencePlan}

/-- The second plan is a premise of the first. -/
def Follows (plans : List InstanceEvidencePlan) (id premise : InstanceEvidencePlanId) : Prop :=
  ∃ plan, plans[id]? = some plan ∧ premise ∈ plan.premises

/-- The plan itself, its premises, their premises, and so on. -/
def Reach (plans : List InstanceEvidencePlan) : InstanceEvidencePlanId → InstanceEvidencePlanId → Prop :=
  Relation.ReflTransGen (Follows plans)

/-- The identifier is that of a plan that fits. -/
def Sound (manifest : List InstanceSpec) (types : TypeArena) (plans : List InstanceEvidencePlan)
    (id : InstanceEvidencePlanId) : Prop :=
  ∃ plan, plans[id]? = some plan ∧ Fits manifest types plans plan

section Agrees

theorem zip_all_iff {typeClass : TypeClass} {premises : List InstanceEvidencePlanId} {arguments : List TypeId}
    (room : premises.length ≤ arguments.length) :
    ((premises.zip arguments).all fun (premise, argument) =>
        match plans[premise]? with
        | none => false
        | some child => child.typeClass = typeClass ∧ child.head = argument) = true ↔
      premises.map (constraintAt plans) = (arguments.take premises.length).map fun argument => some (typeClass, argument) := by
  induction premises generalizing arguments with
  | nil => simp
  | cons premise premises ih =>
    cases arguments with
    | nil => exact absurd room (Nat.not_succ_le_zero _)
    | cons argument arguments =>
      have rest := ih (Nat.le_of_succ_le_succ room)
      simp only [List.zip_cons_cons, List.all_cons, Bool.and_eq_true, rest, List.map_cons, List.length_cons,
        List.take_succ_cons, List.cons.injEq]
      refine and_congr_left fun _ => ?_
      cases here : plans[premise]? with
      | none => simp [constraintAt, here]
      | some child => simp [constraintAt, here]

/-- The checks on a plan succeed exactly when it fits. -/
theorem agrees_true (wellFounded : types.WellFounded) {fuel : ℕ} {plan : InstanceEvidencePlan}
    (agreed : agrees fuel manifest types plans plan = some true) : Fits manifest types plans plan := by
  simp only [agrees, Option.bind_eq_bind, Option.bind_eq_some_iff] at agreed
  obtain ⟨out, resolved, agreed⟩ := agreed
  have resolved := resolve_eq wellFounded resolved
  rcases out with _ | ⟨found, arguments⟩
  · cases agreed
  · simp only at agreed
    split at agreed
    next => cases agreed
    next same =>
      simp only [not_or, not_not] at same
      obtain ⟨resolution, arity, length⟩ := same
      have few : found.resolution.premiseCount ≤ found.resolution.headArity := by
        cases found.resolution <;> simp [InstanceResolution.premiseCount, InstanceResolution.headArity]
      have matched := (zip_all_iff (by rw [length, ← arity]; exact few)).mp (Option.some.inj agreed)
      refine ⟨_, ?_, matched⟩
      simp [premisesAt, resolved, arity, resolution, length]

theorem agrees_of_fits (wellFounded : types.WellFounded) {fuel : ℕ} (enough : types.nodes.length ≤ fuel)
    {plan : InstanceEvidencePlan} (fits : Fits manifest types plans plan) :
    agrees fuel manifest types plans plan = some true := by
  obtain ⟨premises, found, matched⟩ := fits
  have allocated := (premisesAt_lt wellFounded found).1
  have total := @resolve_total manifest types plan.typeClass wellFounded plan.head allocated fuel (allocated.trans_le enough)
  simp only [premisesAt, Option.bind_eq_bind, Option.bind_eq_some_iff] at found
  obtain ⟨⟨spec, arguments⟩, resolved, found⟩ := found
  rw [resolved] at total
  split at found
  next arity =>
    obtain ⟨resolution, rfl⟩ := Prod.mk.inj (Option.some.inj found)
    have few : spec.resolution.premiseCount ≤ arguments.length := by
      rw [← arity]
      cases spec.resolution <;> simp [InstanceResolution.premiseCount, InstanceResolution.headArity]
    have length : plan.premises.length = spec.resolution.premiseCount := by
      have same := congrArg List.length matched
      rwa [List.length_map, List.length_map, List.length_take, Nat.min_eq_left few] at same
    have room : plan.premises.length ≤ arguments.length := length ▸ few
    have all := (@zip_all_iff plans plan.typeClass _ _ room).mpr (by rw [length]; exact matched)
    simp only [agrees, total, Option.bind_eq_bind, Option.bind_some, arity, length, ← resolution, ne_eq,
      not_true_eq_false, or_self, if_false]
    exact congrArg some all
  next => cases found

end Agrees

section Walk

/-- What the walk from a root has visited so far. -/
structure Visits (manifest : List InstanceSpec) (types : TypeArena) (plans : List InstanceEvidencePlan)
    (root : InstanceEvidencePlanId) (state : EvidenceState) : Prop where
  start : root ∈ state.visited ∨ .enter root ∈ state.work
  sound : ∀ id ∈ state.visited, Sound manifest types plans id
  follows : ∀ id ∈ state.visited, ∀ premise, Follows plans id premise → premise ∈ state.visited ∨ .enter premise ∈ state.work
  reached : ∀ id, id ∈ state.visited ∨ .enter id ∈ state.work → Reach plans root id
  once : state.visited.Nodup

/-- What the walk has visited when it succeeds. -/
structure Visited (manifest : List InstanceSpec) (types : TypeArena) (plans : List InstanceEvidencePlan)
    (root : InstanceEvidencePlanId) (visited : List InstanceEvidencePlanId) : Prop where
  sound : ∀ id ∈ visited, Sound manifest types plans id
  mem_iff : ∀ id, id ∈ visited ↔ Reach plans root id
  once : visited.Nodup

variable {root : InstanceEvidencePlanId} {fuel : ℕ}

theorem Visits.skip {id : InstanceEvidencePlanId} {work : List EvidenceWork} {active visited : List InstanceEvidencePlanId}
    (visits : Visits manifest types plans root ⟨.enter id :: work, active, visited⟩) (known : id ∈ visited) :
    Visits manifest types plans root ⟨work, active, visited⟩ := by
  have settled {other : InstanceEvidencePlanId} (pending : other ∈ visited ∨ .enter other ∈ EvidenceWork.enter id :: work) :
      other ∈ visited ∨ .enter other ∈ work := by
    rcases pending with done | pending
    · exact .inl done
    · rcases List.mem_cons.mp pending with same | later
      · exact .inl (EvidenceWork.enter.inj same ▸ known)
      · exact .inr later
  exact ⟨settled visits.start, visits.sound, fun other member premise follows => settled (visits.follows other member premise follows),
    fun other has => visits.reached other (has.imp_right (List.mem_cons_of_mem _)), visits.once⟩

theorem Visits.leave {id : InstanceEvidencePlanId} {work : List EvidenceWork}
    {active active' visited : List InstanceEvidencePlanId}
    (visits : Visits manifest types plans root ⟨.leave id :: work, active, visited⟩) :
    Visits manifest types plans root ⟨work, active', visited⟩ := by
  have settled {other : InstanceEvidencePlanId} (pending : other ∈ visited ∨ .enter other ∈ EvidenceWork.leave id :: work) :
      other ∈ visited ∨ .enter other ∈ work := by
    refine pending.imp_right fun pending => ?_
    rcases List.mem_cons.mp pending with same | later
    · cases same
    · exact later
  exact ⟨settled visits.start, visits.sound, fun other member premise follows => settled (visits.follows other member premise follows),
    fun other has => visits.reached other (has.imp_right (List.mem_cons_of_mem _)), visits.once⟩

theorem Visits.enter {id : InstanceEvidencePlanId} {work : List EvidenceWork}
    {active active' visited : List InstanceEvidencePlanId} {plan : InstanceEvidencePlan}
    (visits : Visits manifest types plans root ⟨.enter id :: work, active, visited⟩) (fresh : id ∉ visited)
    (here : plans[id]? = some plan) (fits : Fits manifest types plans plan) :
    Visits manifest types plans root ⟨plan.premises.map .enter ++ .leave id :: work, active', id :: visited⟩ := by
  have settled {other : InstanceEvidencePlanId} (pending : other ∈ visited ∨ .enter other ∈ EvidenceWork.enter id :: work) :
      other ∈ id :: visited ∨ .enter other ∈ plan.premises.map .enter ++ EvidenceWork.leave id :: work := by
    rcases pending with done | pending
    · exact .inl (List.mem_cons_of_mem _ done)
    · rcases List.mem_cons.mp pending with same | later
      · exact .inl (EvidenceWork.enter.inj same ▸ List.mem_cons_self ..)
      · exact .inr (List.mem_append_right _ (List.mem_cons_of_mem _ later))
  have reached := visits.reached id (.inr (List.mem_cons_self ..))
  refine ⟨settled visits.start, ?_, ?_, ?_, List.nodup_cons.mpr ⟨fresh, visits.once⟩⟩
  · intro other member
    rcases List.mem_cons.mp member with rfl | old
    · exact ⟨plan, here, fits⟩
    · exact visits.sound other old
  · intro other member premise follows
    rcases List.mem_cons.mp member with rfl | old
    · obtain ⟨plan', here', member⟩ := follows
      obtain rfl := Option.some.inj (here.symm.trans here')
      exact .inr (List.mem_append_left _ (List.mem_map_of_mem member))
    · exact settled (visits.follows other old premise follows)
  · intro other has
    rcases has with done | pending
    · rcases List.mem_cons.mp done with rfl | old
      · exact reached
      · exact visits.reached other (.inl old)
    · rcases List.mem_append.mp pending with isPremise | later
      · obtain ⟨premise, member, same⟩ := List.mem_map.mp isPremise
        obtain rfl := EvidenceWork.enter.inj same
        exact reached.tail ⟨plan, here, member⟩
      · rcases List.mem_cons.mp later with same | later
        · cases same
        · exact visits.reached other (.inr (List.mem_cons_of_mem _ later))

theorem validateGraph_visited (wellFounded : types.WellFounded) {visited : List InstanceEvidencePlanId}
    (accepted : validateGraph fuel manifest types plans root = some (some visited)) :
    Visited manifest types plans root visited := by
  refine run_invariant (Visits manifest types plans root)
    (fun result => ∀ visited, result = some visited → Visited manifest types plans root visited) ?_ ?_ ?_ accepted visited rfl
  · rintro ⟨work, active, visited⟩ after visits turned
    simp only [graphTurn] at turned
    split at turned
    next => cases turned
    next id work =>
      split at turned
      next =>
        obtain rfl := Turn.again.inj (Option.some.inj turned)
        exact visits.leave
      next => cases turned
    next id work =>
      split at turned
      next => cases turned
      next =>
        split at turned
        next known =>
          obtain rfl := Turn.again.inj (Option.some.inj turned)
          exact visits.skip known
        next fresh =>
          split at turned
          next => cases turned
          next plan here =>
            simp only [Option.bind_eq_bind, Option.bind_eq_some_iff] at turned
            obtain ⟨agreed, checked, turned⟩ := turned
            split at turned
            next isTrue =>
              obtain rfl := Turn.again.inj (Option.some.inj turned)
              exact visits.enter fresh here (agrees_true wellFounded (isTrue ▸ checked))
            next => cases turned
  · rintro ⟨work, active, visited⟩ result visits turned found rfl
    simp only [graphTurn] at turned
    split at turned
    next =>
      obtain rfl : visited = found := Option.some.inj (Turn.leave.inj (Option.some.inj turned))
      have settled {other : InstanceEvidencePlanId} (pending : other ∈ visited ∨ .enter other ∈ ([] : List EvidenceWork)) :
          other ∈ visited := pending.resolve_right (List.not_mem_nil)
      refine ⟨visits.sound, fun id => ⟨fun member => visits.reached id (.inl member), fun reach => ?_⟩, visits.once⟩
      induction reach with
      | refl => exact settled visits.start
      | tail _ follows ih => exact settled (visits.follows _ ih _ follows)
    next => split at turned <;> cases turned
    next =>
      split at turned
      next => cases turned
      next =>
        split at turned
        next => cases turned
        next =>
          split at turned
          next => cases turned
          next =>
            simp only [Option.bind_eq_bind, Option.bind_eq_some_iff] at turned
            obtain ⟨agreed, -, turned⟩ := turned
            split at turned <;> cases turned
  · refine ⟨.inr (List.mem_cons_self ..), fun _ never => absurd never List.not_mem_nil, fun _ never => absurd never List.not_mem_nil,
      fun id has => ?_, List.nodup_nil⟩
    obtain same := List.mem_singleton.mp (has.resolve_left List.not_mem_nil)
    exact EvidenceWork.enter.inj same ▸ .refl

/-- Every plan of the first list is for a smaller type than every plan of the second one. -/
def Below (plans : List InstanceEvidencePlan) (ids outer : List InstanceEvidencePlanId) : Prop :=
  ∀ id ∈ ids, ∀ other ∈ outer, ∀ plan plan', plans[id]? = some plan → plans[other]? = some plan' → plan.head < plan'.head

variable (manifest types plans) in
/-- The plans are entered from any stack of work. -/
def Walks (fuel : ℕ) (ids : List InstanceEvidencePlanId) : Prop :=
  ∀ work active visited, Below plans ids active → ∃ after,
    Reaches (graphTurn fuel manifest types plans) ⟨ids.map .enter ++ work, active, visited⟩ ⟨work, active, after⟩

theorem walks_all {ids : List InstanceEvidencePlanId} (each : ∀ id ∈ ids, Walks manifest types plans fuel [id]) :
    Walks manifest types plans fuel ids := by
  induction ids with
  | nil => exact fun work active visited _ => ⟨visited, .refl⟩
  | cons id ids ih =>
    intro work active visited below
    obtain ⟨middle, path⟩ := each id (List.mem_cons_self ..) (ids.map .enter ++ work) active visited
      fun other same => List.mem_singleton.mp same ▸ below id (List.mem_cons_self ..)
    obtain ⟨after, path'⟩ := ih (fun other member => each other (List.mem_cons_of_mem _ member)) work active middle
      fun other member => below other (List.mem_cons_of_mem _ member)
    exact ⟨after, path.trans path'⟩

/-- The premises of a plan that fits are plans for smaller types. -/
theorem Fits.below (wellFounded : types.WellFounded) {plan : InstanceEvidencePlan} (fits : Fits manifest types plans plan)
    {premise : InstanceEvidencePlanId} (member : premise ∈ plan.premises) :
    ∃ child, plans[premise]? = some child ∧ child.head < plan.head := by
  obtain ⟨premises, resolved, matched⟩ := fits
  have present : constraintAt plans premise ∈ premises.map fun premise => some (plan.typeClass, premise) :=
    matched ▸ List.mem_map_of_mem member
  obtain ⟨ty, isPremise, same⟩ := List.mem_map.mp present
  obtain ⟨child, here, equal⟩ := Option.map_eq_some_iff.mp same.symm
  obtain ⟨-, rfl⟩ := Prod.mk.inj equal
  exact ⟨child, here, (premisesAt_lt wellFounded resolved).2 _ isPremise⟩

theorem walks_one (wellFounded : types.WellFounded) (enough : types.nodes.length ≤ fuel) {id : InstanceEvidencePlanId}
    (sound : ∀ other, Reach plans id other → Sound manifest types plans other) : Walks manifest types plans fuel [id] := by
  obtain ⟨plan, here, fits⟩ := sound id .refl
  induction size : plan.head using Nat.strongRecOn generalizing id plan with
  | ind head ih =>
    subst size
    intro work active visited below
    have inactive : id ∉ active := fun member =>
      absurd (below id (List.mem_singleton_self _) id member plan plan here here) (Nat.lt_irrefl plan.head)
    by_cases known : id ∈ visited
    · exact ⟨visited, .single (by simp [graphTurn, inactive, known])⟩
    · have turned : graphTurn fuel manifest types plans ⟨.enter id :: work, active, visited⟩ =
          some (.again ⟨plan.premises.map .enter ++ .leave id :: work, id :: active, id :: visited⟩) := by
        simp [graphTurn, inactive, known, here, agrees_of_fits wellFounded enough fits]
      have inner : Walks manifest types plans fuel plan.premises := walks_all fun premise member => by
        obtain ⟨child, isChild, smaller⟩ := fits.below wellFounded member
        have sound' : ∀ other, Reach plans premise other → Sound manifest types plans other :=
          fun other reach => sound other (.head ⟨plan, here, member⟩ reach)
        obtain ⟨child', isChild', fits'⟩ := sound' premise .refl
        obtain rfl := Option.some.inj (isChild.symm.trans isChild')
        exact ih child.head smaller sound' child isChild fits' rfl
      obtain ⟨after, path⟩ := inner (.leave id :: work) (id :: active) (id :: visited) fun premise member other isOuter child outer
          isChild isOther => by
        obtain ⟨child', isChild', smaller⟩ := fits.below wellFounded member
        obtain rfl := Option.some.inj (isChild'.symm.trans isChild)
        rcases List.mem_cons.mp isOuter with rfl | isOuter
        · obtain rfl := Option.some.inj (here.symm.trans isOther)
          exact smaller
        · exact smaller.trans (below id (List.mem_singleton_self _) other isOuter plan outer here isOther)
      refine ⟨after, .head turned (path.trans (.single ?_))⟩
      simp [graphTurn]

theorem validateGraph_of_sound (wellFounded : types.WellFounded) (enough : types.nodes.length ≤ fuel)
    (sound : ∀ id, Reach plans root id → Sound manifest types plans id) :
    ∃ visited, Returns (graphTurn fuel manifest types plans) ⟨[.enter root], [], []⟩ (some visited) := by
  obtain ⟨after, path⟩ := walks_one wellFounded enough sound [] [] [] (fun _ _ _ member => absurd member List.not_mem_nil)
  exact ⟨after, path.returns (returns_of_leave rfl)⟩

end Walk

section Mono

variable {fuel fuel' : ℕ} {root : InstanceEvidencePlanId}

theorem agrees_mono (le : fuel ≤ fuel') {plan : InstanceEvidencePlan} {result : Bool}
    (agreed : agrees fuel manifest types plans plan = some result) :
    agrees fuel' manifest types plans plan = some result := by
  simp only [agrees, Option.bind_eq_bind, Option.bind_eq_some_iff] at agreed ⊢
  obtain ⟨out, resolved, agreed⟩ := agreed
  exact ⟨out, resolve_mono le resolved, agreed⟩

theorem graphTurn_mono (le : fuel ≤ fuel') (state : EvidenceState)
    (result : Turn EvidenceState (Option (List InstanceEvidencePlanId)))
    (turned : graphTurn fuel manifest types plans state = some result) :
    graphTurn fuel' manifest types plans state = some result := by
  simp only [graphTurn] at turned ⊢
  split at turned
  next => exact turned
  next => exact turned
  next =>
    split at turned
    next member =>
      rw [if_pos member]
      exact turned
    next member =>
      rw [if_neg member]
      split at turned
      next known =>
        rw [if_pos known]
        exact turned
      next fresh =>
        rw [if_neg fresh]
        split at turned
        next => exact turned
        next =>
          simp only [Option.bind_eq_bind, Option.bind_eq_some_iff] at turned ⊢
          obtain ⟨agreed, checked, turned⟩ := turned
          exact ⟨agreed, agrees_mono le checked, turned⟩

theorem validateGraph_mono (le : fuel ≤ fuel') {result : Option (List InstanceEvidencePlanId)}
    (returned : validateGraph fuel manifest types plans root = some result) :
    validateGraph fuel' manifest types plans root = some result :=
  run_mono (graphTurn_mono le) le returned

/-- The walk succeeds exactly when all plans that the root reaches fit. -/
theorem validateGraph_iff (wellFounded : types.WellFounded) :
    (∃ fuel visited, validateGraph fuel manifest types plans root = some (some visited)) ↔
      ∀ id, Reach plans root id → Sound manifest types plans id := by
  constructor
  · rintro ⟨fuel, visited, accepted⟩ id reach
    have facts := validateGraph_visited wellFounded accepted
    exact facts.sound id ((facts.mem_iff id).mpr reach)
  · intro sound
    obtain ⟨visited, fuel, returned⟩ := validateGraph_of_sound wellFounded (Nat.le_refl _) sound
    refine ⟨max types.nodes.length fuel, visited, ?_⟩
    exact run_mono (graphTurn_mono (Nat.le_max_left _ _)) (Nat.le_max_right _ _) returned

end Mono

end HellRs.Instances
