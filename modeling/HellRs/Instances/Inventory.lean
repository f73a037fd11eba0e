import HellRs.Instances.Graph

/-! # The inventory of plans

`Exact` says what an accepted graph of plans is: every piece of evidence names the plan of its constraint, every plan
fits, no constraint has two plans, and every plan is needed by some evidence. The validator with the inventory check
decides it.
-/

namespace HellRs.Instances

open Types Builtins Core Loop

variable {manifest : List InstanceSpec} {types : TypeArena} {plans : List InstanceEvidencePlan}

/-- All evidence passes the validator, and the inventory is exact. -/
def Accepts (manifest : List InstanceSpec) (types : TypeArena) (plans : List InstanceEvidencePlan)
    (roots : List ClassEvidence) : Prop :=
  ∃ fuel, (∀ evidence ∈ roots, validatePlan fuel manifest types plans evidence = some true) ∧
    inventoryIsExact fuel manifest types plans (roots.map ClassEvidence.plan) = some true

structure Exact (manifest : List InstanceSpec) (types : TypeArena) (plans : List InstanceEvidencePlan)
    (roots : List ClassEvidence) : Prop where
  named : ∀ evidence ∈ roots, constraintAt plans evidence.plan = some (evidence.typeClass, evidence.head)
  fits : ∀ plan ∈ plans, Fits manifest types plans plan
  unique : (plans.map fun plan => (plan.typeClass, plan.head)).Nodup
  used : ∀ id < plans.length, ∃ evidence ∈ roots, Reach plans evidence.plan id

section Reachable

variable {fuel : ℕ}

theorem Sound.lt {id : InstanceEvidencePlanId} (sound : Sound manifest types plans id) : id < plans.length := by
  obtain ⟨plan, here, -⟩ := sound
  exact (List.getElem?_eq_some_iff.mp here).1

theorem reachableFrom_spec (wellFounded : types.WellFounded) {roots reachable result : List InstanceEvidencePlanId}
    (once : reachable.Nodup) (returned : reachableFrom fuel manifest types plans roots reachable = some (some result)) :
    result.Nodup ∧ ∀ id, id ∈ result ↔ id ∈ reachable ∨ ∃ root ∈ roots, Reach plans root id := by
  induction roots generalizing reachable with
  | nil =>
    obtain rfl := Option.some.inj (Option.some.inj returned)
    exact ⟨once, fun id => by simp⟩
  | cons root roots ih =>
    simp only [reachableFrom, Option.bind_eq_bind, Option.bind_eq_some_iff] at returned
    obtain ⟨found, walked, returned⟩ := returned
    cases found with
    | none => cases returned
    | some visited =>
      have facts := validateGraph_visited wellFounded walked
      have once' : (reachable ++ visited.filter fun plan => plan ∉ reachable).Nodup := by
        refine List.Nodup.append once (facts.once.filter _) fun id old isNew => ?_
        simpa [old] using (List.mem_filter.mp isNew).2
      obtain ⟨nodup, members⟩ := ih once' returned
      refine ⟨nodup, fun id => ?_⟩
      rw [members, List.mem_append, List.mem_filter, List.exists_mem_cons_iff, ← facts.mem_iff]
      by_cases old : id ∈ reachable
      · simp [old]
      · simp [old]

theorem reachableFrom_total {roots : List InstanceEvidencePlanId}
    (walked : ∀ root ∈ roots, ∃ visited, validateGraph fuel manifest types plans root = some (some visited))
    (reachable : List InstanceEvidencePlanId) :
    ∃ result, reachableFrom fuel manifest types plans roots reachable = some (some result) := by
  induction roots generalizing reachable with
  | nil => exact ⟨reachable, rfl⟩
  | cons root roots ih =>
    obtain ⟨visited, found⟩ := walked root (List.mem_cons_self ..)
    obtain ⟨result, rest⟩ := ih (fun other member => walked other (List.mem_cons_of_mem _ member))
      (reachable ++ visited.filter fun plan => plan ∉ reachable)
    exact ⟨result, by simp only [reachableFrom, found, Option.bind_eq_bind, Option.bind_some, rest]⟩

/-- One amount of fuel is enough for all roots. -/
theorem walks_together {roots : List InstanceEvidencePlanId}
    (each : ∀ root ∈ roots, ∃ fuel visited, validateGraph fuel manifest types plans root = some (some visited)) :
    ∃ fuel, ∀ root ∈ roots, ∃ visited, validateGraph fuel manifest types plans root = some (some visited) := by
  induction roots with
  | nil => exact ⟨0, nofun⟩
  | cons root roots ih =>
    obtain ⟨fuel, visited, found⟩ := each root (List.mem_cons_self ..)
    obtain ⟨fuel', rest⟩ := ih fun other member => each other (List.mem_cons_of_mem _ member)
    refine ⟨max fuel fuel', fun other member => ?_⟩
    rcases List.mem_cons.mp member with rfl | later
    · exact ⟨visited, validateGraph_mono (Nat.le_max_left _ _) found⟩
    · obtain ⟨visited', found'⟩ := rest other later
      exact ⟨visited', validateGraph_mono (Nat.le_max_right _ _) found'⟩

theorem validatePlan_true {evidence : ClassEvidence} :
    validatePlan fuel manifest types plans evidence = some true ↔
      constraintAt plans evidence.plan = some (evidence.typeClass, evidence.head) ∧
        ∃ visited, validateGraph fuel manifest types plans evidence.plan = some (some visited) := by
  simp only [validatePlan, constraintAt]
  cases here : plans[evidence.plan]? with
  | none => simp
  | some root =>
    simp only [Option.map_some, Option.some.injEq, Prod.mk.injEq]
    by_cases same : root.typeClass = evidence.typeClass ∧ root.head = evidence.head
    · rw [if_pos same]
      simp only [same, and_self, true_and]
      rcases validateGraph fuel manifest types plans evidence.plan with _ | _ | visited <;> simp
    · rw [if_neg same]
      simp [same]

end Reachable

section Inventory

theorem inventoryIsExact_cons {fuel : ℕ} (wellFounded : types.WellFounded) {root : InstanceEvidencePlanId}
    {roots : List InstanceEvidencePlanId}
    (walked : ∀ id ∈ root :: roots, ∃ visited, validateGraph fuel manifest types plans id = some (some visited)) :
    ∃ result : List InstanceEvidencePlanId, result.Nodup ∧ (∀ id, id ∈ result ↔ ∃ root' ∈ root :: roots, Reach plans root' id) ∧
      inventoryIsExact fuel manifest types plans (root :: roots) = some (decide (result.length = plans.length ∧
        (plans.map fun plan => (plan.typeClass, plan.head)).Nodup)) := by
  obtain ⟨visited, found⟩ := walked root (List.mem_cons_self ..)
  have facts := validateGraph_visited wellFounded found
  obtain ⟨result, rest⟩ := reachableFrom_total (fun other member => walked other (List.mem_cons_of_mem _ member)) visited
  obtain ⟨once, members⟩ := reachableFrom_spec wellFounded facts.once rest
  refine ⟨result, once, fun id => ?_, ?_⟩
  · rw [members, facts.mem_iff, List.exists_mem_cons_iff]
  · simp only [inventoryIsExact, found, Option.bind_eq_bind, Option.bind_some, Option.getD_some, rest]

/-- Distinct identifiers below a bound, as many as the bound, are all of them. -/
theorem length_eq_iff {ids : List ℕ} {bound : ℕ} (once : ids.Nodup) (inside : ∀ id ∈ ids, id < bound) :
    ids.length = bound ↔ ∀ id < bound, id ∈ ids := by
  have subset : ids ⊆ List.range bound := fun id member => List.mem_range.mpr (inside id member)
  constructor
  · intro length id small
    have perm := (List.subperm_of_subset once subset).perm_of_length_le (by rw [List.length_range, length])
    exact perm.mem_iff.mpr (List.mem_range.mpr small)
  · intro all
    have perm := (List.perm_ext_iff_of_nodup once (List.nodup_range (n := bound))).mpr fun id =>
      ⟨fun member => subset member, fun member => all id (List.mem_range.mp member)⟩
    rw [perm.length_eq, List.length_range]

theorem Exact.sound {roots : List ClassEvidence} (exact_ : Exact manifest types plans roots) {evidence : ClassEvidence}
    (member : evidence ∈ roots) {id : InstanceEvidencePlanId} (reach : Reach plans evidence.plan id) :
    Sound manifest types plans id := by
  have sound {id : InstanceEvidencePlanId} {constraint : Constraint} (known : constraintAt plans id = some constraint) :
      Sound manifest types plans id := by
    obtain ⟨plan, here, -⟩ := Option.map_eq_some_iff.mp known
    exact ⟨plan, here, exact_.fits plan (List.mem_of_getElem? here)⟩
  induction reach with
  | refl => exact sound (exact_.named evidence member)
  | tail _ follows ih =>
    obtain ⟨plan, here, isPremise⟩ := follows
    obtain ⟨premises, -, matched⟩ := exact_.fits plan (List.mem_of_getElem? here)
    have present := matched ▸ List.mem_map_of_mem (f := constraintAt plans) isPremise
    obtain ⟨premise, -, same⟩ := List.mem_map.mp present
    exact sound same.symm

/-- The validator and the inventory check decide whether the graph of plans is exact. -/
theorem accepts_iff (wellFounded : types.WellFounded) {roots : List ClassEvidence} :
    Accepts manifest types plans roots ↔ Exact manifest types plans roots := by
  constructor
  · rintro ⟨fuel, valid, inventory⟩
    have checked evidence member := validatePlan_true.mp (valid evidence member)
    cases roots with
    | nil =>
      obtain rfl : plans = [] := List.isEmpty_iff.mp (Option.some.inj inventory)
      exact ⟨nofun, nofun, List.nodup_nil, fun id small => absurd small (Nat.not_lt_zero id)⟩
    | cons first rest =>
      have walked : ∀ id ∈ (first :: rest).map ClassEvidence.plan, ∃ visited,
          validateGraph fuel manifest types plans id = some (some visited) := by
        intro id member
        obtain ⟨evidence, isRoot, rfl⟩ := List.mem_map.mp member
        exact (checked evidence isRoot).2
      obtain ⟨result, once, members, value⟩ := inventoryIsExact_cons wellFounded walked
      rw [List.map_cons, value, Option.some.injEq, decide_eq_true_eq] at inventory
      obtain ⟨length, unique⟩ := inventory
      have reached : ∀ id, id ∈ result ↔ ∃ evidence ∈ first :: rest, Reach plans evidence.plan id := by
        intro id
        rw [members, ← List.map_cons]
        simp only [List.mem_map, exists_exists_and_eq_and]
      have sound : ∀ id ∈ result, Sound manifest types plans id := by
        intro id member
        obtain ⟨evidence, isRoot, reach⟩ := (reached id).mp member
        obtain ⟨visited, found⟩ := (checked evidence isRoot).2
        exact (validateGraph_iff wellFounded).mp ⟨fuel, visited, found⟩ id reach
      have all := (length_eq_iff once fun id member => (sound id member).lt).mp length
      refine ⟨fun evidence member => (checked evidence member).1, fun plan member => ?_, unique, fun id small =>
        (reached id).mp (all id small)⟩
      obtain ⟨id, small, here⟩ := List.mem_iff_getElem.mp member
      obtain ⟨plan', here', fits⟩ := sound id (all id small)
      rw [List.getElem?_eq_getElem small, here] at here'
      exact Option.some.inj here' ▸ fits
  · intro exact_
    have each : ∀ id ∈ roots.map ClassEvidence.plan, ∃ fuel visited,
        validateGraph fuel manifest types plans id = some (some visited) := by
      intro id member
      obtain ⟨evidence, isRoot, rfl⟩ := List.mem_map.mp member
      exact (validateGraph_iff wellFounded).mpr fun id reach => exact_.sound isRoot reach
    obtain ⟨fuel, walked⟩ := walks_together each
    refine ⟨fuel, fun evidence member => validatePlan_true.mpr ⟨exact_.named evidence member, walked _ (List.mem_map_of_mem member)⟩, ?_⟩
    cases roots with
    | nil =>
      have none_ : plans = [] := by
        by_contra other
        obtain ⟨_, member, -⟩ := exact_.used 0 (List.length_pos_of_ne_nil other)
        cases member
      subst none_
      rfl
    | cons first rest =>
      obtain ⟨result, once, members, value⟩ := inventoryIsExact_cons wellFounded walked
      have reached : ∀ id, id ∈ result ↔ ∃ evidence ∈ first :: rest, Reach plans evidence.plan id := by
        intro id
        rw [members, ← List.map_cons]
        simp only [List.mem_map, exists_exists_and_eq_and]
      have inside : ∀ id ∈ result, id < plans.length := by
        intro id member
        obtain ⟨evidence, isRoot, reach⟩ := (reached id).mp member
        exact (exact_.sound isRoot reach).lt
      rw [List.map_cons, value, Option.some.injEq, decide_eq_true_eq]
      exact ⟨(length_eq_iff once inside).mpr fun id small => (reached id).mpr (exact_.used id small), exact_.unique⟩

end Inventory

end HellRs.Instances
