import HellRs.Instances.Plans
import HellRs.Types.Canonical

/-! # Derivations of class constraints

`Derives` says that a constraint follows from the rows of a manifest, as a finite derivation over the tree of the type.
On identifiers the premises of a constraint are found from the arena, and they are smaller identifiers.
-/

namespace HellRs.Instances

open Types Builtins Core Loop

/-- The constructor at the head of a type, and its arguments in order. -/
def headOf : Tree → Option (String × List Tree)
  | .leaf (.constructor name _) => some (name, [])
  | .node .apply function argument => (headOf function).map fun (name, arguments) => (name, arguments ++ [argument])
  | _ => none

/-- A finite derivation of a class constraint from the rows of a manifest. -/
inductive Derives (manifest : List InstanceSpec) (typeClass : TypeClass) : Tree → Prop where
  | row {ty : Tree} {target : String} {arguments : List Tree} {found : InstanceSpec} (head : headOf ty = some (target, arguments))
      (spec : instanceIn manifest typeClass target = some found) (arity : found.resolution.headArity = arguments.length)
      (premises : ∀ premise ∈ arguments.take found.resolution.premiseCount, Derives manifest typeClass premise) :
      Derives manifest typeClass ty

variable {manifest : List InstanceSpec} {types : TypeArena} {typeClass : TypeClass}

section Head

theorem applySpine_mono {fuel fuel' : ℕ} (le : fuel ≤ fuel') {ty : TypeId} {seen : List TypeId}
    {result : TypeId × List TypeId} (found : applySpine types fuel ty seen = some result) :
    applySpine types fuel' ty seen = some result := by
  induction fuel generalizing fuel' ty seen with
  | zero => cases found
  | succ fuel ih =>
    obtain ⟨rest, rfl⟩ : ∃ rest, fuel' = rest + 1 := ⟨fuel' - 1, by omega⟩
    simp only [applySpine, Option.bind_eq_bind, Option.bind_eq_some_iff] at found ⊢
    obtain ⟨node, here, found⟩ := found
    refine ⟨node, here, ?_⟩
    split at found
    next => exact ih (by omega) found
    next => exact found

/-- The head of an allocated type: what the walk along its applications finds, for enough fuel. -/
theorem applySpine_spec (wellFounded : types.WellFounded) {ty : TypeId} (allocated : ty < types.nodes.length) :
    ∃ head arguments node, (∀ fuel, ty < fuel → ∀ seen, applySpine types fuel ty seen = some (head, arguments ++ seen)) ∧
      types.get head = some node ∧ (∀ argument ∈ arguments, argument < ty) ∧
      headOf (types.tree ty) = (typeConstructorName node).map fun name => (name, arguments.map types.tree) := by
  induction ty using Nat.strongRecOn with
  | ind ty ih =>
    obtain ⟨node, here⟩ := TypeArena.exists_get allocated
    have tree := wellFounded.tree_eq here
    cases node with
    | apply function argument =>
      have below := wellFounded ty _ here function (by simp [TypeNode.children])
      obtain ⟨head, arguments, node, walks, atHead, smaller, isHead⟩ := ih function below (below.trans allocated)
      refine ⟨head, arguments ++ [argument], node, fun fuel enough seen => ?_, atHead, fun other member => ?_, ?_⟩
      · cases fuel with
        | zero => exact absurd enough (Nat.not_lt_zero ty)
        | succ fuel =>
          simp only [applySpine, here, Option.bind_eq_bind, Option.bind_some]
          rw [walks fuel (below.trans_le (Nat.lt_succ_iff.mp enough)), List.append_assoc, List.singleton_append]
      · rcases List.mem_append.mp member with old | isLast
        · exact (smaller other old).trans below
        · obtain rfl := List.mem_singleton.mp isLast
          exact wellFounded ty _ here other (by simp [TypeNode.children])
      · rw [tree, TypeNode.tree, headOf, isHead]
        cases typeConstructorName node <;> simp
    | _ =>
      refine ⟨ty, [], _, fun fuel enough seen => ?_, here, fun _ never => absurd never List.not_mem_nil, by rw [tree]; rfl⟩
      cases fuel with
      | zero => exact absurd enough (Nat.not_lt_zero ty)
      | succ fuel => simp only [applySpine, here, Option.bind_eq_bind, Option.bind_some, List.nil_append]

theorem instanceHead_mono {fuel fuel' : ℕ} (le : fuel ≤ fuel') {ty : TypeId} {head : Option (String × List TypeId)}
    (found : instanceHead fuel types ty = some head) : instanceHead fuel' types ty = some head := by
  simp only [instanceHead, Option.bind_eq_bind, Option.bind_eq_some_iff] at found ⊢
  obtain ⟨spine, walked, rest⟩ := found
  exact ⟨spine, applySpine_mono le walked, rest⟩

theorem instanceHead_spec (wellFounded : types.WellFounded) {ty : TypeId} (allocated : ty < types.nodes.length) :
    ∃ head, (∀ fuel, ty < fuel → instanceHead fuel types ty = some head) ∧
      (∀ target arguments, head = some (target, arguments) → ∀ argument ∈ arguments, argument < ty) ∧
      headOf (types.tree ty) = head.map fun (target, arguments) => (target, arguments.map types.tree) := by
  obtain ⟨head, arguments, node, walks, atHead, smaller, isHead⟩ := applySpine_spec wellFounded allocated
  refine ⟨(typeConstructorName node).map fun name => (name, arguments), fun fuel enough => ?_, ?_, ?_⟩
  · simp only [instanceHead, walks fuel enough, List.append_nil, constructorName, atHead, Option.bind_eq_bind,
      Option.bind_some, Option.map_some]
  · intro target others same
    obtain ⟨name, -, equal⟩ := Option.map_eq_some_iff.mp same
    obtain ⟨-, rfl⟩ := Prod.mk.inj equal
    exact smaller
  · rw [isHead, Option.map_map]
    rfl

theorem instanceHead_allocated {fuel : ℕ} {ty : TypeId} {head : Option (String × List TypeId)}
    (found : instanceHead fuel types ty = some head) : ty < types.nodes.length := by
  cases fuel with
  | zero => cases found
  | succ fuel =>
    simp only [instanceHead, applySpine, Option.bind_eq_bind, Option.bind_eq_some_iff] at found
    obtain ⟨_, ⟨node, here, -⟩, -⟩ := found
    exact TypeArena.get_lt here

end Head

section Premises

/-- The resolution of a constraint and the types of its premises, if the manifest has an instance for it. -/
def premisesAt (manifest : List InstanceSpec) (types : TypeArena) (typeClass : TypeClass) (ty : TypeId) :
    Option (InstanceResolution × List TypeId) := do
  let (found, arguments) ← (resolve (ty + 1) manifest types typeClass ty).join
  if found.resolution.headArity = arguments.length then
    some (found.resolution, arguments.take found.resolution.premiseCount)
  else none

theorem resolve_mono {fuel fuel' : ℕ} (le : fuel ≤ fuel') {ty : TypeId} {out : Option (InstanceSpec × List TypeId)}
    (found : resolve fuel manifest types typeClass ty = some out) : resolve fuel' manifest types typeClass ty = some out := by
  simp only [resolve, Option.bind_eq_bind, Option.bind_eq_some_iff] at found ⊢
  obtain ⟨head, walked, rest⟩ := found
  exact ⟨head, instanceHead_mono le walked, rest⟩

theorem resolve_allocated {fuel : ℕ} {ty : TypeId} {out : Option (InstanceSpec × List TypeId)}
    (found : resolve fuel manifest types typeClass ty = some out) : ty < types.nodes.length := by
  simp only [resolve, Option.bind_eq_bind, Option.bind_eq_some_iff] at found
  obtain ⟨head, walked, -⟩ := found
  exact instanceHead_allocated walked

/-- Enough fuel finds the instance of an allocated type. -/
theorem resolve_total (wellFounded : types.WellFounded) {ty : TypeId} (allocated : ty < types.nodes.length) {fuel : ℕ}
    (enough : ty < fuel) :
    resolve fuel manifest types typeClass ty = some (resolve (ty + 1) manifest types typeClass ty).join := by
  obtain ⟨head, found, -, -⟩ := instanceHead_spec wellFounded allocated
  simp only [resolve, found fuel enough, found (ty + 1) (Nat.lt_succ_self ty), Option.bind_eq_bind, Option.bind_some,
    Option.join_some]

theorem resolve_eq (wellFounded : types.WellFounded) {fuel : ℕ} {ty : TypeId}
    {out : Option (InstanceSpec × List TypeId)} (found : resolve fuel manifest types typeClass ty = some out) :
    (resolve (ty + 1) manifest types typeClass ty).join = out := by
  have more := resolve_mono (Nat.le_max_left fuel (ty + 1)) found
  rw [resolve_total wellFounded (resolve_allocated found) (Nat.le_max_right fuel (ty + 1))] at more
  exact Option.some.inj more

/-- Premises are smaller identifiers. -/
theorem premisesAt_lt (wellFounded : types.WellFounded) {ty : TypeId} {resolution : InstanceResolution}
    {premises : List TypeId} (found : premisesAt manifest types typeClass ty = some (resolution, premises)) :
    ty < types.nodes.length ∧ ∀ premise ∈ premises, premise < ty := by
  simp only [premisesAt, Option.bind_eq_bind, Option.bind_eq_some_iff] at found
  obtain ⟨⟨spec, arguments⟩, resolved, found⟩ := found
  have known := Option.join_eq_some_iff.mp resolved
  have allocated := resolve_allocated known
  refine ⟨allocated, fun premise member => ?_⟩
  obtain ⟨head, walks, smaller, -⟩ := instanceHead_spec wellFounded allocated
  simp only [resolve, walks (ty + 1) (Nat.lt_succ_self ty), Option.bind_eq_bind, Option.bind_some, Option.some.injEq,
    Option.bind_eq_some_iff, Option.map_eq_some_iff, Prod.mk.injEq] at known
  obtain ⟨⟨target, arguments'⟩, rfl, spec', -, rfl, rfl⟩ := known
  split at found
  next =>
    obtain ⟨-, rfl⟩ := Prod.mk.inj (Option.some.inj found)
    exact smaller target _ rfl premise (List.mem_of_mem_take member)
  next => cases found

/-- A constraint is derivable when it has an instance whose premises are derivable. -/
theorem derives_iff (wellFounded : types.WellFounded) {ty : TypeId} (allocated : ty < types.nodes.length) :
    Derives manifest typeClass (types.tree ty) ↔ ∃ resolution premises,
      premisesAt manifest types typeClass ty = some (resolution, premises) ∧
        ∀ premise ∈ premises, Derives manifest typeClass (types.tree premise) := by
  obtain ⟨head, walks, -, isHead⟩ := instanceHead_spec wellFounded allocated
  have walked := walks (ty + 1) (Nat.lt_succ_self ty)
  constructor
  · rintro ⟨atHead, spec, arity, premises⟩
    rename_i target arguments found
    rw [isHead] at atHead
    obtain ⟨⟨target, arguments⟩, rfl, equal⟩ := Option.map_eq_some_iff.mp atHead
    obtain ⟨rfl, rfl⟩ := Prod.mk.inj equal
    rw [List.length_map] at arity
    refine ⟨found.resolution, arguments.take found.resolution.premiseCount, ?_, fun premise member => ?_⟩
    · simp [premisesAt, resolve, walked, spec, arity]
    · apply premises
      rw [← List.map_take]
      exact List.mem_map_of_mem member
  · rintro ⟨resolution, premises, found, derived⟩
    simp only [premisesAt, resolve, walked, Option.bind_eq_bind, Option.bind_some, Option.join_some,
      Option.bind_eq_some_iff, Option.map_eq_some_iff] at found
    obtain ⟨⟨spec, arguments⟩, ⟨⟨target, arguments'⟩, rfl, spec', here, equal⟩, found⟩ := found
    obtain ⟨rfl, rfl⟩ := Prod.mk.inj equal
    split at found
    next arity =>
      obtain ⟨rfl, rfl⟩ := Prod.mk.inj (Option.some.inj found)
      refine .row isHead here (by rw [List.length_map]; exact arity) fun premise member => ?_
      rw [← List.map_take] at member
      obtain ⟨child, isChild, rfl⟩ := List.mem_map.mp member
      exact derived child isChild
    next => cases found

end Premises

end HellRs.Instances
