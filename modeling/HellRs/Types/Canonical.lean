import HellRs.Types.Session

/-! # Closed types

A closed type has no metavariable and no bound variable. Nodes other than metavariables are stored once, so a closed
type has one identifier.
-/

namespace HellRs.Types

open Loop Term Unification

/-- No metavariable is left, and no bound variable. -/
def Closed : Tree → Prop
  | .var _ => False
  | .leaf (.bound _) => False
  | .leaf _ => True
  | .node _ left right => Closed left ∧ Closed right

/-- A closed tree determines the node, if the trees of the children determine them. -/
theorem TypeNode.eq_of_tree {node node' : TypeNode} {denote : TypeId → Tree} (closed : Closed (node.tree denote))
    (same : node.tree denote = node'.tree denote)
    (children : ∀ child ∈ node.children, ∀ child' ∈ node'.children, Closed (denote child) →
      denote child = denote child' → child = child') : node = node' := by
  cases node <;> cases node' <;> simp_all [TypeNode.tree, TypeNode.children, Closed]

namespace TypeArena

/-- No node other than a metavariable is stored twice. -/
def Shared (arena : TypeArena) : Prop :=
  ∀ ty ty' node, node.isMeta = false → arena.get ty = some node → arena.get ty' = some node → ty = ty'

theorem not_mem_of_interned {arena : TypeArena} {node : TypeNode} (plain : node.isMeta = false)
    (unknown : arena.interned node = none) : node ∉ arena.nodes := by
  rw [TypeArena.interned, if_neg (by simp [plain])] at unknown
  exact List.idxOf?_eq_none_iff.mp unknown

theorem Shared.intern {arena arena' : TypeArena} {node : TypeNode} {ty : TypeId} (shared : arena.Shared)
    (interned : arena.intern node = some (ty, arena')) : arena'.Shared := by
  cases known : arena.interned node with
  | some id =>
    simp only [TypeArena.intern, known] at interned
    obtain ⟨rfl, rfl⟩ := Prod.mk.inj (Option.some.inj interned)
    exact shared
  | none =>
    intro first second found plain here here'
    have unknown {place : TypeId} (old : arena.get place = some found) : found ≠ node := by
      rintro rfl
      exact not_mem_of_interned plain known (List.mem_of_getElem? old)
    rcases Unifier.get_intern interned here with old | ⟨rfl, isNode⟩
    · rcases Unifier.get_intern interned here' with old' | ⟨rfl, isNode⟩
      · exact shared first second found plain old old'
      · exact absurd isNode (unknown old)
    · rcases Unifier.get_intern interned here' with old' | ⟨rfl, -⟩
      · exact absurd isNode (unknown old')
      · rfl

/-- A closed tree has one identifier. -/
theorem Shared.injective {arena : TypeArena} (shared : arena.Shared) (wellFounded : arena.WellFounded)
    {ty ty' : TypeId} (allocated : ty < arena.nodes.length) (allocated' : ty' < arena.nodes.length)
    (closed : Closed (arena.tree ty)) (same : arena.tree ty = arena.tree ty') : ty = ty' := by
  induction ty using Nat.strongRecOn generalizing ty' with
  | ind ty ih =>
    obtain ⟨node, here⟩ := exists_get allocated
    obtain ⟨node', here'⟩ := exists_get allocated'
    rw [wellFounded.tree_eq here] at closed same
    rw [wellFounded.tree_eq here'] at same
    obtain rfl : node = node' := TypeNode.eq_of_tree closed same fun child member child' member' =>
      ih child (wellFounded ty node here child member)
        ((wellFounded ty node here child member).trans allocated)
        ((wellFounded ty' node' here' child' member').trans allocated')
    refine shared ty ty' node ?_ here here'
    cases node <;> first | rfl | exact closed.elim

end TypeArena

namespace Unifier

variable {kinds : KindArena} {arena arena' : TypeArena} {unifier unifier' : Unifier} {σ : TypeSubst}

/-- Each entry of the memo is the closed type that its key resolves to. -/
def Remembers (arena : TypeArena) (unifier : Unifier) (σ : TypeSubst) : Prop :=
  ∀ pair ∈ unifier.zonked, pair.1 < arena.nodes.length ∧ resolved arena σ pair.1 = arena.tree pair.2 ∧
    Closed (arena.tree pair.2)

/-- The invariant of closed types. -/
structure Canonical (kinds : KindArena) (arena : TypeArena) (unifier : Unifier) : Prop where
  valid : Valid kinds arena unifier
  shared : arena.Shared
  remembers : ∀ σ, Resolves σ (unifier.bindings arena) → unifier.Remembers arena σ

theorem resolved_extends (prefixed : arena.Extends arena') {ty : TypeId} (allocated : ty < arena.nodes.length) :
    resolved arena' σ ty = resolved arena σ ty := by rw [resolved, resolved, prefixed.tree_eq allocated]

theorem Remembers.extends (remembers : unifier.Remembers arena σ) (valid : Valid kinds arena unifier)
    (prefixed : arena.Extends arena') : unifier.Remembers arena' σ := by
  intro pair member
  obtain ⟨key, same, closed⟩ := remembers pair member
  rw [resolved_extends prefixed key, prefixed.tree_eq (valid.zonked pair member)]
  exact ⟨Nat.lt_of_lt_of_le key prefixed.length_le, same, closed⟩

theorem Valid.bindings_extends (valid : Valid kinds arena unifier) (prefixed : arena.Extends arena') :
    unifier.bindings arena' = unifier.bindings arena := by
  funext id
  simp only [bindings]
  cases bound : unifier.binding id with
  | none => rfl
  | some bound' =>
    cases bound' with
    | none => rfl
    | some ty => simp [prefixed.tree_eq (valid.allocated id ty bound)]

section Unify

theorem prune_zonked {fuel : ℕ} {ty : TypeId} {result : TypeId × Unifier}
    (returned : unifier.prune fuel arena ty = some result) : result.2.zonked = unifier.zonked := by
  simp only [prune, Option.bind_eq_bind, Option.bind_eq_some_iff] at returned
  obtain ⟨⟨current, path⟩, -, returned⟩ := returned
  obtain rfl := Option.some.inj returned
  exact foldl_setBinding_zonked path current

theorem occurs_zonked {fuel : ℕ} {needle : MetaId} {ty : TypeId} {result : Bool × Unifier}
    (returned : unifier.occurs fuel arena needle ty = some result) : result.2.zonked = unifier.zonked := by
  refine run_invariant (fun state => state.1.zonked = unifier.zonked)
    (fun result => result.2.zonked = unifier.zonked) ?_ ?_ rfl returned
  · rintro ⟨before, _ | ⟨head, work⟩, visited⟩ next same again
    · cases again
    · simp only [occursTurn, Option.bind_eq_bind, Option.bind_eq_some_iff] at again
      obtain ⟨pruned, returned, again⟩ := again
      have kept := (prune_zonked returned).trans same
      split at again
      · obtain rfl := Turn.again.inj (Option.some.inj again)
        exact kept
      · obtain ⟨node, -, again⟩ := Option.bind_eq_some_iff.mp again
        cases node with
        | metavar id =>
          simp only at again
          split at again
          · cases again
          · obtain rfl := Turn.again.inj (Option.some.inj again)
            exact kept
        | _ =>
          obtain rfl := Turn.again.inj (Option.some.inj again)
          exact kept
  · rintro ⟨before, _ | ⟨head, work⟩, visited⟩ value same leave
    · obtain rfl := Turn.leave.inj (Option.some.inj leave)
      exact same
    · simp only [occursTurn, Option.bind_eq_bind, Option.bind_eq_some_iff] at leave
      obtain ⟨pruned, returned, leave⟩ := leave
      have kept := (prune_zonked returned).trans same
      split at leave
      · cases leave
      · obtain ⟨node, -, leave⟩ := Option.bind_eq_some_iff.mp leave
        cases node with
        | metavar id =>
          simp only at leave
          split at leave
          · obtain rfl := Turn.leave.inj (Option.some.inj leave)
            exact kept
          · cases leave
        | _ => cases leave

/-- The memo is empty, or it is the old one and so is the substitution. -/
def Forgets (arena : TypeArena) (before after : Unifier) : Prop :=
  after.zonked = [] ∨ after.zonked = before.zonked ∧
    ∀ σ, Resolves σ (before.bindings arena) → Resolves σ (after.bindings arena)

theorem Forgets.refl (arena : TypeArena) (unifier : Unifier) : Forgets arena unifier unifier :=
  .inr ⟨rfl, fun _ => id⟩

theorem Forgets.trans {first second third : Unifier} (left : Forgets arena first second)
    (right : Forgets arena second third) : Forgets arena first third := by
  rcases right with empty | ⟨same, resolves⟩
  · exact .inl empty
  · rcases left with empty | ⟨same', resolves'⟩
    · exact .inl (same.trans empty)
    · exact .inr ⟨same.trans same', fun σ holds => resolves σ (resolves' σ holds)⟩

theorem Compressed.forgets (compressed : Compressed kinds arena unifier unifier')
    (same : unifier'.zonked = unifier.zonked) : Forgets arena unifier unifier' :=
  .inr ⟨same, compressed.resolves⟩

theorem Forgets.remembers (forgets : Forgets arena unifier unifier') (valid : Valid kinds arena unifier)
    (validAfter : Valid kinds arena unifier')
    (remembers : ∀ σ, Resolves σ (unifier.bindings arena) → unifier.Remembers arena σ) (σ : TypeSubst)
    (resolves : Resolves σ (unifier'.bindings arena)) : unifier'.Remembers arena σ := by
  rcases forgets with empty | ⟨same, keeps⟩
  · intro pair member
    rw [empty] at member
    cases member
  · obtain ⟨τ, before⟩ := valid.acyclic.exists_resolves
    obtain rfl := validAfter.acyclic.resolves_unique (keeps τ before) resolves
    intro pair member
    exact remembers τ before pair (same ▸ member)

theorem prune_forgets (valid : Valid kinds arena unifier) {fuel : ℕ} {ty : TypeId}
    (allocated : ty < arena.nodes.length) {result : TypeId × Unifier}
    (returned : unifier.prune fuel arena ty = some result) : Forgets arena unifier result.2 :=
  (prune_spec valid allocated returned).compressed.forgets (prune_zonked returned)

/-- A refused binding changes nothing, and a new binding clears the memo. -/
theorem bind_forgets (valid : Valid kinds arena unifier) {fuel : ℕ} {id : MetaId} {ty : TypeId}
    (allocated : ty < arena.nodes.length) {outcome : Except TypeError Unit}
    (returned : unifier.bind fuel arena kinds id ty = some (outcome, unifier')) :
    Forgets arena unifier unifier' := by
  obtain ⟨σ, resolves⟩ := valid.acyclic.exists_resolves
  simp only [bind, Option.bind_eq_bind, Option.bind_eq_some_iff] at returned
  obtain ⟨⟨found, searched⟩, search, returned⟩ := returned
  have kept : Forgets arena unifier searched :=
    (occurs_spec valid resolves allocated search).1.forgets (occurs_zonked search)
  split at returned
  · obtain ⟨-, rfl⟩ := Prod.mk.inj (Option.some.inj returned)
    exact kept
  · simp only [Option.bind_eq_some_iff] at returned
    obtain ⟨expected, -, result, -, returned⟩ := returned
    cases result with
    | error failure =>
      obtain ⟨-, rfl⟩ := Prod.mk.inj (Option.some.inj returned)
      exact kept
    | ok actual =>
      simp only at returned
      split at returned
      · obtain ⟨-, rfl⟩ := Prod.mk.inj (Option.some.inj returned)
        exact kept
      · obtain ⟨-, rfl⟩ := Prod.mk.inj (Option.some.inj returned)
        exact .inl rfl

/-- What one turn of `unify` does to the memo. -/
def ForgetsEffect (arena : TypeArena) (unifier : Unifier) :
    Turn (Unifier × List (TypeId × TypeId)) (Except TypeError Unit × Unifier) → Prop
  | .again (after, _) => Forgets arena unifier after
  | .leave (_, after) => Forgets arena unifier after

theorem unifyTurn_forgets {origin : Unifier} {pairs : List (TypeId × TypeId)} {fuel : ℕ}
    {state : Unifier × List (TypeId × TypeId)} (unifying : Unifying kinds arena origin pairs state)
    {effect : Turn (Unifier × List (TypeId × TypeId)) (Except TypeError Unit × Unifier)}
    (turned : unifyTurn fuel arena kinds state = some effect) : ForgetsEffect arena state.1 effect := by
  obtain ⟨before, _ | ⟨⟨left, right⟩, work⟩⟩ := state
  · obtain rfl := Option.some.inj turned
    exact .refl arena before
  · simp only [unifyTurn, Option.bind_eq_bind, Option.bind_eq_some_iff] at turned
    obtain ⟨⟨left', middle⟩, pruneLeft, ⟨right', after⟩, pruneRight, turned⟩ := turned
    obtain ⟨leftAllocated, rightAllocated⟩ := unifying.allocated _ (List.mem_cons_self ..)
    have first := prune_spec unifying.valid leftAllocated pruneLeft
    have second := prune_spec first.compressed.valid rightAllocated pruneRight
    have kept : Forgets arena before after := (prune_forgets unifying.valid leftAllocated pruneLeft).trans
      (prune_forgets first.compressed.valid rightAllocated pruneRight)
    simp only at turned
    split at turned
    · obtain rfl := Option.some.inj turned
      exact kept
    · simp only [Option.bind_eq_some_iff] at turned
      obtain ⟨leftNode, leftHere, rightNode, rightHere, turned⟩ := turned
      have meaning := pairStep_meaning left' right' leftNode rightNode arena.tree
      split at turned
      next id ty step =>
        obtain ⟨⟨outcome, bound⟩, returned, turned⟩ := Option.bind_eq_some_iff.mp turned
        rw [step] at meaning
        have allocated : ty < arena.nodes.length := by
          rcases meaning with ⟨-, rfl⟩ | ⟨-, rfl⟩
          · exact second.allocated
          · exact first.allocated
        have forgets := kept.trans (bind_forgets second.compressed.valid allocated returned)
        cases outcome with
        | error failure => obtain rfl := Option.some.inj turned; exact forgets
        | ok _ => obtain rfl := Option.some.inj turned; exact forgets
      all_goals
        obtain rfl := Option.some.inj turned
        exact kept

theorem unify_forgets (valid : Valid kinds arena unifier) {left right : TypeId}
    (left_lt : left < arena.nodes.length) (right_lt : right < arena.nodes.length) {fuel : ℕ}
    {outcome : Except TypeError Unit}
    (returned : unifier.unify fuel arena kinds left right = some (outcome, unifier')) :
    Forgets arena unifier unifier' := by
  refine run_invariant
    (fun state => Unifying kinds arena unifier [(left, right)] state ∧ Forgets arena unifier state.1)
    (fun result => Forgets arena unifier result.2) ?_ ?_
    ⟨unifying_root valid left_lt right_lt, .refl arena unifier⟩ returned
  · intro state next ⟨unifying, forgets⟩ again
    exact ⟨(unifyTurn_effect unifying again).1, forgets.trans (unifyTurn_forgets unifying again)⟩
  · intro state value ⟨unifying, forgets⟩ leave
    exact forgets.trans (unifyTurn_forgets unifying leave)

end Unify

end Unifier

end HellRs.Types
