import Mathlib
import HellRs.Lib.Unification
import HellRs.Types.Kinding
import HellRs.Types.Unifier

/-! # The bindings of a unifier

A unifier together with its arena is read as a partial map from metavariables to trees. `Valid` is
the invariant of every reachable state: nodes mention earlier nodes, every metavariable has one
node, and the bindings are allocated, keep kinds and are acyclic. `Compressed` is what pruning may
do to a unifier: nothing that a resolving substitution can see.
-/

namespace HellRs.Types

open Loop Term Unification

/-- Trees with metavariables replaced. -/
abbrev TypeSubst := Subst MetaId TypeLeaf TypeBinary

namespace Unifier

/-- The bindings as trees. -/
def bindings (unifier : Unifier) (arena : TypeArena) : Bindings MetaId TypeLeaf TypeBinary :=
  fun id => (unifier.binding id).join.map arena.tree

/-- An assignment of kinds to metavariables that agrees with the allocated ones. -/
def Agrees (unifier : Unifier) (κ : MetaId → KindId) : Prop :=
  ∀ id kind, unifier.metaKind id = some kind → κ id = kind

/-- The invariant of a unifier and its arena. -/
structure Valid (kinds : KindArena) (arena : TypeArena) (unifier : Unifier) : Prop where
  wellFounded : arena.WellFounded
  known : ∀ ty id, arena.get ty = some (.metavar id) → id < unifier.metas.length
  single : ∀ ty ty' id, arena.get ty = some (.metavar id) → arena.get ty' = some (.metavar id) →
    ty = ty'
  allocated : ∀ id ty, unifier.binding id = some (some ty) → ty < arena.nodes.length
  kinded : ∀ κ, unifier.Agrees κ → ∀ id ty, unifier.binding id = some (some ty) →
    kinds.kind κ (arena.tree ty) = some (κ id)
  acyclic : Acyclic (unifier.bindings arena)
  zonked : ∀ pair ∈ unifier.zonked, pair.2 < arena.nodes.length

/-- The second unifier differs from the first by path compression only. -/
structure Compressed (kinds : KindArena) (arena : TypeArena) (unifier compressed : Unifier) :
    Prop where
  valid : Valid kinds arena compressed
  metaKind : compressed.metaKind = unifier.metaKind
  unbound : ∀ id, compressed.binding id = some none ↔ unifier.binding id = some none
  resolves : ∀ σ, Resolves σ (unifier.bindings arena) → Resolves σ (compressed.bindings arena)

/-- The metavariables that have no binding yet. -/
def unboundMetas (unifier : Unifier) : Finset MetaId :=
  (Finset.range unifier.metas.length).filter fun id => unifier.binding id = some none

variable {kinds : KindArena} {arena : TypeArena} {unifier : Unifier} {κ : MetaId → KindId}

theorem metaKind_isSome {id : MetaId} : (unifier.metaKind id).isSome ↔ id < unifier.metas.length := by
  simp [metaKind]

theorem binding_isSome {id : MetaId} : (unifier.binding id).isSome ↔ id < unifier.metas.length := by
  simp [binding]

theorem lt_of_binding {id : MetaId} {bound : Option TypeId}
    (found : unifier.binding id = some bound) : id < unifier.metas.length :=
  binding_isSome.mp (by rw [found]; rfl)

theorem exists_binding {id : MetaId} (inside : id < unifier.metas.length) :
    ∃ bound, unifier.binding id = some bound :=
  Option.isSome_iff_exists.mp (binding_isSome.mpr inside)

theorem bindings_of_bound {id : MetaId} {ty : TypeId} (found : unifier.binding id = some (some ty)) :
    unifier.bindings arena id = some (arena.tree ty) := by
  simp [bindings, found]

theorem bindings_of_unbound {id : MetaId} (found : unifier.binding id = some none) :
    unifier.bindings arena id = none := by
  simp [bindings, found]

theorem exists_of_bindings {id : MetaId} {t : Tree} (found : unifier.bindings arena id = some t) :
    ∃ ty, unifier.binding id = some (some ty) ∧ t = arena.tree ty := by
  simp only [bindings, Option.map_eq_some_iff] at found
  obtain ⟨ty, joined, rfl⟩ := found
  exact ⟨ty, Option.join_eq_some_iff.mp joined, rfl⟩

@[simp] theorem setBinding_metaKind (id : MetaId) (ty : TypeId) :
    (unifier.setBinding id ty).metaKind = unifier.metaKind := by
  funext other
  simp only [metaKind, setBinding, List.getElem?_modify, Option.map_eq_map, Option.map_map]
  congr 1
  funext entry
  simp only [Function.comp_apply]
  split <;> rfl

theorem setBinding_binding (id : MetaId) (ty : TypeId) (other : MetaId) :
    (unifier.setBinding id ty).binding other =
      if id = other then (unifier.binding other).map fun _ => some ty else unifier.binding other := by
  simp only [binding, setBinding, List.getElem?_modify, Option.map_eq_map, Option.map_map]
  split
  next same => subst same; simp [Function.comp_def]
  next differ => simp [Function.comp_def]

@[simp] theorem setBinding_zonked (id : MetaId) (ty : TypeId) :
    (unifier.setBinding id ty).zonked = unifier.zonked := rfl

/-- Two unifiers that answer alike on kinds have the same number of metavariables. -/
theorem length_eq_of_metaKind {other : Unifier} (same : other.metaKind = unifier.metaKind) :
    other.metas.length = unifier.metas.length := by
  have iff : ∀ id, id < other.metas.length ↔ id < unifier.metas.length := fun id => by
    rw [← metaKind_isSome, same, metaKind_isSome]
  exact Nat.le_antisymm (Nat.le_of_not_lt fun less => Nat.lt_irrefl _ ((iff _).mp less))
    (Nat.le_of_not_lt fun less => Nat.lt_irrefl _ ((iff _).mpr less))

theorem Agrees.of_metaKind {other : Unifier} (same : other.metaKind = unifier.metaKind)
    (agrees : other.Agrees κ) : unifier.Agrees κ :=
  fun id kind found => agrees id kind (by rw [same]; exact found)

theorem Agrees.metaKind_eq (agrees : unifier.Agrees κ) {id : MetaId}
    (inside : id < unifier.metas.length) : unifier.metaKind id = some (κ id) := by
  obtain ⟨kind, found⟩ := Option.isSome_iff_exists.mp (metaKind_isSome.mpr inside)
  rw [found, agrees id kind found]

/-- Every unifier has an assignment of kinds that agrees with it. -/
theorem exists_agrees (unifier : Unifier) : ∃ κ, unifier.Agrees κ :=
  ⟨fun id => (unifier.metaKind id).getD KindArena.TYPE, fun id kind found => by simp [found]⟩

/-- A bound metavariable and its tree have the same kind, so a whole chain has one kind. -/
theorem Valid.kind_eq_of_follows (valid : Valid kinds arena unifier) (agrees : unifier.Agrees κ)
    {s t : Tree} (follows : Follows (unifier.bindings arena) s t) :
    kinds.kind κ s = kinds.kind κ t := by
  induction follows with
  | refl => rfl
  | tail _ step ih =>
    obtain ⟨id, rfl, found⟩ := step
    obtain ⟨ty, bound, rfl⟩ := exists_of_bindings found
    exact ih.trans (valid.kinded κ agrees id ty bound).symm

/-- `kind_of` under the kinds of the unifier itself computes kinds under every agreeing assignment. -/
theorem Valid.known_kind (valid : Valid kinds arena unifier) (agrees : unifier.Agrees κ) (ty : TypeId)
    (id : MetaId) (found : arena.get ty = some (.metavar id)) : unifier.metaKind id = some (κ id) :=
  agrees.metaKind_eq (valid.known ty id found)

theorem Compressed.refl (valid : Valid kinds arena unifier) :
    Compressed kinds arena unifier unifier :=
  ⟨valid, rfl, fun _ => Iff.rfl, fun _ => id⟩

theorem Compressed.trans {second third : Unifier} (left : Compressed kinds arena unifier second)
    (right : Compressed kinds arena second third) : Compressed kinds arena unifier third :=
  ⟨right.valid, right.metaKind.trans left.metaKind, fun id => (right.unbound id).trans (left.unbound id),
    fun σ resolves => right.resolves σ (left.resolves σ resolves)⟩

/-- Path compression changes no solution. -/
theorem Compressed.solves_iff {compressed : Unifier} (valid : Valid kinds arena unifier)
    (compress : Compressed kinds arena unifier compressed) {θ : TypeSubst} :
    Solves θ (compressed.bindings arena) ↔ Solves θ (unifier.bindings arena) := by
  obtain ⟨σ, resolves⟩ := valid.acyclic.exists_resolves
  rw [valid.acyclic.solves_iff resolves, compress.valid.acyclic.solves_iff (compress.resolves σ resolves)]

theorem Compressed.unboundMetas_eq {compressed : Unifier}
    (compress : Compressed kinds arena unifier compressed) :
    compressed.unboundMetas = unifier.unboundMetas := by
  ext id
  simp only [unboundMetas, Finset.mem_filter, Finset.mem_range, compress.unbound id,
    length_eq_of_metaKind compress.metaKind]

section Prune

/-- The type is the end of its chain. -/
def Pruned (arena : TypeArena) (unifier : Unifier) (ty : TypeId) : Prop :=
  ∀ id, arena.get ty = some (.metavar id) → unifier.binding id = some none

/-- What holds along the chain that `prune` follows from `ty`: the collected metavariables are
bound, and their bindings lead to the current type. -/
structure OnChain (arena : TypeArena) (unifier : Unifier) (ty : TypeId)
    (state : TypeId × List MetaId) : Prop where
  allocated : state.1 < arena.nodes.length
  follows : Follows (unifier.bindings arena) (arena.tree ty) (arena.tree state.1)
  path : ∀ id ∈ state.2, ∃ bound, unifier.binding id = some (some bound) ∧
    Follows (unifier.bindings arena) (arena.tree bound) (arena.tree state.1)

private theorem OnChain.next (valid : Valid kinds arena unifier) {ty current : TypeId}
    {path : List MetaId} (chain : OnChain arena unifier ty (current, path)) {id : MetaId}
    {bound : TypeId} (here : arena.get current = some (.metavar id))
    (found : unifier.binding id = some (some bound)) :
    OnChain arena unifier ty (bound, path ++ [id]) := by
  have last : Relation.ReflTransGen (fun s t => ∃ v, s = Term.var v ∧ unifier.bindings arena v = some t)
      (arena.tree current) (arena.tree bound) := by
    refine .single ⟨id, ?_, bindings_of_bound found⟩
    rw [valid.wellFounded.tree_eq here]; rfl
  refine ⟨valid.allocated id bound found, chain.follows.trans last, ?_⟩
  intro other member
  rcases List.mem_append.mp member with member | member
  · obtain ⟨first, isBound, follows⟩ := chain.path other member
    exact ⟨first, isBound, follows.trans last⟩
  · obtain rfl := List.mem_singleton.mp member
    exact ⟨bound, found, .refl⟩

private theorem foldl_setBinding_metaKind (path : List MetaId) (current : TypeId) :
    (path.foldl (fun unifier id => unifier.setBinding id current) unifier).metaKind =
      unifier.metaKind := by
  induction path generalizing unifier with
  | nil => rfl
  | cons id path ih => exact ih.trans (setBinding_metaKind id current)

theorem foldl_setBinding_zonked (path : List MetaId) (current : TypeId) :
    (path.foldl (fun unifier id => unifier.setBinding id current) unifier).zonked =
      unifier.zonked := by
  induction path generalizing unifier with
  | nil => rfl
  | cons id path ih => exact ih

private theorem foldl_setBinding_binding (unifier : Unifier) (path : List MetaId) (current : TypeId) (other : MetaId) :
    (path.foldl (fun unifier id => unifier.setBinding id current) unifier).binding other =
      if other ∈ path then (unifier.binding other).map fun _ => some current
      else unifier.binding other := by
  induction path generalizing unifier with
  | nil => simp
  | cons id path ih =>
    rw [List.foldl_cons, ih, setBinding_binding]
    by_cases same : id = other
    · subst same
      simp [Function.comp_def]
    · simp [same, Ne.symm same]

/-- Pointing every metavariable of a chain at its end is a compression. -/
private theorem OnChain.compressed (valid : Valid kinds arena unifier) {ty current : TypeId}
    {path : List MetaId} (chain : OnChain arena unifier ty (current, path)) :
    Compressed kinds arena unifier
      (path.foldl (fun unifier id => unifier.setBinding id current) unifier) := by
  set compressed := path.foldl (fun unifier id => unifier.setBinding id current) unifier
  have metaKind : compressed.metaKind = unifier.metaKind := foldl_setBinding_metaKind path current
  have binding := foldl_setBinding_binding unifier path current
  have compresses : Compresses (unifier.bindings arena) (compressed.bindings arena) := by
    intro id
    by_cases member : id ∈ path
    · obtain ⟨bound, found, follows⟩ := chain.path id member
      refine .inr ⟨_, _, bindings_of_bound found, follows, bindings_of_bound ?_⟩
      rw [binding, if_pos member, found]; rfl
    · exact .inl (by simp only [bindings]; rw [binding, if_neg member])
  refine ⟨⟨valid.wellFounded, ?_, valid.single, ?_, ?_, compresses.acyclic valid.acyclic, ?_⟩, metaKind,
    ?_, fun σ => compresses.resolves⟩
  · intro ty id found
    rw [length_eq_of_metaKind metaKind]
    exact valid.known ty id found
  · intro id bound found
    by_cases member : id ∈ path
    · obtain ⟨_, old, _⟩ := chain.path id member
      rw [binding, if_pos member, old] at found
      obtain rfl : current = bound := by simpa using found
      exact chain.allocated
    · rw [binding, if_neg member] at found
      exact valid.allocated id bound found
  · intro κ agrees id bound found
    have old : unifier.Agrees κ := agrees.of_metaKind metaKind
    by_cases member : id ∈ path
    · obtain ⟨first, isBound, follows⟩ := chain.path id member
      rw [binding, if_pos member, isBound] at found
      obtain rfl : current = bound := by simpa using found
      rw [← valid.kind_eq_of_follows old follows]
      exact valid.kinded κ old id first isBound
    · rw [binding, if_neg member] at found
      exact valid.kinded κ old id bound found
  · intro pair member
    exact valid.zonked pair (foldl_setBinding_zonked path current ▸ member)
  · intro id
    by_cases member : id ∈ path
    · obtain ⟨bound, found, _⟩ := chain.path id member
      rw [binding, if_pos member, found]
      simp
    · rw [binding, if_neg member]

/-- What `prune` returns: the end of the chain, and a compressed unifier. -/
structure Prunes (kinds : KindArena) (arena : TypeArena) (unifier : Unifier) (ty : TypeId)
    (result : TypeId × Unifier) : Prop where
  compressed : Compressed kinds arena unifier result.2
  allocated : result.1 < arena.nodes.length
  follows : Follows (unifier.bindings arena) (arena.tree ty) (arena.tree result.1)
  pruned : Pruned arena result.2 result.1

theorem prune_mono {fuel fuel' : ℕ} (le : fuel ≤ fuel') {ty : TypeId} {result : TypeId × Unifier}
    (returned : unifier.prune fuel arena ty = some result) :
    unifier.prune fuel' arena ty = some result := by
  simp only [prune, Option.bind_eq_bind, Option.bind_eq_some_iff] at returned ⊢
  obtain ⟨found, ran, rest⟩ := returned
  exact ⟨found, run_mono (fun _ _ same => same) le ran, rest⟩

theorem prune_spec (valid : Valid kinds arena unifier) {fuel : ℕ} {ty : TypeId}
    (allocated : ty < arena.nodes.length) {result : TypeId × Unifier}
    (returned : unifier.prune fuel arena ty = some result) :
    Prunes kinds arena unifier ty result := by
  simp only [prune, Option.bind_eq_bind, Option.bind_eq_some_iff] at returned
  obtain ⟨⟨current, path⟩, ran, rest⟩ := returned
  obtain rfl := Option.some.inj rest
  have reached : OnChain arena unifier ty (current, path) ∧ Pruned arena unifier current := by
    refine run_invariant (OnChain arena unifier ty)
      (fun state => OnChain arena unifier ty state ∧ Pruned arena unifier state.1) ?_ ?_
      (show OnChain arena unifier ty (ty, []) from ⟨allocated, .refl, by simp⟩) ran
    · rintro ⟨current, path⟩ next chain again
      obtain ⟨node, here⟩ := TypeArena.exists_get chain.allocated
      cases node with
      | metavar id =>
        obtain ⟨bound, found⟩ := exists_binding (valid.known _ _ here)
        cases bound with
        | none => simp [pruneTurn, here, found] at again
        | some bound =>
          obtain rfl : (bound, path ++ [id]) = next := by simpa [pruneTurn, here, found] using again
          exact chain.next valid here found
      | _ => simp [pruneTurn, here] at again
    · rintro ⟨current, path⟩ value chain leave
      obtain ⟨node, here⟩ := TypeArena.exists_get chain.allocated
      cases node with
      | metavar id =>
        obtain ⟨bound, found⟩ := exists_binding (valid.known _ _ here)
        cases bound with
        | none =>
          obtain rfl : (current, path) = value := by simpa [pruneTurn, here, found] using leave
          refine ⟨chain, fun other same => ?_⟩
          obtain rfl : id = other := by simpa [here] using same
          exact found
        | some bound => simp [pruneTurn, here, found] at leave
      | _ =>
        obtain rfl : (current, path) = value := by simpa [pruneTurn, here] using leave
        exact ⟨chain, fun other same => by simp [here] at same⟩
  obtain ⟨chain, pruned⟩ := reached
  have compressed := chain.compressed valid
  exact ⟨compressed, chain.allocated, chain.follows, fun id here => (compressed.unbound id).mpr (pruned id here)⟩

/-- `prune` terminates: the rank of the bindings decreases along a chain. -/
theorem prune_total (valid : Valid kinds arena unifier) {ty : TypeId}
    (allocated : ty < arena.nodes.length) : ∃ fuel result, unifier.prune fuel arena ty = some result := by
  obtain ⟨rank, ranked⟩ := valid.acyclic
  obtain ⟨⟨current, path⟩, ⟨fuel, ran⟩, _⟩ := returns_total (pruneTurn arena unifier)
    (fun state => state.1 < arena.nodes.length) (fun _ => True)
    (fun state => (arena.tree state.1).bound rank)
    (fun ⟨current, path⟩ inside => by
      obtain ⟨node, here⟩ := TypeArena.exists_get inside
      cases node with
      | metavar id =>
        obtain ⟨bound, found⟩ := exists_binding (valid.known _ _ here)
        cases bound with
        | none => exact .inr ⟨_, by simp [pruneTurn, here, found]; rfl, trivial⟩
        | some bound =>
          refine .inl ⟨_, by simp [pruneTurn, here, found]; rfl, valid.allocated id bound found, ?_⟩
          have lower := ranked id _ (bindings_of_bound found)
          rw [valid.wellFounded.tree_eq here]
          exact Nat.lt_succ_of_le (bound_le lower)
      | _ => exact .inr ⟨_, by simp [pruneTurn, here]; rfl, trivial⟩)
    (ty, []) allocated
  exact ⟨fuel, _, by simp only [prune, ran]; rfl⟩

end Prune

end Unifier

end HellRs.Types
