import Mathlib
import HellRs.Types.Bindings

/-! # The occurs check and one binding

`occurs` walks the resolved tree of a type through all bound metavariables and skips identifiers it
has visited. Skipping loses nothing: whatever occurs in a visited type occurs in a strictly smaller
type that is still on the work list. A metavariable is then bound exactly when the binding is
acyclic and keeps kinds, and a refused binding has no solution that keeps kinds.
-/

namespace HellRs.Types.Unifier

open Loop Term Unification

variable {kinds : KindArena} {arena : TypeArena} {unifier : Unifier} {σ : TypeSubst}

/-- The tree of a type with all bindings followed. -/
def resolved (arena : TypeArena) (σ : TypeSubst) (ty : TypeId) : Tree := (arena.tree ty).bind σ

/-- The metavariable occurs in a smaller type of the work list. -/
def OccursBelow (arena : TypeArena) (σ : TypeSubst) (needle : MetaId) (work : List TypeId)
    (limit : ℕ) : Prop :=
  ∃ ty ∈ work, (resolved arena σ ty).Occurs needle ∧ (resolved arena σ ty).size < limit

/-- The invariant of the work list of `occurs`, started from `root`. -/
structure Searching (kinds : KindArena) (arena : TypeArena) (unifier : Unifier) (σ : TypeSubst)
    (needle : MetaId) (root : TypeId) (state : Unifier × List TypeId × List TypeId) : Prop where
  compressed : Compressed kinds arena unifier state.1
  allocated : ∀ ty ∈ state.2.1, ty < arena.nodes.length
  within : ∀ ty ∈ state.2.1, (resolved arena σ ty).Occurs needle → (resolved arena σ root).Occurs needle
  pending : (resolved arena σ root).Occurs needle →
    OccursBelow arena σ needle state.2.1 ((resolved arena σ root).size + 1)
  visited : ∀ ty ∈ state.2.2, (resolved arena σ ty).Occurs needle →
    OccursBelow arena σ needle state.2.1 (resolved arena σ ty).size

/-- Number of symbols of the resolved work list. -/
def occursWeight (arena : TypeArena) (σ : TypeSubst) (work : List TypeId) : ℕ :=
  (work.map fun ty => (resolved arena σ ty).size).sum

/-- What one turn of `occurs` means. -/
def OccursEffect (kinds : KindArena) (arena : TypeArena) (unifier : Unifier) (σ : TypeSubst)
    (needle : MetaId) (root : TypeId) (state : Unifier × List TypeId × List TypeId) :
    Turn (Unifier × List TypeId × List TypeId) (Bool × Unifier) → Prop
  | .again next => Searching kinds arena unifier σ needle root next ∧
      occursWeight arena σ next.2.1 < occursWeight arena σ state.2.1
  | .leave (found, after) => Compressed kinds arena unifier after ∧
      (found = true ↔ (resolved arena σ root).Occurs needle)

theorem resolved_of_follows (resolves : Resolves σ (unifier.bindings arena)) {ty ty' : TypeId}
    (follows : Follows (unifier.bindings arena) (arena.tree ty) (arena.tree ty')) :
    resolved arena σ ty = resolved arena σ ty' :=
  resolves.solves.bind_eq_of_follows follows

/-- A pruned metavariable resolves to itself. -/
theorem resolved_metavar (valid : Valid kinds arena unifier)
    (resolves : Resolves σ (unifier.bindings arena)) {ty : TypeId} (pruned : Pruned arena unifier ty)
    {id : MetaId} (found : arena.get ty = some (.metavar id)) : resolved arena σ ty = .var id := by
  rw [resolved, valid.wellFounded.tree_eq found]
  exact resolves.free id (bindings_of_unbound (pruned id found))

/-- A smaller occurrence for the popped type is one for everything the popped type covered. -/
private theorem OccursBelow.pop {needle : MetaId} {ty : TypeId} {work next : List TypeId} {limit : ℕ}
    (kept : ∀ other ∈ work, other ∈ next)
    (covered : (resolved arena σ ty).Occurs needle →
      OccursBelow arena σ needle next (resolved arena σ ty).size)
    (below : OccursBelow arena σ needle (ty :: work) limit) :
    OccursBelow arena σ needle next limit := by
  obtain ⟨other, member, occurs, small⟩ := below
  rcases List.mem_cons.mp member with rfl | member
  · obtain ⟨smaller, isNext, inner, less⟩ := covered occurs
    exact ⟨smaller, isNext, inner, by omega⟩
  · exact ⟨other, kept other member, occurs, small⟩

/-- The popped type is replaced by types that contain all its occurrences and are smaller. -/
private theorem Searching.step {needle : MetaId} {root ty ty' : TypeId} {work next : List TypeId}
    {visited visited' : List TypeId} {before after : Unifier}
    (searching : Searching kinds arena unifier σ needle root (before, ty :: work, visited))
    (compressed : Compressed kinds arena unifier after)
    (same : resolved arena σ ty = resolved arena σ ty')
    (kept : ∀ other ∈ work, other ∈ next)
    (added : ∀ other ∈ next, other ∈ work ∨
      other < arena.nodes.length ∧
        ((resolved arena σ other).Occurs needle → (resolved arena σ ty').Occurs needle))
    (covered : (resolved arena σ ty').Occurs needle →
      OccursBelow arena σ needle next (resolved arena σ ty').size)
    (marked : ∀ other ∈ visited', other = ty' ∨ other ∈ visited) :
    Searching kinds arena unifier σ needle root (after, next, visited') := by
  have covers : (resolved arena σ ty).Occurs needle →
      OccursBelow arena σ needle next (resolved arena σ ty).size := by rw [same]; exact covered
  refine ⟨compressed, ?_, ?_, fun occurs => (searching.pending occurs).pop kept covers, ?_⟩
  · intro other member
    rcases added other member with old | ⟨inside, _⟩
    · exact searching.allocated other (List.mem_cons_of_mem _ old)
    · exact inside
  · intro other member occurs
    rcases added other member with old | ⟨_, inner⟩
    · exact searching.within other (List.mem_cons_of_mem _ old) occurs
    · exact searching.within ty (List.mem_cons_self ..) (same ▸ inner occurs)
  · intro other member occurs
    rcases marked other member with rfl | old
    · exact covered occurs
    · exact (searching.visited other old occurs).pop kept covers

/-- A type already visited is covered by the rest of the work list. -/
private theorem Searching.skip {needle : MetaId} {root ty ty' : TypeId} {work visited : List TypeId}
    {before after : Unifier}
    (searching : Searching kinds arena unifier σ needle root (before, ty :: work, visited))
    (compressed : Compressed kinds arena unifier after)
    (same : resolved arena σ ty = resolved arena σ ty') (member : ty' ∈ visited) :
    Searching kinds arena unifier σ needle root (after, work, visited) := by
  refine searching.step compressed same (fun _ => id) (fun _ => .inl) ?_ (fun _ => .inr)
  intro occurs
  obtain ⟨other, isWork, inner, less⟩ := searching.visited ty' member occurs
  rcases List.mem_cons.mp isWork with rfl | isWork
  · rw [same] at less; omega
  · exact ⟨other, isWork, inner, less⟩

/-- A node that contains no needle of its own is done. -/
private theorem Searching.drop {needle : MetaId} {root ty ty' : TypeId} {work visited : List TypeId}
    {before after : Unifier}
    (searching : Searching kinds arena unifier σ needle root (before, ty :: work, visited))
    (compressed : Compressed kinds arena unifier after)
    (same : resolved arena σ ty = resolved arena σ ty')
    (absent : ¬ (resolved arena σ ty').Occurs needle) :
    Searching kinds arena unifier σ needle root (after, work, ty' :: visited) :=
  searching.step compressed same (fun _ => id) (fun _ => .inl) (fun occurs => absurd occurs absent)
    (fun _ => List.mem_cons.mp)

/-- A binary node is replaced by its children. -/
private theorem Searching.split {needle : MetaId} {root ty ty' left right : TypeId}
    {work visited : List TypeId} {before after : Unifier} {symbol : TypeBinary}
    (searching : Searching kinds arena unifier σ needle root (before, ty :: work, visited))
    (compressed : Compressed kinds arena unifier after)
    (same : resolved arena σ ty = resolved arena σ ty')
    (shape : resolved arena σ ty' = .node symbol (resolved arena σ left) (resolved arena σ right))
    (insideLeft : left < arena.nodes.length) (insideRight : right < arena.nodes.length) :
    OccursEffect kinds arena unifier σ needle root (before, ty :: work, visited)
      (.again (after, left :: right :: work, ty' :: visited)) := by
  have sizes : (resolved arena σ ty').size =
      (resolved arena σ left).size + (resolved arena σ right).size + 1 := by rw [shape, Term.size]
  constructor
  · refine searching.step compressed same (by simp +contextual) ?_ ?_ (fun _ => List.mem_cons.mp)
    · intro other member
      rw [shape]
      rcases List.mem_cons.mp member with rfl | member
      · exact .inr ⟨insideLeft, .inl⟩
      · rcases List.mem_cons.mp member with rfl | member
        · exact .inr ⟨insideRight, .inr⟩
        · exact .inl member
    · intro occurs
      rw [shape] at occurs
      rcases occurs with occurs | occurs
      · exact ⟨left, by simp, occurs, by omega⟩
      · exact ⟨right, by simp, occurs, by omega⟩
  · simp only [occursWeight, List.map_cons, List.sum_cons]
    rw [same]
    omega

/-- The step lemma of `occurs`. -/
private theorem occursTurn_effect (valid : Valid kinds arena unifier)
    (resolves : Resolves σ (unifier.bindings arena)) {needle : MetaId} {root : TypeId} {fuel : ℕ}
    {state : Unifier × List TypeId × List TypeId}
    (searching : Searching kinds arena unifier σ needle root state)
    {effect : Turn (Unifier × List TypeId × List TypeId) (Bool × Unifier)}
    (turned : occursTurn fuel arena needle state = some effect) :
    OccursEffect kinds arena unifier σ needle root state effect := by
  obtain ⟨before, work, visited⟩ := state
  cases work with
  | nil =>
    obtain rfl := Option.some.inj turned
    refine ⟨searching.compressed, Bool.false_ne_true.elim, fun occurs => ?_⟩
    obtain ⟨_, member, _⟩ := searching.pending occurs
    cases member
  | cons ty work =>
    simp only [occursTurn, Option.bind_eq_bind, Option.bind_eq_some_iff] at turned
    obtain ⟨⟨ty', after⟩, returned, turned⟩ := turned
    have prunes := prune_spec searching.compressed.valid
      (searching.allocated ty (List.mem_cons_self ..)) returned
    have compressed := searching.compressed.trans prunes.compressed
    have same := resolved_of_follows (searching.compressed.resolves σ resolves) prunes.follows
    have lighter : ∀ marked, Searching kinds arena unifier σ needle root (after, work, marked) →
        OccursEffect kinds arena unifier σ needle root (before, ty :: work, visited)
          (.again (after, work, marked)) := fun marked holds =>
      ⟨holds, by simp only [occursWeight, List.map_cons, List.sum_cons]; have := size_pos (resolved arena σ ty); omega⟩
    split at turned
    next member =>
      obtain rfl := Option.some.inj turned
      exact lighter _ (searching.skip compressed same member)
    next =>
      simp only [Option.bind_eq_some_iff] at turned
      obtain ⟨node, here, turned⟩ := turned
      have shape := valid.wellFounded.tree_eq here
      have inside : ∀ child ∈ node.children, child < arena.nodes.length := fun child member =>
        Nat.lt_trans (valid.wellFounded ty' node here child member) prunes.allocated
      cases node with
      | metavar id =>
        have single := resolved_metavar compressed.valid (compressed.resolves σ resolves)
          prunes.pruned here
        simp only at turned
        split at turned
        next equal =>
          obtain rfl := Option.some.inj turned
          refine ⟨compressed, fun _ => ?_, fun _ => rfl⟩
          apply searching.within ty (List.mem_cons_self ..)
          rw [same, single]
          exact equal
        next differ =>
          obtain rfl := Option.some.inj turned
          exact lighter _ (searching.drop compressed same (by rw [single]; exact differ))
      | apply left right =>
        obtain rfl := Option.some.inj turned
        exact searching.split compressed same (by simp only [resolved, shape]; rfl)
          (inside left (by simp [TypeNode.children])) (inside right (by simp [TypeNode.children]))
      | function left right =>
        obtain rfl := Option.some.inj turned
        exact searching.split compressed same (by simp only [resolved, shape]; rfl)
          (inside left (by simp [TypeNode.children])) (inside right (by simp [TypeNode.children]))
      | rowCons label field tail =>
        obtain rfl := Option.some.inj turned
        exact searching.split compressed same (by simp only [resolved, shape]; rfl)
          (inside field (by simp [TypeNode.children])) (inside tail (by simp [TypeNode.children]))
      | _ =>
        obtain rfl := Option.some.inj turned
        exact lighter _ (searching.drop compressed same (by simp [resolved, shape, TypeNode.tree]))

private theorem searching_root (valid : Valid kinds arena unifier) {needle : MetaId} {root : TypeId}
    (allocated : root < arena.nodes.length) :
    Searching kinds arena unifier σ needle root (unifier, [root], []) :=
  ⟨.refl valid, by simpa using allocated, by simp, fun occurs => ⟨root, by simp, occurs, by omega⟩,
    by simp⟩

private theorem occursTurn_mono {fuel fuel' : ℕ} (le : fuel ≤ fuel') {needle : MetaId}
    (state : Unifier × List TypeId × List TypeId)
    (effect : Turn (Unifier × List TypeId × List TypeId) (Bool × Unifier))
    (turned : occursTurn fuel arena needle state = some effect) :
    occursTurn fuel' arena needle state = some effect := by
  obtain ⟨before, work, visited⟩ := state
  cases work with
  | nil => exact turned
  | cons ty work =>
    simp only [occursTurn, Option.bind_eq_bind, Option.bind_eq_some_iff] at turned ⊢
    obtain ⟨pruned, returned, turned⟩ := turned
    exact ⟨pruned, prune_mono le returned, turned⟩

theorem occurs_mono {fuel fuel' : ℕ} (le : fuel ≤ fuel') {needle : MetaId} {ty : TypeId}
    {result : Bool × Unifier} (returned : unifier.occurs fuel arena needle ty = some result) :
    unifier.occurs fuel' arena needle ty = some result :=
  run_mono (occursTurn_mono le) le returned

/-- `occurs` decides whether the metavariable occurs in the resolved type. -/
theorem occurs_spec (valid : Valid kinds arena unifier)
    (resolves : Resolves σ (unifier.bindings arena)) {needle : MetaId} {ty : TypeId}
    (allocated : ty < arena.nodes.length) {fuel : ℕ} {found : Bool} {after : Unifier}
    (returned : unifier.occurs fuel arena needle ty = some (found, after)) :
    Compressed kinds arena unifier after ∧
      (found = true ↔ (resolved arena σ ty).Occurs needle) :=
  run_invariant (Searching kinds arena unifier σ needle ty)
    (fun result => Compressed kinds arena unifier result.2 ∧
      (result.1 = true ↔ (resolved arena σ ty).Occurs needle))
    (fun _ _ searching again => (occursTurn_effect valid resolves searching again).1)
    (fun _ (_, _) searching leave => occursTurn_effect valid resolves searching leave)
    (searching_root valid allocated) returned

/-- `occurs` terminates: every turn takes a symbol off the resolved work list. -/
theorem occurs_total (valid : Valid kinds arena unifier) (needle : MetaId) {ty : TypeId}
    (allocated : ty < arena.nodes.length) :
    ∃ fuel result, unifier.occurs fuel arena needle ty = some result := by
  obtain ⟨σ, resolves⟩ := valid.acyclic.exists_resolves
  obtain ⟨fuel, result, returned, _⟩ := run_total
    (fun fuel => occursTurn fuel arena needle) (fun le => occursTurn_mono le)
    (Searching kinds arena unifier σ needle ty) (fun _ => True)
    (fun state => occursWeight arena σ state.2.1)
    (fun state searching => by
      obtain ⟨fuel, effect, turned⟩ : ∃ fuel effect, occursTurn fuel arena needle state = some effect := by
        obtain ⟨before, work, visited⟩ := state
        cases work with
        | nil => exact ⟨0, _, rfl⟩
        | cons ty work =>
          obtain ⟨fuel, ⟨ty', after⟩, returned⟩ := prune_total searching.compressed.valid
            (searching.allocated ty (List.mem_cons_self ..))
          have prunes := prune_spec searching.compressed.valid
            (searching.allocated ty (List.mem_cons_self ..)) returned
          obtain ⟨node, here⟩ := TypeArena.exists_get prunes.allocated
          refine ⟨fuel, ?_⟩
          simp only [occursTurn, Option.bind_eq_bind, returned, Option.bind_some, here]
          split
          · exact ⟨_, rfl⟩
          · cases node <;> first | exact ⟨_, rfl⟩ | (simp only; split <;> exact ⟨_, rfl⟩)
      have meaning := occursTurn_effect valid resolves searching turned
      cases effect with
      | again next => exact .inl ⟨fuel, next, turned, meaning⟩
      | leave value => exact .inr ⟨fuel, value, turned, trivial⟩)
    _ (searching_root valid allocated)
  exact ⟨fuel, result, returned⟩

/-- What one call of `bind` means for the solutions of the bindings. -/
structure BindEffect (kinds : KindArena) (arena : TypeArena) (unifier : Unifier) (id : MetaId)
    (ty : TypeId) (outcome : Except TypeError Unit) (after : Unifier) : Prop where
  valid : Valid kinds arena after
  metaKind : after.metaKind = unifier.metaKind
  bound : outcome = .ok () → after.unboundMetas ⊂ unifier.unboundMetas ∧
    ∀ θ, Solves θ (after.bindings arena) ↔
      Solves θ (unifier.bindings arena) ∧ θ id = (arena.tree ty).bind θ
  refused : outcome ≠ .ok () → ∀ κ θ, unifier.Agrees κ → Respects kinds.sorting κ θ →
    Solves θ (unifier.bindings arena) → θ id ≠ (arena.tree ty).bind θ

/-- A pruned type other than the metavariable itself does not resolve to it. -/
private theorem resolved_ne_metavar (valid : Valid kinds arena unifier)
    (resolves : Resolves σ (unifier.bindings arena)) {id : MetaId} {ty : TypeId}
    (allocated : ty < arena.nodes.length) (pruned : Pruned arena unifier ty)
    (other : arena.get ty ≠ some (.metavar id)) : resolved arena σ ty ≠ .var id := by
  obtain ⟨node, here⟩ := TypeArena.exists_get allocated
  have shape := valid.wellFounded.tree_eq here
  cases node with
  | metavar id' =>
    rw [resolved_metavar valid resolves pruned here]
    rintro same
    obtain rfl := Term.var.inj same
    exact other here
  | _ => simp [resolved, shape, TypeNode.tree]

private theorem bindings_setBinding {id : MetaId} (inside : id < unifier.metas.length) (ty : TypeId) :
    (unifier.clearZonked.setBinding id ty).bindings arena =
      Function.update (unifier.bindings arena) id (some (arena.tree ty)) := by
  funext other
  by_cases same : other = id
  · subst same
    obtain ⟨bound, found⟩ := exists_binding inside
    rw [Function.update_self]
    apply bindings_of_bound
    rw [setBinding_binding, if_pos rfl]
    simp [clearZonked, binding] at found ⊢
    exact ⟨_, found.choose_spec.1⟩
  · rw [Function.update_of_ne same, bindings, setBinding_binding, if_neg (Ne.symm same)]
    rfl

/-- Binding a free metavariable to a type of its kind that does not mention it keeps the invariant. -/
private theorem Valid.setBinding (valid : Valid kinds arena unifier) {id : MetaId} {ty : TypeId}
    (resolves : Resolves σ (unifier.bindings arena)) (unbound : unifier.binding id = some none)
    (allocated : ty < arena.nodes.length) (absent : ¬ (resolved arena σ ty).Occurs id)
    (kinded : ∀ κ, unifier.Agrees κ → kinds.kind κ (arena.tree ty) = some (κ id)) :
    Valid kinds arena (unifier.clearZonked.setBinding id ty) := by
  have same : (unifier.clearZonked.setBinding id ty).metaKind = unifier.metaKind :=
    setBinding_metaKind id ty
  have bound : ∀ other, (unifier.clearZonked.setBinding id ty).binding other =
      if id = other then (unifier.binding other).map fun _ => some ty else unifier.binding other :=
    setBinding_binding id ty
  refine ⟨valid.wellFounded, ?_, valid.single, ?_, ?_, ?_, by simp [clearZonked]⟩
  · intro other m found
    rw [length_eq_of_metaKind same]
    exact valid.known other m found
  · intro m other found
    rw [bound] at found
    split at found
    next equal =>
      subst equal
      obtain rfl : ty = other := by simpa [unbound] using found
      exact allocated
    next => exact valid.allocated m other found
  · intro κ agrees m other found
    have old : unifier.Agrees κ := agrees.of_metaKind same
    rw [bound] at found
    split at found
    next equal =>
      subst equal
      obtain rfl : ty = other := by simpa [unbound] using found
      exact kinded κ old
    next => exact valid.kinded κ old m other found
  · rw [bindings_setBinding (lt_of_binding unbound)]
    exact valid.acyclic.update resolves (bindings_of_unbound unbound) absent

private theorem unboundMetas_setBinding {id : MetaId} (unbound : unifier.binding id = some none)
    (ty : TypeId) : (unifier.clearZonked.setBinding id ty).unboundMetas ⊂ unifier.unboundMetas := by
  have length : (unifier.clearZonked.setBinding id ty).metas.length = unifier.metas.length := by
    simp [setBinding, clearZonked]
  have bound : ∀ other, (unifier.clearZonked.setBinding id ty).binding other =
      if id = other then (unifier.binding other).map fun _ => some ty else unifier.binding other :=
    setBinding_binding id ty
  apply (Finset.ssubset_iff_of_subset ?_).mpr
  · refine ⟨id, ?_, ?_⟩
    · simp [unboundMetas, unbound, lt_of_binding unbound]
    · simp [unboundMetas, bound, unbound]
  · intro other
    simp only [unboundMetas, Finset.mem_filter, Finset.mem_range, length, bound]
    rintro ⟨inside, free⟩
    refine ⟨inside, ?_⟩
    split at free
    · simp at free
    · exact free

theorem bind_spec (valid : Valid kinds arena unifier) {id : MetaId} {ty : TypeId}
    (unbound : unifier.binding id = some none) (allocated : ty < arena.nodes.length)
    (pruned : Pruned arena unifier ty) (other : arena.get ty ≠ some (.metavar id)) {fuel : ℕ}
    {outcome : Except TypeError Unit} {after : Unifier}
    (returned : unifier.bind fuel arena kinds id ty = some (outcome, after)) :
    BindEffect kinds arena unifier id ty outcome after := by
  obtain ⟨σ, resolves⟩ := valid.acyclic.exists_resolves
  simp only [bind, Option.bind_eq_bind, Option.bind_eq_some_iff] at returned
  obtain ⟨⟨found, searched⟩, search, returned⟩ := returned
  obtain ⟨compressed, occurs⟩ := occurs_spec valid resolves allocated search
  split at returned
  next isFound =>
    obtain ⟨rfl, rfl⟩ := Prod.mk.inj (Option.some.inj returned)
    refine ⟨compressed.valid, compressed.metaKind, (by rintro ⟨⟩), fun _ κ θ _ _ solves => ?_⟩
    exact no_solution_of_occurs valid.acyclic resolves (occurs.mp isFound)
      (resolved_ne_metavar valid resolves allocated pruned other) solves
  next notFound =>
    simp only [Option.bind_eq_some_iff] at returned
    obtain ⟨expected, isExpected, result, computed, returned⟩ := returned
    rw [compressed.metaKind] at isExpected
    have kindOf : ∀ κ, unifier.Agrees κ → kinds.kind κ (arena.tree ty) = result.toOption :=
      fun κ agrees => TypeArena.kindOf_eq valid.wellFounded
        (by rw [compressed.metaKind]; exact valid.known_kind agrees) allocated computed
    have refused : result ≠ .ok expected → ∀ κ θ, unifier.Agrees κ → Respects kinds.sorting κ θ →
        θ id ≠ (arena.tree ty).bind θ := by
      intro differ κ θ agrees respects
      refine no_solution_of_sort (s := .var id) respects ?_
      rw [show (arena.tree ty).sort kinds.sorting κ = _ from kindOf κ agrees, Term.sort,
        agrees id expected isExpected]
      cases result with
      | error _ => simp [Except.toOption]
      | ok actual => simpa [Except.toOption, eq_comm] using differ
    cases result with
    | error failure =>
      obtain ⟨rfl, rfl⟩ := Prod.mk.inj (Option.some.inj returned)
      exact ⟨compressed.valid, compressed.metaKind, (by rintro ⟨⟩),
        fun _ κ θ agrees respects _ => refused (by rintro ⟨⟩) κ θ agrees respects⟩
    | ok actual =>
      simp only at returned
      split at returned
      next differ =>
        obtain ⟨rfl, rfl⟩ := Prod.mk.inj (Option.some.inj returned)
        exact ⟨compressed.valid, compressed.metaKind, (by rintro ⟨⟩), fun _ κ θ agrees respects _ =>
          refused (fun same => differ (Except.ok.inj same).symm) κ θ agrees respects⟩
      next same =>
        obtain ⟨rfl, rfl⟩ := Prod.mk.inj (Option.some.inj returned)
        obtain rfl : expected = actual := by simpa using same
        have free : searched.binding id = some none := (compressed.unbound id).mpr unbound
        refine ⟨compressed.valid.setBinding (compressed.resolves σ resolves) free allocated
          (fun inner => notFound (occurs.mpr inner)) ?_, (setBinding_metaKind id ty).trans
          compressed.metaKind, fun _ => ⟨?_, ?_⟩, fun bad => absurd rfl bad⟩
        · intro κ agrees
          have old := agrees.of_metaKind compressed.metaKind
          rw [kindOf κ old, old id expected isExpected]
          rfl
        · rw [← compressed.unboundMetas_eq]
          exact unboundMetas_setBinding free ty
        · intro θ
          rw [bindings_setBinding (lt_of_binding free), solves_update_iff (bindings_of_unbound free),
            compressed.solves_iff valid]

theorem bind_mono {fuel fuel' : ℕ} (le : fuel ≤ fuel') {id : MetaId} {ty : TypeId}
    {result : Except TypeError Unit × Unifier}
    (returned : unifier.bind fuel arena kinds id ty = some result) :
    unifier.bind fuel' arena kinds id ty = some result := by
  simp only [bind, Option.bind_eq_bind, Option.bind_eq_some_iff] at returned ⊢
  obtain ⟨searched, search, returned⟩ := returned
  refine ⟨searched, occurs_mono le search, ?_⟩
  split at returned
  next isFound => rw [if_pos isFound]; exact returned
  next notFound =>
    rw [if_neg notFound]
    simp only [Option.bind_eq_some_iff] at returned ⊢
    obtain ⟨expected, isExpected, result, computed, returned⟩ := returned
    exact ⟨expected, isExpected, result, run_mono (fun _ _ same => same) le computed, returned⟩

/-- `bind` terminates on a well-kinded type. -/
theorem bind_total (valid : Valid kinds arena unifier) {id : MetaId} {ty : TypeId}
    (inside : id < unifier.metas.length) (allocated : ty < arena.nodes.length)
    (wellKinded : ∃ κ kind, unifier.Agrees κ ∧ kinds.kind κ (arena.tree ty) = some kind) :
    ∃ fuel result, unifier.bind fuel arena kinds id ty = some result := by
  obtain ⟨κ, kind, agrees, sorted⟩ := wellKinded
  obtain ⟨σ, resolves⟩ := valid.acyclic.exists_resolves
  obtain ⟨first, ⟨found, searched⟩, search⟩ := occurs_total valid id allocated
  obtain ⟨compressed, _⟩ := occurs_spec valid resolves allocated search
  obtain ⟨second, computed⟩ := TypeArena.kindOf_complete valid.wellFounded
    (show ∀ ty m, arena.get ty = some (.metavar m) → searched.metaKind m = some (κ m) by
      rw [compressed.metaKind]; exact valid.known_kind agrees)
    allocated sorted
  refine ⟨max first second, ?_⟩
  have expected : searched.metaKind id = some (κ id) := by
    rw [compressed.metaKind]; exact agrees.metaKind_eq inside
  have kindOf : arena.kindOf (max first second) kinds searched.metaKind ty = some (.ok kind) :=
    run_mono (fun _ _ same => same) (le_max_right first second) computed
  simp only [bind, Option.bind_eq_bind, occurs_mono (le_max_left first second) search,
    Option.bind_some, expected, kindOf]
  split
  · exact ⟨_, rfl⟩
  · split <;> exact ⟨_, rfl⟩

end HellRs.Types.Unifier
