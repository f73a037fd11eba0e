import HellRs.Types.Zonk

/-! # Closed types across a session

A session keeps the invariant of closed types: every call that changes the substitution clears the memo, and the arena
only grows. So what `zonk` returns is the fully substituted tree of its argument, and one identifier stands for one
tree however many calls lie between two calls of `zonk`.
-/

namespace HellRs.Types

open Loop Term Unification

namespace Unifier

variable {kinds kinds' : KindArena} {arena arena' : TypeArena} {unifier unifier' : Unifier}

theorem Canonical.internKind (canonical : Canonical kinds arena unifier) {node : KindNode} {id : KindId}
    (interned : kinds.intern node = some (id, kinds')) : Canonical kinds' arena unifier :=
  ⟨canonical.valid.internKind interned, canonical.shared, canonical.remembers⟩

theorem Canonical.intern (canonical : Canonical kinds arena unifier) {node : TypeNode} {ty : TypeId}
    (plain : node.isMeta = false) (allocated : ∀ child ∈ node.children, child < arena.nodes.length)
    (interned : arena.intern node = some (ty, arena')) : Canonical kinds arena' unifier := by
  have prefixed := (TypeArena.intern_extends interned).1
  refine ⟨canonical.valid.intern plain allocated interned, canonical.shared.intern interned, fun σ resolves => ?_⟩
  rw [canonical.valid.bindings_extends prefixed] at resolves
  exact (canonical.remembers σ resolves).extends canonical.valid prefixed

/-- A fresh metavariable clears the memo. -/
theorem Canonical.fresh (canonical : Canonical kinds arena unifier) {kind : KindId} {ty : TypeId}
    (returned : unifier.fresh arena kind = some (ty, unifier', arena')) : Canonical kinds arena' unifier' := by
  refine ⟨canonical.valid.fresh returned, ?_, fun σ _ pair member => ?_⟩
  all_goals
    simp only [Unifier.fresh] at returned
    split at returned
    next =>
      simp only [Option.bind_eq_bind, Option.bind_eq_some_iff] at returned
      obtain ⟨⟨id, grown⟩, interned, returned⟩ := returned
      obtain ⟨-, rfl, rfl⟩ : id = ty ∧ _ = unifier' ∧ grown = arena' := by simpa using returned
      first | exact canonical.shared.intern interned | cases member
    next => cases returned

theorem Canonical.unify (canonical : Canonical kinds arena unifier) {left right : TypeId}
    (left_lt : left < arena.nodes.length) (right_lt : right < arena.nodes.length) {fuel : ℕ}
    {outcome : Except TypeError Unit}
    (returned : unifier.unify fuel arena kinds left right = some (outcome, unifier')) :
    Canonical kinds arena unifier' := by
  have after := (unify_spec canonical.valid left_lt right_lt returned).valid
  exact ⟨after, canonical.shared,
    (unify_forgets canonical.valid left_lt right_lt returned).remembers canonical.valid after canonical.remembers⟩

end Unifier

namespace Session

def Canonical (session : Session) : Prop :=
  Unifier.Canonical session.kinds session.arena session.unifier

theorem canonical_initial : initial.Canonical where
  valid := valid_initial
  shared ty ty' node _ here := by simp [initial, TypeArena.default, TypeArena.get] at here
  remembers σ _ pair member := by simp [initial, Unifier.default] at member

/-- A call keeps the invariant, and every identifier keeps its place in the arena. -/
theorem Call.canonical {session after : Session} (call : Call session after) (canonical : session.Canonical) :
    after.Canonical ∧ session.arena.Extends after.arena := by
  cases call with
  | internKind returned => exact ⟨Unifier.Canonical.internKind canonical returned, .refl _⟩
  | intern plain allocated returned =>
    exact ⟨Unifier.Canonical.intern canonical plain allocated returned, (TypeArena.intern_extends returned).1⟩
  | fresh returned =>
    refine ⟨Unifier.Canonical.fresh canonical returned, ?_⟩
    simp only [Unifier.fresh] at returned
    split at returned
    next =>
      simp only [Option.bind_eq_bind, Option.bind_eq_some_iff] at returned
      obtain ⟨⟨id, grown⟩, interned, returned⟩ := returned
      simp only [Option.some.injEq, Prod.mk.injEq] at returned
      exact returned.2.2 ▸ (TypeArena.intern_extends interned).1
    next => cases returned
  | unify left_lt right_lt returned =>
    exact ⟨Unifier.Canonical.unify canonical left_lt right_lt returned, .refl _⟩
  | zonk ty_lt returned =>
    obtain ⟨σ, resolves⟩ := Unifier.Canonical.valid canonical |>.acyclic.exists_resolves
    have meaning := Unifier.Canonical.zonk_spec canonical resolves ty_lt returned
    exact ⟨meaning.2.1, meaning.1⟩

theorem canonical_of_calls {session later : Session} (calls : Relation.ReflTransGen Call session later)
    (canonical : session.Canonical) : later.Canonical ∧ session.arena.Extends later.arena := by
  induction calls with
  | refl => exact ⟨canonical, .refl _⟩
  | tail _ call ih =>
    obtain ⟨kept, prefixed⟩ := call.canonical ih.1
    exact ⟨kept, ih.2.trans prefixed⟩

theorem Reachable.canonical {session : Session} (reachable : session.Reachable) : session.Canonical :=
  (canonical_of_calls reachable canonical_initial).1

section Reach

/-- One step from a type to a child of its node, or to the binding of its metavariable. -/
inductive Leads (session : Session) : TypeId → TypeId → Prop where
  | child {ty child : TypeId} {node : TypeNode} (here : session.arena.get ty = some node)
      (member : child ∈ node.children) : Leads session ty child
  | binding {ty bound : TypeId} {id : MetaId} (here : session.arena.get ty = some (.metavar id))
      (isBound : session.unifier.binding id = some (some bound)) : Leads session ty bound

/-- An unresolved metavariable, or a bound variable. -/
def Open (session : Session) (ty : TypeId) : Prop :=
  (∃ id, session.arena.get ty = some (.metavar id) ∧ session.unifier.binding id = some none) ∨
    ∃ index, session.arena.get ty = some (.bound index)

/-- Nothing open is reachable from the type. -/
def NothingOpen (session : Session) (ty : TypeId) : Prop :=
  ∀ other, Relation.ReflTransGen session.Leads ty other → ¬ session.Open other

theorem nothingOpen_iff {session : Session} {ty : TypeId} :
    session.NothingOpen ty ↔ ¬ session.Open ty ∧ ∀ child, session.Leads ty child → session.NothingOpen child := by
  constructor
  · intro all
    exact ⟨all ty .refl, fun child leads other path => all other (.head leads path)⟩
  · rintro ⟨here, rest⟩ other path
    rcases path.cases_head with rfl | ⟨child, leads, path⟩
    · exact here
    · exact rest child leads other path

/-- A pointer follows the binding of a bound metavariable and nothing else. -/
theorem nothingOpen_bound {session : Session} {ty bound : TypeId} {id : MetaId}
    (here : session.arena.get ty = some (.metavar id)) (isBound : session.unifier.binding id = some (some bound)) :
    session.NothingOpen ty ↔ session.NothingOpen bound := by
  rw [nothingOpen_iff]
  constructor
  · exact fun ⟨_, rest⟩ => rest bound (.binding here isBound)
  · refine fun closed => ⟨?_, fun child leads => ?_⟩
    · rintro (⟨id', here', free⟩ | ⟨index, here'⟩)
      · obtain rfl : id = id' := by simpa [here] using here'
        simp [isBound] at free
      · simp [here] at here'
    · cases leads with
      | child here' member =>
        obtain rfl := Option.some.inj (here.symm.trans here')
        cases member
      | binding here' isBound' =>
        obtain rfl : id = _ := by simpa [here] using here'
        obtain rfl : bound = child := by simpa [isBound] using isBound'
        exact closed

theorem nothingOpen_node {session : Session} {ty : TypeId} {node : TypeNode}
    (here : session.arena.get ty = some node) (plain : node.isMeta = false) (free : ∀ index, node ≠ .bound index) :
    session.NothingOpen ty ↔ ∀ child ∈ node.children, session.NothingOpen child := by
  rw [nothingOpen_iff]
  constructor
  · exact fun ⟨_, rest⟩ child member => rest child (.child here member)
  · refine fun closed => ⟨?_, fun child leads => ?_⟩
    · rintro (⟨id, here', -⟩ | ⟨index, here'⟩)
      · obtain rfl := Option.some.inj (here.symm.trans here')
        cases plain
      · exact free index (Option.some.inj (here.symm.trans here'))
    · cases leads with
      | child here' member =>
        obtain rfl := Option.some.inj (here.symm.trans here')
        exact closed _ member
      | binding here' _ =>
        obtain rfl := Option.some.inj (here.symm.trans here')
        cases plain

theorem not_nothingOpen {session : Session} {ty : TypeId} (isOpen : session.Open ty) : ¬ session.NothingOpen ty :=
  fun all => all ty .refl isOpen

/-- The substituted tree is closed exactly if nothing open is reachable. -/
theorem Valid.closed_iff {session : Session} (valid : session.Valid) {σ : TypeSubst}
    (resolves : Resolves σ (session.unifier.bindings session.arena)) {ty : TypeId}
    (allocated : ty < session.arena.nodes.length) :
    Closed (Unifier.resolved session.arena σ ty) ↔ session.NothingOpen ty := by
  obtain ⟨rank, ranked⟩ := valid.acyclic
  -- The resolved tree shrinks at a node, and the rank decreases at a bound metavariable.
  induction ty using (InvImage.wf (fun ty => ((Unifier.resolved session.arena σ ty).size,
    (session.arena.tree ty).bound rank)) (Prod.lex Nat.lt_wfRel Nat.lt_wfRel).wf).induction with
  | _ ty ih =>
  obtain ⟨node, here⟩ := TypeArena.exists_get allocated
  have shape := valid.wellFounded.tree_eq here
  have below : ∀ child ∈ node.children, child < session.arena.nodes.length := fun child member =>
    Nat.lt_trans (valid.wellFounded ty node here child member) allocated
  have branch (symbol : TypeBinary) (left right : TypeId) (isNode : node = symbol.build left right) :
      Closed (Unifier.resolved session.arena σ ty) ↔ session.NothingOpen ty := by
    subst isNode
    have split : Unifier.resolved session.arena σ ty = .node symbol (Unifier.resolved session.arena σ left)
        (Unifier.resolved session.arena σ right) := by
      rw [Unifier.resolved, shape, TypeBinary.build_tree, bind_node]
      rfl
    have sizes : (Unifier.resolved session.arena σ ty).size = (Unifier.resolved session.arena σ left).size +
        (Unifier.resolved session.arena σ right).size + 1 := by rw [split, Term.size]
    rw [nothingOpen_node here (by simp) (by cases symbol <;> simp [TypeBinary.build]), split]
    simp only [TypeBinary.build_children, List.forall_mem_cons, List.not_mem_nil, false_implies, implies_true,
      and_true] at below ⊢
    have leftSmaller : (Unifier.resolved session.arena σ left).size < (Unifier.resolved session.arena σ ty).size := by omega
    have rightSmaller : (Unifier.resolved session.arena σ right).size < (Unifier.resolved session.arena σ ty).size := by omega
    exact and_congr (ih left (Prod.Lex.left _ _ leftSmaller) below.1) (ih right (Prod.Lex.left _ _ rightSmaller) below.2)
  have leaf (symbol : TypeLeaf) (isLeaf : node.tree session.arena.tree = .leaf symbol) (closed : Closed (.leaf symbol))
      (none : node.children = []) (plain : node.isMeta = false) (free : ∀ index, node ≠ .bound index) :
      Closed (Unifier.resolved session.arena σ ty) ↔ session.NothingOpen ty := by
    rw [nothingOpen_node here plain free, Unifier.resolved, shape, isLeaf, bind_leaf]
    simp [closed, none]
  cases node with
  | metavar id =>
    obtain ⟨bound, found⟩ := Unifier.exists_binding (valid.known _ _ here)
    cases bound with
    | none =>
      rw [Unifier.resolved, shape, TypeNode.tree, bind_var, resolves.free id (Unifier.bindings_of_unbound found)]
      exact iff_of_false (fun closed => closed.elim) (not_nothingOpen (.inl ⟨id, here, found⟩))
    | some bound =>
      have isBound : session.unifier.bindings session.arena id = some (session.arena.tree bound) :=
        Unifier.bindings_of_bound found
      have same : Unifier.resolved session.arena σ ty = Unifier.resolved session.arena σ bound := by
        rw [Unifier.resolved, shape, TypeNode.tree, bind_var, resolves.bound id _ isBound]
        rfl
      rw [nothingOpen_bound here found, same]
      refine ih bound ?_ (valid.allocated id bound found)
      simp only [InvImage, same]
      refine Prod.Lex.right _ ?_
      rw [shape]
      exact Nat.lt_succ_of_le (bound_le (ranked id _ isBound))
  | bound index =>
    rw [Unifier.resolved, shape]
    exact iff_of_false (fun closed => closed.elim) (not_nothingOpen (.inr ⟨index, here⟩))
  | apply left right => exact branch .apply left right rfl
  | function left right => exact branch .function left right rfl
  | rowCons label field tail => exact branch (.rowCons label) field tail rfl
  | _ => exact leaf _ rfl trivial rfl rfl (by simp)

end Reach

/-- In every reachable session `zonk` terminates unless the arena overflows. It succeeds exactly if neither an
unresolved metavariable nor a bound variable is reachable from the type, its result is the fully substituted tree, and
the result of any later successful `zonk` is the same identifier exactly if the substituted trees are the same. -/
theorem zonk_canonical {session : Session} (reachable : session.Reachable) (ty : TypeId)
    (allocated : ty < session.arena.nodes.length) :
    ((∃ fuel result, session.unifier.zonk fuel session.arena ty = some result) ∨
      Unifier.ZonkOverflows session.unifier session.arena ty) ∧
    ∃ σ, session.IsSubstitution σ ∧ ∀ fuel outcome unifier arena,
      session.unifier.zonk fuel session.arena ty = some (outcome, unifier, arena) →
        (outcome.isOk ↔ session.NothingOpen ty) ∧
        ∀ closed, outcome = .ok closed →
          arena.tree closed = (session.arena.tree ty).bind σ ∧
          ∀ later, Relation.ReflTransGen Call { session with unifier, arena } later →
          ∀ τ, later.IsSubstitution τ → ∀ ty', ty' < later.arena.nodes.length →
          ∀ fuel' closed' unifier' arena',
            later.unifier.zonk fuel' later.arena ty' = some (.ok closed', unifier', arena') →
            (closed = closed' ↔ (session.arena.tree ty).bind σ = (later.arena.tree ty').bind τ) := by
  have canonical := reachable.canonical
  obtain ⟨σ, resolves⟩ := canonical.valid.acyclic.exists_resolves
  refine ⟨canonical.zonk_total allocated, σ, Valid.isSubstitution canonical.valid resolves, ?_⟩
  intro fuel outcome unifier arena returned
  obtain ⟨prefixed, canonicalAfter, -, meaning⟩ := canonical.zonk_spec resolves allocated returned
  refine ⟨?_, ?_⟩
  · rw [← Valid.closed_iff canonical.valid resolves allocated]
    cases outcome with
    | ok closed => exact iff_of_true rfl (meaning.2.1 ▸ meaning.2.2)
    | error failure => exact iff_of_false (by simp [Except.isOk, Except.toBool]) meaning
  · rintro closed rfl
    obtain ⟨closedAllocated, tree, isClosed⟩ := meaning
    refine ⟨tree, fun later calls τ isSubstitution ty' allocated' fuel' closed' unifier' arena' returned' => ?_⟩
    obtain ⟨canonicalLater, prefixedLater⟩ := canonical_of_calls calls canonicalAfter
    have resolvesLater := (isSubstitution τ).mpr rfl
    obtain ⟨prefixed', canonical', -, allocated'', tree', -⟩ :=
      canonicalLater.zonk_spec resolvesLater allocated' returned'
    -- Both closed types are read in the last arena.
    have kept : arena'.tree closed = arena.tree closed := (prefixedLater.trans prefixed').tree_eq closedAllocated
    have same : closed = closed' ↔ arena'.tree closed = arena'.tree closed' := by
      refine ⟨fun equal => by rw [equal], fun equal => ?_⟩
      exact canonical'.shared.injective canonical'.valid.wellFounded
        (Nat.lt_of_lt_of_le closedAllocated (prefixedLater.trans prefixed').length_le) allocated''
        (kept ▸ isClosed) equal
    rw [same, kept, tree, tree']
    rfl

/-- `Int` is closed in the session with a metavariable. -/
theorem zonk_canonical_int : metaAndInt.NothingOpen 1 := by
  obtain ⟨-, σ, -, meaning⟩ := zonk_canonical metaAndInt_reachable 1 (by decide)
  exact (meaning 3 _ _ _ rfl).1.mp rfl

end Session

end HellRs.Types
