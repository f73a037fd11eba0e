import HellRs.Types.MostGeneral

/-! # Sessions of the type arena and the unifier

A session is any sequence of kind and type internings, fresh metavariables, unifications and zonks
on identifiers that the arena has allocated. Failed calls are part of a session. Every reachable
state satisfies the invariant of the bindings, and `unify` answers exactly on it.
-/

namespace HellRs.Types

open Loop Term Unification

/-- The second arena has all kinds of the first at their places. -/
def KindArena.Extends (kinds extended : KindArena) : Prop := kinds.nodes <+: extended.nodes

theorem KindArena.intern_extends {kinds kinds' : KindArena} {node : KindNode} {id : KindId}
    (interned : kinds.intern node = some (id, kinds')) : kinds.Extends kinds' := by
  simp only [intern] at interned
  split at interned
  · obtain ⟨rfl, rfl⟩ := Prod.mk.inj (Option.some.inj interned)
    exact List.prefix_rfl
  · split at interned
    · obtain ⟨rfl, rfl⟩ := Prod.mk.inj (Option.some.inj interned)
      exact ⟨[node], rfl⟩
    · cases interned

theorem KindArena.Extends.get {kinds extended : KindArena} (prefixed : kinds.Extends extended)
    {id : KindId} {node : KindNode} (found : kinds.get id = some node) :
    extended.get id = some node := by
  obtain ⟨added, equal⟩ := prefixed
  rw [KindArena.get, ← equal]
  exact (List.getElem?_append_left (List.getElem?_eq_some_iff.mp found).1).trans found

/-- More kinds keep the kind of every tree that has one. -/
theorem KindArena.Extends.kind {kinds extended : KindArena} (prefixed : kinds.Extends extended)
    {κ : MetaId → KindId} {t : Tree} {kind : KindId} (sorted : kinds.kind κ t = some kind) :
    extended.kind κ t = some kind := by
  induction t generalizing kind with
  | var _ => exact sorted
  | leaf _ => exact sorted
  | node symbol left right ihLeft ihRight =>
    simp only [KindArena.kind, Term.sort, Option.bind_eq_bind, Option.bind_eq_some_iff] at sorted ⊢
    obtain ⟨leftKind, leftSorted, rightKind, rightSorted, combined⟩ := sorted
    refine ⟨leftKind, ihLeft leftSorted, rightKind, ihRight rightSorted, ?_⟩
    cases symbol with
    | apply =>
      simp only [KindArena.sorting] at combined ⊢
      split at combined
      next expected result arrow => rw [prefixed.get arrow]; exact combined
      next => cases combined
    | function => exact combined
    | rowCons _ => exact combined

namespace Unifier

variable {kinds kinds' : KindArena} {arena arena' : TypeArena} {unifier unifier' : Unifier}

/-- The invariant survives any growth that leaves the bound metavariables alone. -/
private theorem Valid.grow (valid : Valid kinds arena unifier) (moreKinds : kinds.Extends kinds')
    (prefixed : arena.Extends arena') (wellFounded : arena'.WellFounded)
    (known : ∀ ty id, arena'.get ty = some (.metavar id) → id < unifier'.metas.length)
    (single : ∀ ty ty' id, arena'.get ty = some (.metavar id) → arena'.get ty' = some (.metavar id) →
      ty = ty')
    (bound : ∀ id ty, unifier'.binding id = some (some ty) ↔ unifier.binding id = some (some ty))
    (agrees : ∀ κ, unifier'.Agrees κ → unifier.Agrees κ)
    (zonked : ∀ pair ∈ unifier'.zonked, pair.2 < arena'.nodes.length) :
    Valid kinds' arena' unifier' := by
  have bindings : unifier'.bindings arena' = unifier.bindings arena := by
    funext id
    apply Option.ext
    intro t
    constructor
    · intro found
      obtain ⟨ty, isBound, rfl⟩ := exists_of_bindings found
      have old := (bound id ty).mp isBound
      rw [bindings_of_bound old, prefixed.tree_eq (valid.allocated id ty old)]
    · intro found
      obtain ⟨ty, isBound, rfl⟩ := exists_of_bindings found
      rw [bindings_of_bound ((bound id ty).mpr isBound),
        prefixed.tree_eq (valid.allocated id ty isBound)]
  refine ⟨wellFounded, known, single, ?_, ?_, bindings ▸ valid.acyclic, zonked⟩
  · intro id ty isBound
    exact Nat.lt_of_lt_of_le (valid.allocated id ty ((bound id ty).mp isBound)) prefixed.length_le
  · intro κ isAgreeing id ty isBound
    have old := (bound id ty).mp isBound
    rw [prefixed.tree_eq (valid.allocated id ty old)]
    exact moreKinds.kind (valid.kinded κ (agrees κ isAgreeing) id ty old)

theorem Valid.internKind (valid : Valid kinds arena unifier) {node : KindNode} {id : KindId}
    (interned : kinds.intern node = some (id, kinds')) : Valid kinds' arena unifier :=
  valid.grow (KindArena.intern_extends interned) (.refl arena) valid.wellFounded valid.known
    valid.single (fun _ _ => Iff.rfl) (fun _ agrees => agrees) valid.zonked

/-- A node found at a position of the grown arena is old, or it is the new one. -/
theorem get_intern {node : TypeNode} {ty : TypeId}
    (interned : arena.intern node = some (ty, arena')) {other : TypeId} {found : TypeNode}
    (here : arena'.get other = some found) :
    arena.get other = some found ∨ other = arena.nodes.length ∧ found = node := by
  rcases TypeArena.intern_cases interned with ⟨rfl, _⟩ | ⟨_, rfl⟩
  · exact .inl here
  · by_cases inside : other < arena.nodes.length
    · exact .inl ((List.getElem?_append_left inside).symm.trans here)
    · have bound := TypeArena.get_lt here
      rw [List.length_append, List.length_singleton] at bound
      obtain rfl : other = arena.nodes.length :=
        Nat.le_antisymm (Nat.lt_succ_iff.mp bound) (Nat.le_of_not_lt inside)
      exact .inr ⟨rfl, by simpa [TypeArena.get, eq_comm] using here⟩

theorem Valid.intern (valid : Valid kinds arena unifier) {node : TypeNode} {ty : TypeId}
    (plain : node.isMeta = false) (allocated : ∀ child ∈ node.children, child < arena.nodes.length)
    (interned : arena.intern node = some (ty, arena')) : Valid kinds arena' unifier := by
  have prefixed := (TypeArena.intern_extends interned).1
  have old : ∀ other id, arena'.get other = some (.metavar id) → arena.get other = some (.metavar id) := by
    intro other id here
    rcases get_intern interned here with same | ⟨_, rfl⟩
    · exact same
    · cases plain
  exact valid.grow List.prefix_rfl prefixed (valid.wellFounded.intern allocated interned)
    (fun other id here => valid.known other id (old other id here))
    (fun _ _ id here here' => valid.single _ _ id (old _ id here) (old _ id here'))
    (fun _ _ => Iff.rfl) (fun _ agrees => agrees)
    (fun pair member => Nat.lt_of_lt_of_le (valid.zonked pair member) prefixed.length_le)

theorem Valid.fresh (valid : Valid kinds arena unifier) {kind : KindId} {ty : TypeId}
    (returned : unifier.fresh arena kind = some (ty, unifier', arena')) :
    Valid kinds arena' unifier' := by
  simp only [Unifier.fresh] at returned
  split at returned
  next room =>
    simp only [Option.bind_eq_bind, Option.bind_eq_some_iff] at returned
    obtain ⟨⟨id, grown⟩, interned, returned⟩ := returned
    simp only [Option.some.injEq, Prod.mk.injEq] at returned
    obtain ⟨rfl, rfl, rfl⟩ := returned
    have old : ∀ other m, grown.get other = some (.metavar m) →
        arena.get other = some (.metavar m) ∨
          other = arena.nodes.length ∧ m = unifier.metas.length := by
      intro other m here
      rcases get_intern interned here with same | ⟨rfl, same⟩
      · exact .inl same
      · exact .inr ⟨rfl, TypeNode.metavar.inj same⟩
    have metaKind : ∀ m k, unifier.metaKind m = some k →
        (⟨unifier.metas ++ [⟨kind, none⟩], []⟩ : Unifier).metaKind m = some k := by
      intro m k found
      have inside := metaKind_isSome.mp (Option.isSome_of_eq_some found)
      simp only [Unifier.metaKind] at found ⊢
      rwa [List.getElem?_append_left inside]
    refine valid.grow List.prefix_rfl (TypeArena.intern_extends interned).1
      (valid.wellFounded.intern (by simp [TypeNode.children]) interned) ?_ ?_ ?_ ?_ (by simp)
    · intro other m here
      simp only [List.length_append, List.length_singleton]
      rcases old other m here with same | ⟨_, rfl⟩
      · exact Nat.lt_succ_of_lt (valid.known other m same)
      · exact Nat.lt_succ_self _
    · intro other other' m here here'
      rcases old other m here with same | ⟨rfl, isNew⟩
      · rcases old other' m here' with same' | ⟨_, isNew'⟩
        · exact valid.single _ _ m same same'
        · exact absurd (valid.known other m same) (by rw [isNew']; exact Nat.lt_irrefl _)
      · rcases old other' m here' with same' | ⟨rfl, _⟩
        · exact absurd (valid.known other' m same') (by rw [isNew]; exact Nat.lt_irrefl _)
        · rfl
    · intro m ty
      by_cases inside : m < unifier.metas.length
      · simp only [Unifier.binding]; rw [List.getElem?_append_left inside]
      · simp only [Unifier.binding]
        rw [List.getElem?_eq_none (Nat.le_of_not_lt inside)]
        by_cases here : m = unifier.metas.length
        · subst here; simp
        · rw [List.getElem?_eq_none]
          simp only [List.length_append, List.length_singleton]
          exact Nat.lt_of_le_of_ne (Nat.le_of_not_lt inside) (Ne.symm here)
    · exact fun κ agrees m k found => agrees m k (metaKind m k found)
  next => cases returned

section Zonk

/-- The invariant of the work list of `zonk`. -/
structure Zonking (kinds : KindArena) (state : ZonkState) : Prop where
  valid : Valid kinds state.arena state.unifier
  work : ∀ ty, ZonkWork.visit ty ∈ state.work → ty < state.arena.nodes.length
  results : ∀ ty ∈ state.results, ty < state.arena.nodes.length

/-- What one turn of `zonk` keeps. -/
def ZonkEffect (kinds : KindArena) : Turn ZonkState ZonkResult → Prop
  | .again next => Zonking kinds next
  | .leave (_, unifier, arena) => Valid kinds arena unifier

private theorem Valid.addZonked (valid : Valid kinds arena unifier) {original zonked : TypeId}
    (allocated : zonked < arena.nodes.length) :
    Valid kinds arena { unifier with zonked := (original, zonked) :: unifier.zonked } :=
  valid.grow List.prefix_rfl (.refl arena) valid.wellFounded valid.known valid.single
    (fun _ _ => Iff.rfl) (fun _ agrees => agrees) (by simpa [allocated] using valid.zonked)

private theorem Zonking.rebuild {state : ZonkState} (zonking : Zonking kinds state)
    {entry : ZonkWork} {work : List ZonkWork} (here : state.work = entry :: work) {original : TypeId}
    {node : TypeId → TypeId → TypeNode} (plain : ∀ left right, (node left right).isMeta = false)
    (children : ∀ left right, ∀ child ∈ (node left right).children, child = left ∨ child = right)
    {effect : Turn ZonkState ZonkResult}
    (turned : rebuild state work original node = some effect) : ZonkEffect kinds effect := by
  simp only [Unifier.rebuild] at turned
  split at turned
  next right left results shape =>
    simp only [Option.bind_eq_bind, Option.bind_eq_some_iff] at turned
    obtain ⟨⟨zonked, grown⟩, interned, turned⟩ := turned
    obtain rfl := Option.some.inj turned
    obtain ⟨prefixed, found⟩ := TypeArena.intern_extends interned
    have inside : ∀ ty ∈ state.results, ty < grown.nodes.length := fun ty member =>
      Nat.lt_of_lt_of_le (zonking.results ty member) prefixed.length_le
    have valid : Valid kinds grown state.unifier := by
      refine zonking.valid.intern (plain left right) ?_ interned
      intro child member
      rcases children left right child member with rfl | rfl
      · exact zonking.results _ (by simp [shape])
      · exact zonking.results _ (by simp [shape])
    refine ⟨valid.addZonked (TypeArena.get_lt found), ?_, ?_⟩
    · intro ty member
      exact Nat.lt_of_lt_of_le (zonking.work ty (by rw [here]; exact List.mem_cons_of_mem _ member))
        prefixed.length_le
    · intro ty member
      rcases List.mem_cons.mp member with rfl | member
      · exact TypeArena.get_lt found
      · exact inside ty (by rw [shape]; simp [member])
  next => cases turned

theorem lookup_mem {entries : List (TypeId × TypeId)} {key value : TypeId}
    (found : entries.lookup key = some value) : (key, value) ∈ entries := by
  induction entries with
  | nil => cases found
  | cons entry entries ih =>
    obtain ⟨key', value'⟩ := entry
    rw [List.lookup_cons] at found
    split at found
    next same =>
      obtain rfl := Option.some.inj found
      obtain rfl : key = key' := by simpa using same
      exact List.mem_cons_self ..
    next => exact List.mem_cons_of_mem _ (ih found)

private theorem Zonking.visit {state : ZonkState} (zonking : Zonking kinds state) {fuel : ℕ}
    {ty : TypeId} {work : List ZonkWork} (here : state.work = .visit ty :: work)
    {effect : Turn ZonkState ZonkResult} (turned : zonkVisit fuel state work ty = some effect) :
    ZonkEffect kinds effect := by
  simp only [zonkVisit, Option.bind_eq_bind, Option.bind_eq_some_iff] at turned
  obtain ⟨⟨pruned, unifier⟩, returned, turned⟩ := turned
  have prunes := prune_spec zonking.valid (zonking.work ty (by simp [here])) returned
  have valid := prunes.compressed.valid
  have rest : ∀ ty, ZonkWork.visit ty ∈ work → ty < state.arena.nodes.length := fun ty member =>
    zonking.work ty (by rw [here]; exact List.mem_cons_of_mem _ member)
  have push : ∀ {first : TypeId}, first < state.arena.nodes.length →
      ∀ ty ∈ first :: state.results, ty < state.arena.nodes.length := fun inside ty member => by
    rcases List.mem_cons.mp member with rfl | member
    · exact inside
    · exact zonking.results ty member
  simp only at turned
  split at turned
  next zonked found =>
    obtain rfl := Option.some.inj turned
    exact ⟨valid, rest, push (valid.zonked _ (lookup_mem found))⟩
  next =>
    split at turned
    next =>
      obtain rfl := Option.some.inj turned
      exact ⟨valid, rest, push prunes.allocated⟩
    next =>
      simp only [Option.bind_eq_some_iff] at turned
      obtain ⟨node, found, turned⟩ := turned
      have inside : ∀ child ∈ node.children, child < state.arena.nodes.length := fun child member =>
        Nat.lt_trans (valid.wellFounded _ _ found child member) prunes.allocated
      have split : ∀ left right tail, (∀ ty, tail ≠ ZonkWork.visit ty) → left ∈ node.children →
          right ∈ node.children → ∀ ty, ZonkWork.visit ty ∈ .visit left :: .visit right :: tail :: work →
          ty < state.arena.nodes.length := by
        intro left right tail plain isLeft isRight ty member
        simp only [List.mem_cons, ZonkWork.visit.injEq] at member
        rcases member with rfl | rfl | same | member
        · exact inside _ isLeft
        · exact inside _ isRight
        · exact absurd same.symm (plain ty)
        · exact rest ty member
      cases node with
      | metavar id => obtain rfl := Option.some.inj turned; exact valid
      | bound index => obtain rfl := Option.some.inj turned; exact valid
      | apply left right =>
        obtain rfl := Option.some.inj turned
        exact ⟨valid, split left right _ (by rintro _ ⟨⟩) (by simp [TypeNode.children])
          (by simp [TypeNode.children]), zonking.results⟩
      | function left right =>
        obtain rfl := Option.some.inj turned
        exact ⟨valid, split left right _ (by rintro _ ⟨⟩) (by simp [TypeNode.children])
          (by simp [TypeNode.children]), zonking.results⟩
      | rowCons label field tail =>
        obtain rfl := Option.some.inj turned
        exact ⟨valid, split field tail _ (by rintro _ ⟨⟩) (by simp [TypeNode.children])
          (by simp [TypeNode.children]), zonking.results⟩
      | _ =>
        obtain rfl := Option.some.inj turned
        exact ⟨valid.addZonked prunes.allocated, rest, push prunes.allocated⟩

/-- The step lemma of `zonk`. -/
theorem Zonking.turn {state : ZonkState} (zonking : Zonking kinds state) {fuel : ℕ}
    {effect : Turn ZonkState ZonkResult} (turned : zonkTurn fuel state = some effect) :
    ZonkEffect kinds effect := by
  simp only [zonkTurn] at turned
  split at turned
  next =>
    simp only [Option.bind_eq_bind, Option.bind_eq_some_iff] at turned
    obtain ⟨closed, _, turned⟩ := turned
    obtain rfl := Option.some.inj turned
    exact zonking.valid
  next ty work here => exact zonking.visit here turned
  next original work here =>
    exact zonking.rebuild here (fun _ _ => rfl) (by simp [TypeNode.children]) turned
  next original work here =>
    exact zonking.rebuild here (fun _ _ => rfl) (by simp [TypeNode.children]) turned
  next original label work here =>
    exact zonking.rebuild here (fun _ _ => rfl) (by simp [TypeNode.children]) turned

theorem Valid.zonk (valid : Valid kinds arena unifier) {ty : TypeId}
    (allocated : ty < arena.nodes.length) {fuel : ℕ} {outcome : Except TypeError TypeId}
    (returned : unifier.zonk fuel arena ty = some (outcome, unifier', arena')) :
    Valid kinds arena' unifier' :=
  run_invariant (Zonking kinds) (fun result => Valid kinds result.2.2 result.2.1)
    (fun _ _ zonking again => zonking.turn again)
    (fun _ (_, _, _) zonking leave => zonking.turn leave)
    (show Zonking kinds ⟨unifier, arena, [.visit ty], [], []⟩ from
      ⟨valid, by simpa using allocated, by simp⟩) returned

end Zonk

end Unifier

/-- The arenas and the unifier that a session works on. -/
structure Session where
  kinds : KindArena
  arena : TypeArena
  unifier : Unifier

namespace Session

def initial : Session := ⟨.default, .default, .default⟩

/-- One call. Identifiers in its arguments are positions that earlier calls have allocated. -/
inductive Call : Session → Session → Prop where
  | internKind {session : Session} {node : KindNode} {id : KindId} {kinds : KindArena}
      (returned : session.kinds.intern node = some (id, kinds)) :
      Call session { session with kinds }
  | intern {session : Session} {node : TypeNode} {ty : TypeId} {arena : TypeArena}
      (plain : node.isMeta = false)
      (allocated : ∀ child ∈ node.children, child < session.arena.nodes.length)
      (returned : session.arena.intern node = some (ty, arena)) :
      Call session { session with arena }
  | fresh {session : Session} {kind : KindId} {ty : TypeId} {unifier : Unifier} {arena : TypeArena}
      (returned : session.unifier.fresh session.arena kind = some (ty, unifier, arena)) :
      Call session { session with arena, unifier }
  | unify {session : Session} {left right : TypeId} {fuel : ℕ} {outcome : Except TypeError Unit}
      {unifier : Unifier} (left_lt : left < session.arena.nodes.length)
      (right_lt : right < session.arena.nodes.length)
      (returned : session.unifier.unify fuel session.arena session.kinds left right =
        some (outcome, unifier)) :
      Call session { session with unifier }
  | zonk {session : Session} {ty : TypeId} {fuel : ℕ} {outcome : Except TypeError TypeId}
      {unifier : Unifier} {arena : TypeArena} (ty_lt : ty < session.arena.nodes.length)
      (returned : session.unifier.zonk fuel session.arena ty = some (outcome, unifier, arena)) :
      Call session { session with arena, unifier }

/-- The sessions that some sequence of calls leads to. -/
def Reachable (session : Session) : Prop := Relation.ReflTransGen Call initial session

def Valid (session : Session) : Prop :=
  Unifier.Valid session.kinds session.arena session.unifier

theorem valid_initial : initial.Valid where
  wellFounded id node found := by simp [initial, TypeArena.default, TypeArena.get] at found
  known ty id found := by simp [initial, TypeArena.default, TypeArena.get] at found
  single ty ty' id found := by simp [initial, TypeArena.default, TypeArena.get] at found
  allocated id ty found := by simp [initial, Unifier.default, Unifier.binding] at found
  kinded κ _ id ty found := by simp [initial, Unifier.default, Unifier.binding] at found
  acyclic := ⟨fun _ => 0, fun id t found => by
    simp [initial, Unifier.default, Unifier.bindings, Unifier.binding] at found⟩
  zonked pair member := by simp [initial, Unifier.default] at member

theorem Call.valid {session next : Session} (call : Call session next) (valid : session.Valid) :
    next.Valid := by
  cases call with
  | internKind returned => exact Unifier.Valid.internKind valid returned
  | intern plain allocated returned => exact Unifier.Valid.intern valid plain allocated returned
  | fresh returned => exact Unifier.Valid.fresh valid returned
  | unify left_lt right_lt returned => exact (Unifier.unify_spec valid left_lt right_lt returned).valid
  | zonk ty_lt returned => exact Unifier.Valid.zonk valid ty_lt returned

/-- The invariant holds in every reachable session. -/
theorem Reachable.valid {session : Session} (reachable : session.Reachable) : session.Valid := by
  induction reachable with
  | refl => exact valid_initial
  | tail _ call ih => exact call.valid ih

/-- `kind_of` accepts the type under the kinds of the metavariables. It rejects bound variables. -/
def WellKinded (session : Session) (ty : TypeId) : Prop :=
  ∃ fuel kind, session.arena.kindOf fuel session.kinds session.unifier.metaKind ty = some (.ok kind)

/-- The substitution of the session: it resolves the bindings, and nothing else does. -/
def IsSubstitution (session : Session) (σ : TypeSubst) : Prop :=
  ∀ τ : TypeSubst, Resolves τ (session.unifier.bindings session.arena) ↔ τ = σ

/-- The substitution gives every metavariable a tree of its kind. -/
def KindRespecting (session : Session) (θ : TypeSubst) : Prop :=
  ∃ κ, session.unifier.Agrees κ ∧ Respects session.kinds.sorting κ θ

/-- The second substitution extends the first. -/
def Extends (σ θ : TypeSubst) : Prop := ∀ id, θ id = (σ id).bind θ

/-- The substitution makes two types equal as finite trees. -/
def Equates (session : Session) (θ : TypeSubst) (left right : TypeId) : Prop :=
  (session.arena.tree left).bind θ = (session.arena.tree right).bind θ

theorem Valid.isSubstitution {session : Session} (valid : session.Valid) {σ : TypeSubst}
    (resolves : Resolves σ (session.unifier.bindings session.arena)) : session.IsSubstitution σ :=
  fun _ => ⟨fun other => valid.acyclic.resolves_unique other resolves, fun same => same ▸ resolves⟩

theorem WellKinded.lt {session : Session} {ty : TypeId} (wellKinded : session.WellKinded ty) :
    ty < session.arena.nodes.length := by
  obtain ⟨fuel, kind, returned⟩ := wellKinded
  cases fuel with
  | zero => cases returned
  | succ fuel =>
    by_contra outside
    have absent : session.arena.get ty = none := List.getElem?_eq_none (Nat.le_of_not_lt outside)
    simp [TypeArena.kindOf, run, TypeArena.kindTurn, absent] at returned

theorem WellKinded.treeKinded {session : Session} (valid : session.Valid) {ty : TypeId}
    (wellKinded : session.WellKinded ty) :
    Unifier.TreeKinded session.kinds session.arena session.unifier ty := by
  have inside := wellKinded.lt
  obtain ⟨fuel, kind, returned⟩ := wellKinded
  obtain ⟨κ, agrees⟩ := session.unifier.exists_agrees
  exact ⟨κ, kind, agrees,
    TypeArena.kindOf_eq valid.wellFounded (Unifier.Valid.known_kind valid agrees) inside returned⟩

/-- The resolving substitution keeps kinds. -/
theorem Valid.kindRespecting {session : Session} (valid : session.Valid) {σ : TypeSubst}
    (resolves : Resolves σ (session.unifier.bindings session.arena)) : session.KindRespecting σ := by
  obtain ⟨κ, agrees⟩ := session.unifier.exists_agrees
  refine ⟨κ, agrees, ?_⟩
  obtain ⟨rank, ranked⟩ := valid.acyclic
  intro id
  induction h : rank id using Nat.strongRecOn generalizing id with
  | _ _ ih =>
    subst h
    cases bound : session.unifier.bindings session.arena id with
    | none => rw [resolves.free id bound]; rfl
    | some t =>
      obtain ⟨ty, isBound, rfl⟩ := Unifier.exists_of_bindings bound
      rw [resolves.bound id _ bound, sort_bind_of_occurs fun u occurs =>
        ih _ (ranked id _ bound u occurs) u rfl]
      exact valid.kinded κ agrees id ty isBound

/-- Unification of two well-kinded types in a reachable session terminates. It succeeds only with a
most general extension of the substitution of the session that makes the types equal as finite
trees, and it fails only when no extension that keeps kinds makes them equal. -/
theorem unify_mostGeneral {session : Session} (reachable : session.Reachable) (left right : TypeId)
    (leftKinded : session.WellKinded left) (rightKinded : session.WellKinded right) :
    ∃ outcome unifier σ τ,
      (∃ fuel, session.unifier.unify fuel session.arena session.kinds left right =
        some (outcome, unifier)) ∧
      (∀ fuel result, session.unifier.unify fuel session.arena session.kinds left right =
        some result → result = (outcome, unifier)) ∧
      session.IsSubstitution σ ∧ IsSubstitution { session with unifier } τ ∧
      (outcome = .ok () → Extends σ τ ∧ session.Equates τ left right ∧ session.KindRespecting τ ∧
        ∀ θ, session.KindRespecting θ → Extends σ θ → session.Equates θ left right → Extends τ θ) ∧
      (outcome ≠ .ok () → ∀ θ, session.KindRespecting θ → Extends σ θ →
        ¬ session.Equates θ left right) := by
  have valid := reachable.valid
  obtain ⟨fuel, ⟨outcome, unifier⟩, returned⟩ := Unifier.unify_total valid leftKinded.lt rightKinded.lt
    (leftKinded.treeKinded valid) (rightKinded.treeKinded valid)
  have answers := Unifier.unify_spec valid leftKinded.lt rightKinded.lt returned
  have validAfter : Valid { session with unifier } := answers.valid
  obtain ⟨σ, resolves⟩ := valid.acyclic.exists_resolves
  obtain ⟨τ, resolvesAfter⟩ := validAfter.acyclic.exists_resolves
  have solves_iff : ∀ θ, Solves θ (session.unifier.bindings session.arena) ↔ Extends σ θ :=
    fun θ => valid.acyclic.solves_iff resolves
  have unifies_iff : ∀ θ, Unifies θ (Unifier.treePairs session.arena [(left, right)]) ↔
      session.Equates θ left right := fun θ => by simp [Unifier.treePairs, Equates]
  refine ⟨outcome, unifier, σ, τ, ⟨fuel, returned⟩, ?_, valid.isSubstitution resolves,
    validAfter.isSubstitution resolvesAfter, ?_, ?_⟩
  · intro fuel' result returned'
    have first := Unifier.unify_mono (le_max_left fuel fuel') returned
    have second := Unifier.unify_mono (le_max_right fuel fuel') returned'
    exact Option.some.inj (second.symm.trans first)
  · intro success
    have solved := answers.solved success
    obtain ⟨solves, equal⟩ := (solved τ).mp resolvesAfter.solves
    obtain ⟨κ, agrees, respects⟩ := validAfter.kindRespecting resolvesAfter
    refine ⟨(solves_iff τ).mp solves, (unifies_iff τ).mp equal,
      ⟨κ, agrees.of_metaKind answers.metaKind, respects⟩, ?_⟩
    intro θ _ extending equates
    have solution := (solved θ).mpr ⟨(solves_iff θ).mpr extending, (unifies_iff θ).mpr equates⟩
    exact (validAfter.acyclic.solves_iff resolvesAfter).mp solution
  · rintro failure θ ⟨κ, agrees, respects⟩ extending equates
    exact answers.refused failure κ θ agrees respects ((solves_iff θ).mpr extending)
      ((unifies_iff θ).mpr equates)

/-- A session with one metavariable and the type `Int`. -/
def metaAndInt : Session :=
  ⟨.default, ⟨[.metavar 0, .constructor "Int" KindArena.TYPE]⟩, ⟨[⟨KindArena.TYPE, none⟩], []⟩⟩

theorem metaAndInt_reachable : metaAndInt.Reachable := by
  have fresh : Call initial ⟨.default, ⟨[.metavar 0]⟩, ⟨[⟨KindArena.TYPE, none⟩], []⟩⟩ :=
    @Call.fresh initial KindArena.TYPE 0 _ _ rfl
  have int : Call ⟨.default, ⟨[.metavar 0]⟩, ⟨[⟨KindArena.TYPE, none⟩], []⟩⟩ metaAndInt :=
    @Call.intern _ (.constructor "Int" KindArena.TYPE) 1 _ rfl (by simp [TypeNode.children]) rfl
  exact .tail (.single fresh) int

/-- Unifying the metavariable with `Int` binds it to `Int`. -/
theorem unify_metaAndInt : ∃ unifier τ,
    metaAndInt.unifier.unify 4 metaAndInt.arena metaAndInt.kinds 0 1 = some (.ok (), unifier) ∧
      IsSubstitution { metaAndInt with unifier } τ ∧
      τ 0 = .leaf (.constructor "Int" KindArena.TYPE) := by
  obtain ⟨outcome, unifier, σ, τ, _, unique, _, after, success, _⟩ :=
    unify_mostGeneral metaAndInt_reachable 0 1 ⟨2, KindArena.TYPE, rfl⟩
      ⟨2, KindArena.TYPE, rfl⟩
  obtain ⟨rfl, rfl⟩ := Prod.mk.inj (unique 4 _ rfl)
  exact ⟨_, τ, rfl, after, (success rfl).2.1⟩

end Session

end HellRs.Types
