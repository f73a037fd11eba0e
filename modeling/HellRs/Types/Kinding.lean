import HellRs.Types.Tree

/-! # `kind_of` computes the kind of the tree

The work list of `kind_of` is read as a continuation: `pending` says which kind the remaining work
will produce. Every turn keeps that kind, an error and a panic mean that there is none.
-/

namespace HellRs.Types.TypeArena

open Loop Term

variable {arena : TypeArena} {kinds : KindArena} {metaKinds : MetaId → Option KindId}
  {κ : MetaId → KindId}

/-- The kind that the remaining work produces, if it does. -/
def pending (arena : TypeArena) (kinds : KindArena) (κ : MetaId → KindId) :
    List KindWork → List KindId → Option KindId
  | [], results => results.head?
  | .visit ty :: work, results => do
      let kind ← kinds.kind κ (arena.tree ty)
      pending arena kinds κ work (kind :: results)
  | .function :: work, result :: argument :: results => do
      let kind ← kinds.sorting.node .function argument result
      pending arena kinds κ work (kind :: results)
  | .row :: work, tail :: field :: results => do
      let kind ← kinds.sorting.node (.rowCons "") field tail
      pending arena kinds κ work (kind :: results)
  | .apply :: work, argument :: function :: results => do
      let kind ← kinds.sorting.node .apply function argument
      pending arena kinds κ work (kind :: results)
  | _ :: _, _ => none

/-- Every visited identifier is a position of the arena. -/
def VisitsAllocated (arena : TypeArena) (work : List KindWork) : Prop :=
  ∀ ty, KindWork.visit ty ∈ work → ty < arena.nodes.length

/-- Twice the symbols left to visit, and one for every other entry. -/
def kindWeight (arena : TypeArena) : List KindWork → ℕ
  | [] => 0
  | .visit ty :: work => 2 * (arena.tree ty).size + kindWeight arena work
  | _ :: work => 1 + kindWeight arena work

/-- What one turn of `kind_of` means for the kind that is pending. -/
def KeepsPending (arena : TypeArena) (kinds : KindArena) (κ : MetaId → KindId)
    (state : List KindWork × List KindId) :
    Option (Turn (List KindWork × List KindId) (Except TypeError KindId)) → Prop
  | none => arena.pending kinds κ state.1 state.2 = none
  | some (.again next) =>
      arena.pending kinds κ next.1 next.2 = arena.pending kinds κ state.1 state.2 ∧
        arena.VisitsAllocated next.1 ∧ arena.kindWeight next.1 < arena.kindWeight state.1
  | some (.leave (.ok kind)) => arena.pending kinds κ state.1 state.2 = some kind
  | some (.leave (.error _)) => arena.pending kinds κ state.1 state.2 = none

private theorem requireKinds_none {argument argumentKind result resultKind : KindId} :
    requireKinds argument argumentKind result resultKind = none ↔
      argument = argumentKind ∧ result = resultKind := by
  simp only [requireKinds]
  split <;> simp_all

private theorem visit_keeps (wellFounded : arena.WellFounded)
    (known : ∀ id m, arena.get id = some (.metavar m) → metaKinds m = some (κ m)) {ty : TypeId}
    {work : List KindWork} {results : List KindId}
    (allocated : arena.VisitsAllocated (.visit ty :: work)) :
    KeepsPending arena kinds κ (.visit ty :: work, results)
      (arena.kindTurn kinds metaKinds (.visit ty :: work, results)) := by
  obtain ⟨node, found⟩ := exists_get (allocated ty (List.mem_cons_self ..))
  have shape := wellFounded.tree_eq found
  have below : ∀ child ∈ node.children, child < arena.nodes.length := fun child member =>
    Nat.lt_trans (wellFounded ty node found child member) (get_lt found)
  have rest : arena.VisitsAllocated work := fun ty member =>
    allocated ty (List.mem_cons_of_mem _ member)
  have split : ∀ first second tail, (∀ ty, tail ≠ KindWork.visit ty) →
      first ∈ node.children → second ∈ node.children →
      arena.VisitsAllocated (.visit first :: .visit second :: tail :: work) := by
    intro first second tail plain isFirst isSecond ty member
    simp only [List.mem_cons, KindWork.visit.injEq] at member
    rcases member with rfl | rfl | same | member
    · exact below _ isFirst
    · exact below _ isSecond
    · exact absurd same.symm (plain ty)
    · exact rest ty member
  cases node with
  | metavar id =>
    have kind := known ty id found
    simp only [kindTurn, found, kind, Option.bind_eq_bind, Option.bind_some, KeepsPending, pending,
      shape, TypeNode.tree, Term.sort, kindWeight, Term.size]
    exact ⟨trivial, rest, by omega⟩
  | bound index =>
    simp [kindTurn, found, KeepsPending, pending, shape, TypeNode.tree, Term.sort, KindArena.sorting]
  | constructor name kind =>
    simp only [kindTurn, found, Option.bind_eq_bind, Option.bind_some, KeepsPending, pending,
      shape, TypeNode.tree, Term.sort, KindArena.sorting, kindWeight, Term.size]
    exact ⟨trivial, rest, by omega⟩
  | symbol text =>
    simp only [kindTurn, found, Option.bind_eq_bind, Option.bind_some, KeepsPending, pending,
      shape, TypeNode.tree, Term.sort, KindArena.sorting, kindWeight, Term.size]
    exact ⟨trivial, rest, by omega⟩
  | rowNil =>
    simp only [kindTurn, found, Option.bind_eq_bind, Option.bind_some, KeepsPending, pending,
      shape, TypeNode.tree, Term.sort, KindArena.sorting, kindWeight, Term.size]
    exact ⟨trivial, rest, by omega⟩
  | apply head argument =>
    simp only [kindTurn, found, Option.bind_eq_bind, Option.bind_some, KeepsPending, pending,
      shape, TypeNode.tree, Term.sort, kindWeight, Term.size, Option.bind_assoc]
    exact ⟨trivial, split head argument .apply (by rintro _ ⟨⟩) (by simp [TypeNode.children])
      (by simp [TypeNode.children]), by omega⟩
  | function argument result =>
    simp only [kindTurn, found, Option.bind_eq_bind, Option.bind_some, KeepsPending, pending,
      shape, TypeNode.tree, Term.sort, kindWeight, Term.size, Option.bind_assoc]
    exact ⟨trivial, split argument result .function (by rintro _ ⟨⟩) (by simp [TypeNode.children])
      (by simp [TypeNode.children]), by omega⟩
  | rowCons label field tail =>
    simp only [kindTurn, found, Option.bind_eq_bind, Option.bind_some, KeepsPending, pending,
      shape, TypeNode.tree, Term.sort, kindWeight, Term.size, Option.bind_assoc]
    exact ⟨rfl, split field tail .row (by rintro _ ⟨⟩) (by simp [TypeNode.children])
      (by simp [TypeNode.children]), by omega⟩

/-- The step lemma of `kind_of`. -/
private theorem kindTurn_keeps (kinds : KindArena) (wellFounded : arena.WellFounded)
    (known : ∀ id m, arena.get id = some (.metavar m) → metaKinds m = some (κ m))
    (state : List KindWork × List KindId) (allocated : arena.VisitsAllocated state.1) :
    KeepsPending arena kinds κ state (arena.kindTurn kinds metaKinds state) := by
  obtain ⟨work, results⟩ := state
  cases work with
  | nil => cases results <;> simp [kindTurn, KeepsPending, pending]
  | cons entry work =>
    have rest : arena.VisitsAllocated work := fun ty member =>
      allocated ty (List.mem_cons_of_mem _ member)
    cases entry with
    | visit ty => exact visit_keeps wellFounded known allocated
    | function =>
      rcases results with _ | ⟨result, _ | ⟨argument, results⟩⟩
      · simp [kindTurn, KeepsPending, pending]
      · simp [kindTurn, KeepsPending, pending]
      · simp only [kindTurn]
        cases required : requireKinds argument KindArena.TYPE result KindArena.TYPE with
        | none =>
          obtain ⟨rfl, rfl⟩ := requireKinds_none.mp required
          simpa [KeepsPending, pending, KindArena.sorting, kindWeight] using rest
        | some failure =>
          have differ := mt requireKinds_none.mpr (by rw [required]; nofun)
          simp [KeepsPending, pending, KindArena.sorting, differ]
    | row =>
      rcases results with _ | ⟨tail, _ | ⟨field, results⟩⟩
      · simp [kindTurn, KeepsPending, pending]
      · simp [kindTurn, KeepsPending, pending]
      · simp only [kindTurn]
        cases required : requireKinds field KindArena.TYPE tail KindArena.ROW with
        | none =>
          obtain ⟨rfl, rfl⟩ := requireKinds_none.mp required
          simpa [KeepsPending, pending, KindArena.sorting, kindWeight] using rest
        | some failure =>
          have differ := mt requireKinds_none.mpr (by rw [required]; nofun)
          simp [KeepsPending, pending, KindArena.sorting, differ]
    | apply =>
      rcases results with _ | ⟨argument, _ | ⟨function, results⟩⟩
      · simp [kindTurn, KeepsPending, pending]
      · simp [kindTurn, KeepsPending, pending]
      · simp only [kindTurn]
        cases arrow : kinds.get function with
        | none => simp [KeepsPending, pending, KindArena.sorting, arrow]
        | some node =>
          cases node with
          | arrow expected result =>
            by_cases same : expected = argument
            · simpa [KeepsPending, pending, KindArena.sorting, arrow, same, kindWeight] using rest
            · simp [KeepsPending, pending, KindArena.sorting, arrow, same]
          | _ => simp [KeepsPending, pending, KindArena.sorting, arrow]

private theorem pending_visit (ty : TypeId) :
    arena.pending kinds κ [.visit ty] [] = kinds.kind κ (arena.tree ty) := by
  cases kind : kinds.kind κ (arena.tree ty) <;> simp [pending, kind]

private theorem visitsAllocated_single {ty : TypeId} (allocated : ty < arena.nodes.length) :
    arena.VisitsAllocated [.visit ty] := by
  intro other member
  obtain rfl := KindWork.visit.inj (List.mem_singleton.mp member)
  exact allocated

/-- `kind_of` returns the kind of a well-kinded tree and an error for every other one. -/
theorem kindOf_eq (wellFounded : arena.WellFounded)
    (known : ∀ id m, arena.get id = some (.metavar m) → metaKinds m = some (κ m)) {ty : TypeId}
    (allocated : ty < arena.nodes.length) {fuel : ℕ} {result : Except TypeError KindId}
    (returned : arena.kindOf fuel kinds metaKinds ty = some result) :
    kinds.kind κ (arena.tree ty) = result.toOption := by
  rw [← pending_visit]
  exact run_invariant
    (fun state => arena.VisitsAllocated state.1 ∧
      arena.pending kinds κ state.1 state.2 = arena.pending kinds κ [.visit ty] [])
    (fun result => arena.pending kinds κ [.visit ty] [] = result.toOption)
    (fun state next holds again => by
      have keeps := kindTurn_keeps kinds wellFounded known state holds.1
      rw [again] at keeps
      exact ⟨keeps.2.1, keeps.1.trans holds.2⟩)
    (fun state result holds leave => by
      have keeps := kindTurn_keeps kinds wellFounded known state holds.1
      rw [leave] at keeps
      cases result with
      | error _ => exact holds.2.symm.trans keeps
      | ok _ => exact holds.2.symm.trans keeps)
    ⟨visitsAllocated_single allocated, rfl⟩ returned

/-- `kind_of` finds the kind of a well-kinded tree. -/
theorem kindOf_complete (wellFounded : arena.WellFounded)
    (known : ∀ id m, arena.get id = some (.metavar m) → metaKinds m = some (κ m)) {ty : TypeId}
    (allocated : ty < arena.nodes.length) {kind : KindId}
    (wellKinded : kinds.kind κ (arena.tree ty) = some kind) :
    ∃ fuel, arena.kindOf fuel kinds metaKinds ty = some (.ok kind) := by
  obtain ⟨value, ⟨fuel, returned⟩, rfl⟩ := returns_total (arena.kindTurn kinds metaKinds)
    (fun state => arena.VisitsAllocated state.1 ∧
      arena.pending kinds κ state.1 state.2 = some kind)
    (fun result => result = .ok kind) (fun state => arena.kindWeight state.1)
    (fun state holds => by
      have keeps := kindTurn_keeps kinds wellFounded known state holds.1
      cases result : arena.kindTurn kinds metaKinds state with
      | none => rw [result] at keeps; exact absurd (holds.2.symm.trans keeps) nofun
      | some effect =>
        rw [result] at keeps
        cases effect with
        | again next => exact .inl ⟨next, rfl, ⟨keeps.2.1, keeps.1.trans holds.2⟩, keeps.2.2⟩
        | leave value =>
          cases value with
          | error _ => exact absurd (holds.2.symm.trans keeps) nofun
          | ok found =>
            exact .inr ⟨_, rfl, congrArg Except.ok (Option.some.inj (keeps.symm.trans holds.2))⟩)
    ([.visit ty], []) ⟨visitsAllocated_single allocated, by rw [pending_visit, wellKinded]⟩
  exact ⟨fuel, returned⟩

end HellRs.Types.TypeArena
