import HellRs.Types.OccursCheck

/-! # Unification computes most general unifiers

Every turn of the work list of `unify` keeps the set of substitutions that solve the bindings and
unify the pending pairs. When the list is empty that set is the set of solutions of the bindings
alone, whose resolving substitution is the most general one; when a pair is refused, no substitution
that keeps kinds is left.
-/

namespace HellRs.Types.Unifier

open Loop Term Unification

variable {kinds : KindArena} {arena : TypeArena} {origin : Unifier} {pairs : List (TypeId × TypeId)}

/-- The trees of a work list. -/
def treePairs (arena : TypeArena) (work : List (TypeId × TypeId)) : List (Tree × Tree) :=
  work.map fun pair => (arena.tree pair.1, arena.tree pair.2)

/-- The tree of the type has a kind. -/
def TreeKinded (kinds : KindArena) (arena : TypeArena) (unifier : Unifier) (ty : TypeId) : Prop :=
  ∃ κ kind, unifier.Agrees κ ∧ kinds.kind κ (arena.tree ty) = some kind

/-- Both sides of every pair have a kind, not necessarily the same. -/
def PairsKinded (kinds : KindArena) (arena : TypeArena) (unifier : Unifier)
    (work : List (TypeId × TypeId)) : Prop :=
  ∀ pair ∈ work, TreeKinded kinds arena unifier pair.1 ∧ TreeKinded kinds arena unifier pair.2

/-- The invariant of the work list of `unify`, started from the unifier `origin` and `pairs`. -/
structure Unifying (kinds : KindArena) (arena : TypeArena) (origin : Unifier)
    (pairs : List (TypeId × TypeId)) (state : Unifier × List (TypeId × TypeId)) : Prop where
  valid : Valid kinds arena state.1
  metaKind : state.1.metaKind = origin.metaKind
  allocated : ∀ pair ∈ state.2, pair.1 < arena.nodes.length ∧ pair.2 < arena.nodes.length
  kinded : PairsKinded kinds arena origin pairs → PairsKinded kinds arena origin state.2
  solutions : ∀ θ, Solves θ (state.1.bindings arena) ∧ Unifies θ (treePairs arena state.2) ↔
    Solves θ (origin.bindings arena) ∧ Unifies θ (treePairs arena pairs)

/-- What an answer of `unify` means for the solutions. -/
structure Answers (kinds : KindArena) (arena : TypeArena) (origin : Unifier)
    (pairs : List (TypeId × TypeId)) (outcome : Except TypeError Unit) (after : Unifier) : Prop where
  valid : Valid kinds arena after
  metaKind : after.metaKind = origin.metaKind
  solved : outcome = .ok () → ∀ θ, Solves θ (after.bindings arena) ↔
    Solves θ (origin.bindings arena) ∧ Unifies θ (treePairs arena pairs)
  refused : outcome ≠ .ok () → ∀ κ θ, origin.Agrees κ → Respects kinds.sorting κ θ →
    Solves θ (origin.bindings arena) → ¬ Unifies θ (treePairs arena pairs)

/-- The substitution that resolves the bindings. -/
noncomputable def resolver (unifier : Unifier) (arena : TypeArena) : TypeSubst :=
  Classical.epsilon fun σ => Resolves σ (unifier.bindings arena)

theorem Valid.resolver {unifier : Unifier} (valid : Valid kinds arena unifier) :
    Resolves (unifier.resolver arena) (unifier.bindings arena) :=
  Classical.epsilon_spec valid.acyclic.exists_resolves

theorem Compressed.resolver_eq {unifier compressed : Unifier} (valid : Valid kinds arena unifier)
    (compress : Compressed kinds arena unifier compressed) :
    compressed.resolver arena = unifier.resolver arena :=
  compress.valid.acyclic.resolves_unique compress.valid.resolver (compress.resolves _ valid.resolver)

/-- Number of symbols of the resolved work list. -/
def pairsSize (arena : TypeArena) (σ : TypeSubst) (work : List (TypeId × TypeId)) : ℕ :=
  (work.map fun pair => (resolved arena σ pair.1).size + (resolved arena σ pair.2).size).sum

/-- Free metavariables first, then the size of the resolved work list. -/
noncomputable def unifyWeight (arena : TypeArena) (state : Unifier × List (TypeId × TypeId)) :
    ℕ × ℕ :=
  (state.1.unboundMetas.card, pairsSize arena (state.1.resolver arena) state.2)

/-- What one turn of `unify` means. -/
def UnifyEffect (kinds : KindArena) (arena : TypeArena) (origin : Unifier)
    (pairs : List (TypeId × TypeId)) (state : Unifier × List (TypeId × TypeId)) :
    Turn (Unifier × List (TypeId × TypeId)) (Except TypeError Unit × Unifier) → Prop
  | .again next => Unifying kinds arena origin pairs next ∧
      Prod.Lex (· < ·) (· < ·) (unifyWeight arena next) (unifyWeight arena state)
  | .leave (outcome, after) => Answers kinds arena origin pairs outcome after

theorem TreeKinded.child {unifier : Unifier} {ty left right : TypeId} {symbol : TypeBinary}
    (kinded : TreeKinded kinds arena unifier ty)
    (shape : arena.tree ty = .node symbol (arena.tree left) (arena.tree right)) :
    TreeKinded kinds arena unifier left ∧ TreeKinded kinds arena unifier right := by
  obtain ⟨κ, kind, agrees, sorted⟩ := kinded
  rw [shape] at sorted
  obtain ⟨leftSome, rightSome⟩ := sort_node_isSome (Option.isSome_of_eq_some sorted)
  obtain ⟨leftKind, leftSorted⟩ := Option.isSome_iff_exists.mp leftSome
  obtain ⟨rightKind, rightSorted⟩ := Option.isSome_iff_exists.mp rightSome
  exact ⟨⟨κ, leftKind, agrees, leftSorted⟩, ⟨κ, rightKind, agrees, rightSorted⟩⟩

/-- What the case that `unify` takes says about the two nodes. -/
def StepMeaning (left right : TypeId) (leftNode rightNode : TypeNode) (denote : TypeId → Tree) :
    PairStep → Prop
  | .bind id ty => (leftNode = .metavar id ∧ ty = right) ∨ (rightNode = .metavar id ∧ ty = left)
  | .split first second => ∃ symbol,
      leftNode.tree denote = .node symbol (denote first.1) (denote second.1) ∧
      rightNode.tree denote = .node symbol (denote first.2) (denote second.2) ∧
      leftNode.children = [first.1, second.1] ∧ rightNode.children = [first.2, second.2]
  | .skip => leftNode = rightNode
  | .clash => ∀ θ : TypeSubst, (leftNode.tree denote).bind θ ≠ (rightNode.tree denote).bind θ

theorem pairStep_meaning (left right : TypeId) (leftNode rightNode : TypeNode)
    (denote : TypeId → Tree) :
    StepMeaning left right leftNode rightNode denote (pairStep left right leftNode rightNode) := by
  cases leftNode with
  | metavar id => exact .inl ⟨rfl, rfl⟩
  | rowCons l₁ f₁ t₁ =>
    cases rightNode with
    | metavar id => exact .inr ⟨rfl, rfl⟩
    | rowCons l₂ f₂ t₂ =>
      by_cases same : l₁ = l₂
      · subst same
        simp [pairStep, StepMeaning, TypeNode.tree, TypeNode.children]
      · simp [pairStep, StepMeaning, TypeNode.tree, same]
    | _ => simp [pairStep, StepMeaning, TypeNode.tree]
  | apply a₁ b₁ =>
    cases rightNode <;> simp [pairStep, StepMeaning, TypeNode.tree, TypeNode.children]
  | function a₁ b₁ =>
    cases rightNode <;> simp [pairStep, StepMeaning, TypeNode.tree, TypeNode.children]
  | bound index =>
    cases rightNode with
    | metavar id => exact .inr ⟨rfl, rfl⟩
    | bound index' =>
      by_cases same : index = index' <;> simp [pairStep, StepMeaning, TypeNode.tree, same]
    | _ => simp [pairStep, StepMeaning, TypeNode.tree]
  | constructor name kind =>
    cases rightNode with
    | metavar id => exact .inr ⟨rfl, rfl⟩
    | constructor name' kind' =>
      by_cases same : name = name' ∧ kind = kind'
      · simp [pairStep, StepMeaning, same]
      · simp [pairStep, StepMeaning, TypeNode.tree, same]
    | _ => simp [pairStep, StepMeaning, TypeNode.tree]
  | symbol text =>
    cases rightNode with
    | metavar id => exact .inr ⟨rfl, rfl⟩
    | symbol text' =>
      by_cases same : text = text' <;> simp [pairStep, StepMeaning, TypeNode.tree, same]
    | _ => simp [pairStep, StepMeaning, TypeNode.tree]
  | rowNil => cases rightNode <;> simp [pairStep, StepMeaning, TypeNode.tree]

/-- A turn of `unify` after both sides of the topmost pair are pruned. -/
structure PrunedPair (kinds : KindArena) (arena : TypeArena) (origin : Unifier)
    (pairs : List (TypeId × TypeId)) (before after : Unifier) (first : TypeId × TypeId)
    (work : List (TypeId × TypeId)) (left right : TypeId) : Prop where
  unifying : Unifying kinds arena origin pairs (before, first :: work)
  compressed : Compressed kinds arena before after
  leftAllocated : left < arena.nodes.length
  rightAllocated : right < arena.nodes.length
  leftPruned : Pruned arena after left
  rightPruned : Pruned arena after right
  leftFollows : Follows (before.bindings arena) (arena.tree first.1) (arena.tree left)
  rightSame : ∀ θ, Solves θ (before.bindings arena) →
    (arena.tree first.2).bind θ = (arena.tree right).bind θ
  kinded : PairsKinded kinds arena origin (first :: work) →
    TreeKinded kinds arena origin left ∧ TreeKinded kinds arena origin right

private theorem TreeKinded.of_follows {unifier : Unifier} (valid : Valid kinds arena unifier)
    (same : unifier.metaKind = origin.metaKind) {ty ty' : TypeId}
    (follows : Follows (unifier.bindings arena) (arena.tree ty) (arena.tree ty'))
    (kinded : TreeKinded kinds arena origin ty) : TreeKinded kinds arena origin ty' := by
  obtain ⟨κ, kind, agrees, sorted⟩ := kinded
  exact ⟨κ, kind, agrees,
    (valid.kind_eq_of_follows (agrees.of_metaKind same.symm) follows).symm.trans sorted⟩

private theorem PrunedPair.of_prunes {before first second : Unifier} {pair : TypeId × TypeId}
    {work : List (TypeId × TypeId)} {left right : TypeId}
    (unifying : Unifying kinds arena origin pairs (before, pair :: work))
    (pruneLeft : Prunes kinds arena before pair.1 (left, first))
    (pruneRight : Prunes kinds arena first pair.2 (right, second)) :
    PrunedPair kinds arena origin pairs before second pair work left right where
  unifying := unifying
  compressed := pruneLeft.compressed.trans pruneRight.compressed
  leftAllocated := pruneLeft.allocated
  rightAllocated := pruneRight.allocated
  leftPruned id here := (pruneRight.compressed.unbound id).mpr (pruneLeft.pruned id here)
  rightPruned := pruneRight.pruned
  leftFollows := pruneLeft.follows
  rightSame θ solves :=
    ((pruneLeft.compressed.solves_iff unifying.valid).mpr solves).bind_eq_of_follows pruneRight.follows
  kinded kinded := by
    obtain ⟨leftKinded, rightKinded⟩ := kinded pair (List.mem_cons_self ..)
    exact ⟨leftKinded.of_follows unifying.valid unifying.metaKind pruneLeft.follows,
      rightKinded.of_follows pruneLeft.compressed.valid
        (pruneLeft.compressed.metaKind.trans unifying.metaKind) pruneRight.follows⟩

variable {before after : Unifier} {first : TypeId × TypeId} {work : List (TypeId × TypeId)}
  {left right : TypeId}

/-- Pruning the topmost pair changes no solution. -/
private theorem PrunedPair.solutions
    (pair : PrunedPair kinds arena origin pairs before after first work left right) (θ : TypeSubst) :
    (Solves θ (after.bindings arena) ∧ (arena.tree left).bind θ = (arena.tree right).bind θ ∧
        Unifies θ (treePairs arena work)) ↔
      Solves θ (origin.bindings arena) ∧ Unifies θ (treePairs arena pairs) := by
  rw [← pair.unifying.solutions θ, pair.compressed.solves_iff pair.unifying.valid]
  apply and_congr_right
  intro solves
  simp only [treePairs, List.map_cons, unifies_cons]
  rw [solves.bind_eq_of_follows pair.leftFollows, pair.rightSame θ solves]

/-- The next state of `unify`, from an equivalence of its solutions with those of the pruned pair. -/
private theorem PrunedPair.advance
    (pair : PrunedPair kinds arena origin pairs before after first work left right)
    {next : Unifier} (added : List (TypeId × TypeId)) (valid : Valid kinds arena next)
    (metaKind : next.metaKind = after.metaKind)
    (allocated : ∀ pair ∈ added, pair.1 < arena.nodes.length ∧ pair.2 < arena.nodes.length)
    (kinded : TreeKinded kinds arena origin left → TreeKinded kinds arena origin right →
      PairsKinded kinds arena origin added)
    (same : ∀ θ, Solves θ (next.bindings arena) ∧ Unifies θ (treePairs arena added) ↔
      Solves θ (after.bindings arena) ∧ (arena.tree left).bind θ = (arena.tree right).bind θ) :
    Unifying kinds arena origin pairs (next, added ++ work) where
  valid := valid
  metaKind := metaKind.trans (pair.compressed.metaKind.trans pair.unifying.metaKind)
  allocated other member := by
    rcases List.mem_append.mp member with member | member
    · exact allocated other member
    · exact pair.unifying.allocated other (List.mem_cons_of_mem _ member)
  kinded all other member := by
    have here := pair.unifying.kinded all
    rcases List.mem_append.mp member with member | member
    · exact kinded (pair.kinded here).1 (pair.kinded here).2 other member
    · exact here other (List.mem_cons_of_mem _ member)
  solutions θ := by
    rw [← pair.solutions θ, ← and_assoc, ← same θ, and_assoc]
    apply and_congr_right
    intro _
    simp only [treePairs, List.map_append, Unifies, List.mem_append, or_imp, forall_and]

private theorem pairsSize_cons (σ : TypeSubst) (pair : TypeId × TypeId)
    (work : List (TypeId × TypeId)) : pairsSize arena σ (pair :: work) =
      (resolved arena σ pair.1).size + (resolved arena σ pair.2).size + pairsSize arena σ work := by
  simp [pairsSize]

/-- Without a new binding the work list must lose symbols. -/
private theorem PrunedPair.lighter
    (pair : PrunedPair kinds arena origin pairs before after first work left right)
    {next : List (TypeId × TypeId)}
    (less : ∀ σ, Resolves σ (after.bindings arena) → pairsSize arena σ next <
      (resolved arena σ left).size + (resolved arena σ right).size + pairsSize arena σ work) :
    Prod.Lex (· < ·) (· < ·) (unifyWeight arena (after, next))
      (unifyWeight arena (before, first :: work)) := by
  have valid := pair.unifying.valid
  simp only [unifyWeight, pair.compressed.unboundMetas_eq, pair.compressed.resolver_eq valid]
  apply Prod.Lex.right
  have solves := valid.resolver.solves
  have sameLeft : resolved arena (before.resolver arena) first.1 =
      resolved arena (before.resolver arena) left := solves.bind_eq_of_follows pair.leftFollows
  have sameRight : resolved arena (before.resolver arena) first.2 =
      resolved arena (before.resolver arena) right := pair.rightSame _ solves
  rw [pairsSize_cons, sameLeft, sameRight]
  exact less _ (pair.compressed.resolves _ valid.resolver)

private theorem unifies_single {θ : TypeSubst} {ty ty' : TypeId} :
    Unifies θ (treePairs arena [(ty, ty')]) ↔ (arena.tree ty).bind θ = (arena.tree ty').bind θ := by
  simp [treePairs]

/-- The turn that binds a free metavariable. -/
private theorem PrunedPair.bind
    (pair : PrunedPair kinds arena origin pairs before after first work left right) {id : MetaId}
    {ty : TypeId} (unbound : after.binding id = some none) (allocated : ty < arena.nodes.length)
    (pruned : Pruned arena after ty) (other : arena.get ty ≠ some (.metavar id))
    (same : ∀ θ : TypeSubst, (arena.tree left).bind θ = (arena.tree right).bind θ ↔
      θ id = (arena.tree ty).bind θ) {fuel : ℕ} {outcome : Except TypeError Unit} {bound : Unifier}
    (returned : after.bind fuel arena kinds id ty = some (outcome, bound))
    {effect : Turn (Unifier × List (TypeId × TypeId)) (Except TypeError Unit × Unifier)}
    (fails : ∀ failure, outcome = .error failure → effect = .leave (.error failure, bound))
    (succeeds : outcome = .ok () → effect = .again (bound, work)) :
    UnifyEffect kinds arena origin pairs (before, first :: work) effect := by
  have meaning := bind_spec pair.compressed.valid unbound allocated pruned other returned
  cases outcome with
  | error failure =>
    rw [fails failure rfl]
    refine ⟨meaning.valid, meaning.metaKind.trans (pair.compressed.metaKind.trans
      pair.unifying.metaKind), nofun, fun _ κ θ agrees respects solves unifies => ?_⟩
    obtain ⟨here, equal, _⟩ := (pair.solutions θ).mpr ⟨solves, unifies⟩
    have agreesAfter : after.Agrees κ :=
      agrees.of_metaKind (pair.compressed.metaKind.trans pair.unifying.metaKind).symm
    exact meaning.refused nofun κ θ agreesAfter respects here ((same θ).mp equal)
  | ok _ =>
    obtain ⟨fewer, solutions⟩ := meaning.bound rfl
    rw [succeeds rfl]
    constructor
    · refine pair.advance [] meaning.valid meaning.metaKind (by simp)
        (fun _ _ _ member => by cases member) fun θ => ?_
      simp only [treePairs, List.map_nil, unifies_nil, and_true]
      rw [solutions θ, same θ]
    · apply Prod.Lex.left
      rw [← pair.compressed.unboundMetas_eq]
      exact Finset.card_lt_card fewer

/-- The turn that replaces two binary nodes by the pairs of their children. -/
private theorem PrunedPair.split
    (pair : PrunedPair kinds arena origin pairs before after first work left right)
    {symbol : TypeBinary} {one two : TypeId × TypeId}
    (leftShape : arena.tree left = .node symbol (arena.tree one.1) (arena.tree two.1))
    (rightShape : arena.tree right = .node symbol (arena.tree one.2) (arena.tree two.2))
    (allocated : ∀ pair ∈ [one, two], pair.1 < arena.nodes.length ∧ pair.2 < arena.nodes.length) :
    UnifyEffect kinds arena origin pairs (before, first :: work) (.again (after, one :: two :: work)) := by
  constructor
  · refine pair.advance [one, two] pair.compressed.valid rfl allocated ?_ fun θ => ?_
    · intro leftKinded rightKinded other member
      obtain ⟨one₁, two₁⟩ := leftKinded.child leftShape
      obtain ⟨one₂, two₂⟩ := rightKinded.child rightShape
      simp only [List.mem_cons, List.not_mem_nil, or_false] at member
      rcases member with rfl | rfl
      · exact ⟨one₁, one₂⟩
      · exact ⟨two₁, two₂⟩
    · rw [leftShape, rightShape]
      simp [treePairs]
  · apply pair.lighter
    intro σ _
    simp only [pairsSize_cons]
    rw [show (resolved arena σ left).size = (resolved arena σ one.1).size + (resolved arena σ two.1).size + 1
      by rw [resolved, leftShape]; rfl, show (resolved arena σ right).size =
      (resolved arena σ one.2).size + (resolved arena σ two.2).size + 1 by rw [resolved, rightShape]; rfl]
    omega

/-- The turn that drops a pair of equal trees. -/
private theorem PrunedPair.skip
    (pair : PrunedPair kinds arena origin pairs before after first work left right)
    (same : arena.tree left = arena.tree right) :
    UnifyEffect kinds arena origin pairs (before, first :: work) (.again (after, work)) := by
  constructor
  · refine pair.advance [] pair.compressed.valid rfl (by simp)
      (fun _ _ _ member => by cases member) fun θ => ?_
    simp [treePairs, same]
  · apply pair.lighter
    intro σ _
    have := size_pos (resolved arena σ left)
    omega

/-- The turn that refuses two different head symbols. -/
private theorem PrunedPair.clash
    (pair : PrunedPair kinds arena origin pairs before after first work left right)
    (differ : ∀ θ : TypeSubst, (arena.tree left).bind θ ≠ (arena.tree right).bind θ)
    (failure : TypeError) :
    UnifyEffect kinds arena origin pairs (before, first :: work) (.leave (.error failure, after)) := by
  refine ⟨pair.compressed.valid, pair.compressed.metaKind.trans pair.unifying.metaKind, nofun,
    fun _ _ θ _ _ solves unifies => ?_⟩
  obtain ⟨_, equal, _⟩ := (pair.solutions θ).mpr ⟨solves, unifies⟩
  exact differ θ equal

/-- The step lemma of `unify`. -/
theorem unifyTurn_effect {fuel : ℕ} {state : Unifier × List (TypeId × TypeId)}
    (unifying : Unifying kinds arena origin pairs state)
    {effect : Turn (Unifier × List (TypeId × TypeId)) (Except TypeError Unit × Unifier)}
    (turned : unifyTurn fuel arena kinds state = some effect) :
    UnifyEffect kinds arena origin pairs state effect := by
  obtain ⟨before, work⟩ := state
  cases work with
  | nil =>
    obtain rfl := Option.some.inj turned
    refine ⟨unifying.valid, unifying.metaKind, fun _ θ => ?_, fun bad => absurd rfl bad⟩
    simpa [treePairs] using unifying.solutions θ
  | cons first work =>
    obtain ⟨left₀, right₀⟩ := first
    simp only [unifyTurn, Option.bind_eq_bind, Option.bind_eq_some_iff] at turned
    obtain ⟨⟨left, middle⟩, returnedLeft, ⟨right, after⟩, returnedRight, turned⟩ := turned
    obtain ⟨insideLeft, insideRight⟩ := unifying.allocated _ (List.mem_cons_self ..)
    have pruneLeft := prune_spec unifying.valid insideLeft returnedLeft
    have pruneRight := prune_spec pruneLeft.compressed.valid insideRight returnedRight
    have pair := PrunedPair.of_prunes unifying pruneLeft pruneRight
    simp only at turned
    split at turned
    next same =>
      obtain rfl := Option.some.inj turned
      exact pair.skip (by rw [same])
    next differ =>
      simp only [Option.bind_eq_some_iff] at turned
      obtain ⟨leftNode, leftHere, rightNode, rightHere, turned⟩ := turned
      have wellFounded := unifying.valid.wellFounded
      have leftShape := wellFounded.tree_eq leftHere
      have rightShape := wellFounded.tree_eq rightHere
      have meaning := pairStep_meaning left right leftNode rightNode arena.tree
      have single := unifying.valid.single
      split at turned
      next id ty step =>
        rw [step] at meaning
        obtain ⟨⟨outcome, bound⟩, returned, turned⟩ := Option.bind_eq_some_iff.mp turned
        have fails : ∀ failure, outcome = .error failure → effect = .leave (.error failure, bound) := by
          rintro failure rfl; exact (Option.some.inj turned).symm
        have succeeds : outcome = .ok () → effect = .again (bound, work) := by
          rintro rfl; exact (Option.some.inj turned).symm
        rcases meaning with ⟨rfl, rfl⟩ | ⟨rfl, rfl⟩
        · exact pair.bind (pair.leftPruned id leftHere) pair.rightAllocated pair.rightPruned
            (fun same => differ (single _ _ _ leftHere same))
            (fun θ => by rw [leftShape]; rfl) returned fails succeeds
        · exact pair.bind (pair.rightPruned id rightHere) pair.leftAllocated pair.leftPruned
            (fun same => differ (single _ _ _ same rightHere))
            (fun θ => by rw [rightShape, eq_comm]; rfl) returned fails succeeds
      next one two step =>
        rw [step] at meaning
        obtain ⟨symbol, leftTree, rightTree, leftChildren, rightChildren⟩ := meaning
        obtain rfl := Option.some.inj turned
        have belowLeft : ∀ child ∈ leftNode.children, child < arena.nodes.length := fun child member =>
          Nat.lt_trans (wellFounded _ _ leftHere child member) pair.leftAllocated
        have belowRight : ∀ child ∈ rightNode.children, child < arena.nodes.length := fun child member =>
          Nat.lt_trans (wellFounded _ _ rightHere child member) pair.rightAllocated
        refine pair.split (leftShape.trans leftTree) (rightShape.trans rightTree) fun other member => ?_
        simp only [List.mem_cons, List.not_mem_nil, or_false] at member
        rcases member with rfl | rfl
        · exact ⟨belowLeft _ (by simp [leftChildren]), belowRight _ (by simp [rightChildren])⟩
        · exact ⟨belowLeft _ (by simp [leftChildren]), belowRight _ (by simp [rightChildren])⟩
      next step =>
        rw [step] at meaning
        obtain rfl := Option.some.inj turned
        exact pair.skip (by rw [leftShape, rightShape, show leftNode = rightNode from meaning])
      next step =>
        rw [step] at meaning
        obtain rfl := Option.some.inj turned
        exact pair.clash (by rw [leftShape, rightShape]; exact meaning) _

private theorem unifyTurn_mono {fuel fuel' : ℕ} (le : fuel ≤ fuel')
    (state : Unifier × List (TypeId × TypeId))
    (effect : Turn (Unifier × List (TypeId × TypeId)) (Except TypeError Unit × Unifier))
    (turned : unifyTurn fuel arena kinds state = some effect) :
    unifyTurn fuel' arena kinds state = some effect := by
  obtain ⟨before, work⟩ := state
  cases work with
  | nil => exact turned
  | cons first work =>
    simp only [unifyTurn, Option.bind_eq_bind, Option.bind_eq_some_iff] at turned ⊢
    obtain ⟨left, returnedLeft, right, returnedRight, turned⟩ := turned
    refine ⟨left, prune_mono le returnedLeft, right, prune_mono le returnedRight, ?_⟩
    split at turned
    next same => rw [if_pos same]; exact turned
    next differ =>
      rw [if_neg differ]
      simp only [Option.bind_eq_some_iff] at turned ⊢
      obtain ⟨leftNode, leftHere, rightNode, rightHere, turned⟩ := turned
      refine ⟨leftNode, leftHere, rightNode, rightHere, ?_⟩
      split at turned
      next step =>
        obtain ⟨bound, returned, turned⟩ := Option.bind_eq_some_iff.mp turned
        exact Option.bind_eq_some_iff.mpr ⟨bound, bind_mono le returned, turned⟩
      all_goals exact turned

theorem unify_mono {fuel fuel' : ℕ} (le : fuel ≤ fuel') {unifier : Unifier} {left right : TypeId}
    {result : Except TypeError Unit × Unifier}
    (returned : unifier.unify fuel arena kinds left right = some result) :
    unifier.unify fuel' arena kinds left right = some result :=
  run_mono (unifyTurn_mono le) le returned

theorem unifying_root (valid : Valid kinds arena origin)
    (insideLeft : left < arena.nodes.length) (insideRight : right < arena.nodes.length) :
    Unifying kinds arena origin [(left, right)] (origin, [(left, right)]) :=
  ⟨valid, rfl, by simp [insideLeft, insideRight], id, fun _ => Iff.rfl⟩

/-- Whatever `unify` returns answers for the solutions, also on types without a kind. -/
theorem unify_spec (valid : Valid kinds arena origin) (insideLeft : left < arena.nodes.length)
    (insideRight : right < arena.nodes.length) {fuel : ℕ} {outcome : Except TypeError Unit}
    (returned : origin.unify fuel arena kinds left right = some (outcome, after)) :
    Answers kinds arena origin [(left, right)] outcome after :=
  run_invariant (Unifying kinds arena origin [(left, right)])
    (fun result => Answers kinds arena origin [(left, right)] result.1 result.2)
    (fun _ _ unifying again => (unifyTurn_effect unifying again).1)
    (fun _ (_, _) unifying leave => unifyTurn_effect unifying leave)
    (unifying_root valid insideLeft insideRight) returned

/-- A turn on kinded pairs has a result. -/
private theorem unifyTurn_total {state : Unifier × List (TypeId × TypeId)}
    (unifying : Unifying kinds arena origin pairs state)
    (kinded : PairsKinded kinds arena origin pairs) :
    ∃ fuel effect, unifyTurn fuel arena kinds state = some effect := by
  obtain ⟨before, work⟩ := state
  cases work with
  | nil => exact ⟨0, _, rfl⟩
  | cons first work =>
    obtain ⟨left₀, right₀⟩ := first
    obtain ⟨insideLeft, insideRight⟩ := unifying.allocated _ (List.mem_cons_self ..)
    obtain ⟨fuelLeft, ⟨left, middle⟩, returnedLeft⟩ := prune_total unifying.valid insideLeft
    have pruneLeft := prune_spec unifying.valid insideLeft returnedLeft
    obtain ⟨fuelRight, ⟨right, after⟩, returnedRight⟩ :=
      prune_total pruneLeft.compressed.valid insideRight
    have pruneRight := prune_spec pruneLeft.compressed.valid insideRight returnedRight
    have pair := PrunedPair.of_prunes unifying pruneLeft pruneRight
    obtain ⟨leftKinded, rightKinded⟩ := pair.kinded (unifying.kinded kinded)
    obtain ⟨leftNode, leftHere⟩ := TypeArena.exists_get pair.leftAllocated
    obtain ⟨rightNode, rightHere⟩ := TypeArena.exists_get pair.rightAllocated
    have same := pair.compressed.metaKind.trans unifying.metaKind
    have meaning := pairStep_meaning left right leftNode rightNode arena.tree
    have bindTotal : ∀ id ty, pairStep left right leftNode rightNode = .bind id ty →
        ∃ fuel result, after.bind fuel arena kinds id ty = some result := by
      intro id ty step
      rw [step] at meaning
      have toAfter : ∀ ty, TreeKinded kinds arena origin ty →
          ∃ κ kind, after.Agrees κ ∧ kinds.kind κ (arena.tree ty) = some kind :=
        fun ty ⟨κ, kind, agrees, sorted⟩ => ⟨κ, kind, agrees.of_metaKind same.symm, sorted⟩
      rcases meaning with ⟨rfl, rfl⟩ | ⟨rfl, rfl⟩
      · exact bind_total pair.compressed.valid (pair.compressed.valid.known _ _ leftHere)
          pair.rightAllocated (toAfter _ rightKinded)
      · exact bind_total pair.compressed.valid (pair.compressed.valid.known _ _ rightHere)
          pair.leftAllocated (toAfter _ leftKinded)
    have enough : ∃ fuelBind, ∀ id ty, pairStep left right leftNode rightNode = .bind id ty →
        ∃ result, after.bind fuelBind arena kinds id ty = some result := by
      cases step : pairStep left right leftNode rightNode with
      | bind id ty =>
        obtain ⟨fuel, result, returned⟩ := bindTotal id ty step
        refine ⟨fuel, fun id' ty' same => ?_⟩
        obtain ⟨rfl, rfl⟩ := PairStep.bind.inj same
        exact ⟨result, returned⟩
      | _ => exact ⟨0, nofun⟩
    obtain ⟨fuelBind, bound⟩ := enough
    have enoughLeft := prune_mono (le_max_left fuelLeft (max fuelRight fuelBind)) returnedLeft
    have enoughRight := prune_mono
      (show fuelRight ≤ max fuelLeft (max fuelRight fuelBind) by omega) returnedRight
    refine ⟨max fuelLeft (max fuelRight fuelBind), ?_⟩
    simp only at enoughLeft enoughRight
    simp only [unifyTurn, Option.bind_eq_bind, enoughLeft, enoughRight, Option.bind_some, leftHere,
      rightHere]
    split
    · exact ⟨_, rfl⟩
    · split
      next id ty step =>
        obtain ⟨⟨outcome, next⟩, returned⟩ := bound id ty step
        rw [bind_mono (show fuelBind ≤ _ by omega) returned]
        cases outcome <;> exact ⟨_, rfl⟩
      all_goals exact ⟨_, rfl⟩

/-- `unify` terminates on two well-kinded types. -/
theorem unify_total (valid : Valid kinds arena origin) (insideLeft : left < arena.nodes.length)
    (insideRight : right < arena.nodes.length) (leftKinded : TreeKinded kinds arena origin left)
    (rightKinded : TreeKinded kinds arena origin right) :
    ∃ fuel result, origin.unify fuel arena kinds left right = some result := by
  obtain ⟨fuel, result, returned, _⟩ := run_total (fun fuel => unifyTurn fuel arena kinds)
    (fun le => unifyTurn_mono le) (Unifying kinds arena origin [(left, right)]) (fun _ => True)
    (unifyWeight arena)
    (fun state unifying => by
      obtain ⟨fuel, effect, turned⟩ := unifyTurn_total unifying
        (by simp [PairsKinded, leftKinded, rightKinded])
      have meaning := unifyTurn_effect unifying turned
      cases effect with
      | again next => exact .inl ⟨fuel, next, turned, meaning⟩
      | leave value => exact .inr ⟨fuel, value, turned, trivial⟩)
    _ (unifying_root valid insideLeft insideRight)
  exact ⟨fuel, result, returned⟩

end HellRs.Types.Unifier
