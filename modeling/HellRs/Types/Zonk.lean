import HellRs.Types.Canonical

/-! # The work list of `zonk`

Replaying the pending work on the trees of the results gives the fully substituted tree of the root. Every entry of
the memo added on the way is the closed type of its key, so the memo of the unifier stays valid also when `zonk` fails.
-/

namespace HellRs.Types

open Loop Term Unification

/-- The binary node with this symbol. -/
def TypeBinary.build : TypeBinary → TypeId → TypeId → TypeNode
  | .apply => .apply
  | .function => .function
  | .rowCons label => .rowCons label

@[simp] theorem TypeBinary.build_tree (symbol : TypeBinary) (left right : TypeId) (denote : TypeId → Tree) :
    (symbol.build left right).tree denote = .node symbol (denote left) (denote right) := by
  cases symbol <;> rfl

@[simp] theorem TypeBinary.build_children (symbol : TypeBinary) (left right : TypeId) :
    (symbol.build left right).children = [left, right] := by
  cases symbol <;> rfl

@[simp] theorem TypeBinary.build_isMeta (symbol : TypeBinary) (left right : TypeId) :
    (symbol.build left right).isMeta = false := by
  cases symbol <;> rfl

namespace Unifier

variable {kinds : KindArena} {arena arena' start : TypeArena} {unifier unifier' : Unifier} {σ : TypeSubst}

/-- The entry that rebuilds a binary node. -/
def ZonkWork.build (original : TypeId) : TypeBinary → ZonkWork
  | .apply => .apply original
  | .function => .function original
  | .rowCons label => .row original label

/-- The type an entry is about. -/
def ZonkWork.original : ZonkWork → TypeId
  | .visit ty => ty
  | .apply original => original
  | .function original => original
  | .row original _ => original

@[simp] theorem ZonkWork.build_original (original : TypeId) (symbol : TypeBinary) :
    (ZonkWork.build original symbol).original = original := by
  cases symbol <;> rfl

/-- The originals of the nodes that the work list still rebuilds. -/
def rebuilds : List ZonkWork → List TypeId
  | [] => []
  | .visit _ :: work => rebuilds work
  | entry :: work => entry.original :: rebuilds work

@[simp] theorem rebuilds_build (original : TypeId) (symbol : TypeBinary) (work : List ZonkWork) :
    rebuilds (.build original symbol :: work) = original :: rebuilds work := by
  cases symbol <;> rfl

/-- What one turn of `zonk` can do. -/
inductive ZonkStep (fuel : ℕ) : ZonkState → Turn ZonkState ZonkResult → Prop where
  | done (unifier : Unifier) (arena : TypeArena) (closed : TypeId) (results visiting : List TypeId) :
      ZonkStep fuel ⟨unifier, arena, [], closed :: results, visiting⟩ (.leave (.ok closed, unifier, arena))
  | known {unifier unifier' : Unifier} {arena : TypeArena} {ty ty' closed : TypeId} {work : List ZonkWork}
      {results visiting : List TypeId} (pruned : unifier.prune fuel arena ty = some (ty', unifier'))
      (found : (ty', closed) ∈ unifier'.zonked) :
      ZonkStep fuel ⟨unifier, arena, .visit ty :: work, results, visiting⟩
        (.again ⟨unifier', arena, work, closed :: results, visiting⟩)
  | cyclic {unifier unifier' : Unifier} {arena : TypeArena} {ty ty' : TypeId} {work : List ZonkWork}
      {results visiting : List TypeId} (pruned : unifier.prune fuel arena ty = some (ty', unifier'))
      (entered : ty' ∈ visiting) :
      ZonkStep fuel ⟨unifier, arena, .visit ty :: work, results, visiting⟩
        (.again ⟨unifier', arena, work, ty' :: results, visiting⟩)
  | refused {unifier unifier' : Unifier} {arena : TypeArena} {ty ty' : TypeId} {work : List ZonkWork}
      {results visiting : List TypeId} {node : TypeNode} {failure : TypeError}
      (pruned : unifier.prune fuel arena ty = some (ty', unifier')) (here : arena.get ty' = some node)
      (unclosed : node.isMeta = true ∨ ∃ index, node = .bound index) :
      ZonkStep fuel ⟨unifier, arena, .visit ty :: work, results, visiting⟩ (.leave (.error failure, unifier', arena))
  | leaf {unifier unifier' : Unifier} {arena : TypeArena} {ty ty' : TypeId} {work : List ZonkWork}
      {results visiting : List TypeId} {node : TypeNode}
      (pruned : unifier.prune fuel arena ty = some (ty', unifier')) (here : arena.get ty' = some node)
      (closed : ∀ denote, ∃ symbol, node.tree denote = .leaf symbol ∧ Closed (.leaf symbol)) :
      ZonkStep fuel ⟨unifier, arena, .visit ty :: work, results, visiting⟩
        (.again ⟨{ unifier' with zonked := (ty', ty') :: unifier'.zonked }, arena, work, ty' :: results, visiting⟩)
  | enter {unifier unifier' : Unifier} {arena : TypeArena} {ty ty' left right : TypeId} {work : List ZonkWork}
      {results visiting : List TypeId} (symbol : TypeBinary)
      (pruned : unifier.prune fuel arena ty = some (ty', unifier'))
      (here : arena.get ty' = some (symbol.build left right)) :
      ZonkStep fuel ⟨unifier, arena, .visit ty :: work, results, visiting⟩
        (.again ⟨unifier', arena, .visit left :: .visit right :: .build ty' symbol :: work, results,
          ty' :: visiting⟩)
  | rebuild {unifier : Unifier} {arena arena' : TypeArena} {original left right closed : TypeId}
      {work : List ZonkWork} {results visiting : List TypeId} {symbol : TypeBinary}
      (interned : arena.intern (symbol.build left right) = some (closed, arena')) :
      ZonkStep fuel ⟨unifier, arena, .build original symbol :: work, right :: left :: results, visiting⟩
        (.again ⟨{ unifier with zonked := (original, closed) :: unifier.zonked }, arena', work, closed :: results,
          visiting.erase original⟩)

theorem rebuild_step {fuel : ℕ} {arena : TypeArena} {original : TypeId} {work : List ZonkWork}
    {results visiting : List TypeId} (symbol : TypeBinary) {effect : Turn ZonkState ZonkResult}
    (turned : rebuild ⟨unifier, arena, .build original symbol :: work, results, visiting⟩ work original symbol.build =
      some effect) :
    ZonkStep fuel ⟨unifier, arena, .build original symbol :: work, results, visiting⟩ effect := by
  simp only [Unifier.rebuild] at turned
  split at turned
  next right left rest =>
    simp only [Option.bind_eq_bind, Option.bind_eq_some_iff] at turned
    obtain ⟨⟨closed, grown⟩, interned, turned⟩ := turned
    obtain rfl := Option.some.inj turned
    exact .rebuild interned
  next => cases turned

theorem zonkVisit_step {fuel : ℕ} {arena : TypeArena} {ty : TypeId} {work : List ZonkWork}
    {results visiting : List TypeId} {effect : Turn ZonkState ZonkResult}
    (turned : zonkVisit fuel ⟨unifier, arena, .visit ty :: work, results, visiting⟩ work ty = some effect) :
    ZonkStep fuel ⟨unifier, arena, .visit ty :: work, results, visiting⟩ effect := by
  simp only [zonkVisit, Option.bind_eq_bind, Option.bind_eq_some_iff] at turned
  obtain ⟨⟨ty', unifier'⟩, pruned, turned⟩ := turned
  simp only at turned
  split at turned
  next closed found =>
    obtain rfl := Option.some.inj turned
    exact .known pruned (lookup_mem found)
  next =>
    split at turned
    next entered =>
      obtain rfl := Option.some.inj turned
      exact .cyclic pruned entered
    next =>
      simp only [Option.bind_eq_some_iff] at turned
      obtain ⟨node, here, turned⟩ := turned
      cases node with
      | metavar id => obtain rfl := Option.some.inj turned; exact .refused pruned here (.inl rfl)
      | bound index => obtain rfl := Option.some.inj turned; exact .refused pruned here (.inr ⟨index, rfl⟩)
      | apply left right =>
        obtain rfl := Option.some.inj turned
        exact ZonkStep.enter .apply pruned here
      | function left right =>
        obtain rfl := Option.some.inj turned
        exact ZonkStep.enter .function pruned here
      | rowCons label field tail =>
        obtain rfl := Option.some.inj turned
        exact ZonkStep.enter (.rowCons label) pruned here
      | constructor name kind =>
        obtain rfl := Option.some.inj turned
        exact .leaf pruned here fun _ => ⟨_, rfl, trivial⟩
      | symbol text => obtain rfl := Option.some.inj turned; exact .leaf pruned here fun _ => ⟨_, rfl, trivial⟩
      | rowNil => obtain rfl := Option.some.inj turned; exact .leaf pruned here fun _ => ⟨_, rfl, trivial⟩

theorem zonkTurn_step {fuel : ℕ} {state : ZonkState} {effect : Turn ZonkState ZonkResult}
    (turned : zonkTurn fuel state = some effect) : ZonkStep fuel state effect := by
  obtain ⟨unifier, arena, _ | ⟨entry, work⟩, results, visiting⟩ := state
  · cases results with
    | nil => cases turned
    | cons closed results => obtain rfl := Option.some.inj turned; exact .done ..
  · cases entry with
    | visit ty => exact zonkVisit_step turned
    | apply original => exact rebuild_step .apply turned
    | function original => exact rebuild_step .function turned
    | row original label => exact rebuild_step (.rowCons label) turned

/-- Replaying the work on a stack of trees leaves the goal alone. -/
inductive Pending (denote : TypeId → Tree) (goal : Tree) : List ZonkWork → List Tree → Prop where
  | done : Pending denote goal [] [goal]
  | visit {ty : TypeId} {work : List ZonkWork} {stack : List Tree}
      (rest : Pending denote goal work (denote ty :: stack)) : Pending denote goal (.visit ty :: work) stack
  | build {original : TypeId} {symbol : TypeBinary} {left right : Tree} {work : List ZonkWork} {stack : List Tree}
      (shape : denote original = .node symbol left right)
      (rest : Pending denote goal work (denote original :: stack)) :
      Pending denote goal (.build original symbol :: work) (right :: left :: stack)

theorem Pending.congr {denote denote' : TypeId → Tree} {goal : Tree} {work : List ZonkWork} {stack : List Tree}
    (pending : Pending denote goal work stack) (same : ∀ entry ∈ work, denote entry.original = denote' entry.original) :
    Pending denote' goal work stack := by
  induction pending with
  | done => exact .done
  | @visit ty work stack _ ih =>
    refine .visit ?_
    rw [← show denote ty = denote' ty from same (.visit ty) (List.mem_cons_self ..)]
    exact ih fun entry member => same entry (List.mem_cons_of_mem _ member)
  | @build original symbol left right work stack shape _ ih =>
    have here : denote original = denote' original := by
      simpa using same (.build original symbol) (List.mem_cons_self ..)
    refine .build (here ▸ shape) ?_
    rw [← here]
    exact ih fun entry member => same entry (List.mem_cons_of_mem _ member)

theorem Pending.of_nil {denote : TypeId → Tree} {goal : Tree} {stack : List Tree}
    (pending : Pending denote goal [] stack) : stack = [goal] := by
  cases pending
  rfl

theorem Pending.of_visit {denote : TypeId → Tree} {goal : Tree} {ty : TypeId} {work : List ZonkWork}
    {stack : List Tree} (pending : Pending denote goal (.visit ty :: work) stack) :
    Pending denote goal work (denote ty :: stack) := by
  generalize here : ZonkWork.visit ty :: work = all at pending
  cases pending with
  | done => cases here
  | visit rest => cases here; exact rest
  | @build original symbol => cases symbol <;> cases here

theorem Pending.of_build {denote : TypeId → Tree} {goal : Tree} {original : TypeId} {symbol : TypeBinary}
    {work : List ZonkWork} {stack : List Tree} (pending : Pending denote goal (.build original symbol :: work) stack) :
    ∃ left right rest, stack = right :: left :: rest ∧ denote original = .node symbol left right ∧
      Pending denote goal work (denote original :: rest) := by
  generalize here : ZonkWork.build original symbol :: work = all at pending
  cases pending with
  | done => cases here
  | visit rest => cases symbol <;> cases here
  | @build original' symbol' left right work' stack shape rest =>
    obtain ⟨same, rfl⟩ := List.cons.inj here
    obtain ⟨rfl, rfl⟩ : original = original' ∧ symbol = symbol' := by
      cases symbol <;> cases symbol' <;> simp_all [ZonkWork.build]
    exact ⟨left, right, stack, rfl, shape, rest⟩

/-- The invariant of the work list of `zonk`, started from `root` in the arena `start`. -/
structure Zonks (kinds : KindArena) (σ : TypeSubst) (start : TypeArena) (root : TypeId) (state : ZonkState) :
    Prop where
  valid : Valid kinds state.arena state.unifier
  prefixed : start.Extends state.arena
  shared : state.arena.Shared
  resolves : Resolves σ (state.unifier.bindings state.arena)
  remembers : state.unifier.Remembers state.arena σ
  allocated : ∀ entry ∈ state.work, entry.original < state.arena.nodes.length
  pending : Pending (resolved state.arena σ) (resolved start σ root) state.work (state.results.map state.arena.tree)
  results : ∀ ty ∈ state.results, ty < state.arena.nodes.length ∧ Closed (state.arena.tree ty)
  within : Closed (resolved start σ root) → ∀ entry ∈ state.work, Closed (resolved state.arena σ entry.original)
  visiting : state.visiting = rebuilds state.work
  nested : state.work.Pairwise fun inner outer => ∀ original symbol, outer = .build original symbol →
    (resolved state.arena σ inner.original).size < (resolved state.arena σ original).size

/-- Three turns for every symbol that a visit can meet, one for a node that is rebuilt. -/
def ZonkWork.weight (denote : TypeId → Tree) : ZonkWork → ℕ
  | .visit ty => 3 * (denote ty).size
  | _ => 1

def zonkWeight (arena : TypeArena) (σ : TypeSubst) (work : List ZonkWork) : ℕ :=
  (work.map (ZonkWork.weight (resolved arena σ))).sum

@[simp] theorem zonkWeight_visit (ty : TypeId) (work : List ZonkWork) :
    zonkWeight arena σ (.visit ty :: work) = 3 * (resolved arena σ ty).size + zonkWeight arena σ work := by
  simp [zonkWeight, ZonkWork.weight]

@[simp] theorem zonkWeight_build (original : TypeId) (symbol : TypeBinary) (work : List ZonkWork) :
    zonkWeight arena σ (.build original symbol :: work) = 1 + zonkWeight arena σ work := by
  cases symbol <;> simp [zonkWeight, ZonkWork.weight, ZonkWork.build]

theorem zonkWeight_extends (prefixed : arena.Extends arena') {work : List ZonkWork}
    (allocated : ∀ entry ∈ work, entry.original < arena.nodes.length) :
    zonkWeight arena' σ work = zonkWeight arena σ work := by
  rw [zonkWeight, zonkWeight, List.map_congr_left fun entry member => ?_]
  have same := resolved_extends (σ := σ) prefixed (allocated entry member)
  cases entry <;> simp_all [ZonkWork.weight, ZonkWork.original]

/-- What one turn of `zonk` means. -/
def ZonksEffect (kinds : KindArena) (σ : TypeSubst) (start : TypeArena) (root : TypeId) (state : ZonkState) :
    Turn ZonkState ZonkResult → Prop
  | .again next => Zonks kinds σ start root next ∧
      zonkWeight next.arena σ next.work < zonkWeight state.arena σ state.work
  | .leave (outcome, unifier, arena) => start.Extends arena ∧ Canonical kinds arena unifier ∧
      Resolves σ (unifier.bindings arena) ∧
      match outcome with
      | .ok closed => closed < arena.nodes.length ∧ arena.tree closed = resolved start σ root ∧
          Closed (arena.tree closed)
      | .error _ => ¬ Closed (resolved start σ root)

theorem exists_build_of_mem {original : TypeId} {work : List ZonkWork} (member : original ∈ rebuilds work) :
    ∃ symbol, ZonkWork.build original symbol ∈ work := by
  induction work with
  | nil => cases member
  | cons entry work ih =>
    have later (rest : original ∈ rebuilds work) : ∃ symbol, ZonkWork.build original symbol ∈ entry :: work := by
      obtain ⟨symbol, old⟩ := ih rest
      exact ⟨symbol, List.mem_cons_of_mem _ old⟩
    cases entry with
    | visit ty => exact later member
    | apply _ =>
      rcases List.mem_cons.mp member with rfl | rest
      · exact ⟨.apply, List.mem_cons_self ..⟩
      · exact later rest
    | function _ =>
      rcases List.mem_cons.mp member with rfl | rest
      · exact ⟨.function, List.mem_cons_self ..⟩
      · exact later rest
    | row _ label =>
      rcases List.mem_cons.mp member with rfl | rest
      · exact ⟨.rowCons label, List.mem_cons_self ..⟩
      · exact later rest

section Turns

variable {root ty ty' closed : TypeId} {work : List ZonkWork} {results visiting : List TypeId}

theorem Remembers.insert (remembers : unifier.Remembers arena σ) {key : TypeId} (allocated : key < arena.nodes.length)
    (same : resolved arena σ key = arena.tree closed) (isClosed : Closed (arena.tree closed)) :
    Remembers arena { unifier with zonked := (key, closed) :: unifier.zonked } σ := by
  intro pair member
  rcases List.mem_cons.mp member with rfl | old
  · exact ⟨allocated, same, isClosed⟩
  · exact remembers pair old

theorem Valid.remember (valid : Valid kinds arena unifier) (key : TypeId) (allocated : closed < arena.nodes.length) :
    Valid kinds arena { unifier with zonked := (key, closed) :: unifier.zonked } where
  wellFounded := valid.wellFounded
  known := valid.known
  single := valid.single
  allocated := valid.allocated
  kinded := valid.kinded
  acyclic := valid.acyclic
  zonked pair member := by
    rcases List.mem_cons.mp member with rfl | old
    · exact allocated
    · exact valid.zonked pair old

/-- What pruning the visited type keeps. -/
theorem Zonks.prunes (zonks : Zonks kinds σ start root ⟨unifier, arena, .visit ty :: work, results, visiting⟩)
    {fuel : ℕ} (pruned : unifier.prune fuel arena ty = some (ty', unifier')) :
    Valid kinds arena unifier' ∧ Resolves σ (unifier'.bindings arena) ∧ unifier'.Remembers arena σ ∧
      ty' < arena.nodes.length ∧ Pruned arena unifier' ty' ∧ resolved arena σ ty = resolved arena σ ty' := by
  have prunes := prune_spec zonks.valid (zonks.allocated _ (List.mem_cons_self ..)) pruned
  refine ⟨prunes.compressed.valid, prunes.compressed.resolves σ zonks.resolves, ?_, prunes.allocated, prunes.pruned,
    resolved_of_follows zonks.resolves prunes.follows⟩
  intro pair member
  exact zonks.remembers pair (prune_zonked pruned ▸ member)

/-- A visited type whose closed type is known is done. -/
theorem Zonks.pop (zonks : Zonks kinds σ start root ⟨unifier, arena, .visit ty :: work, results, visiting⟩)
    (valid : Valid kinds arena unifier') (resolves : Resolves σ (unifier'.bindings arena))
    (remembers : unifier'.Remembers arena σ) (allocated : closed < arena.nodes.length)
    (same : resolved arena σ ty = arena.tree closed) (isClosed : Closed (arena.tree closed)) :
    ZonksEffect kinds σ start root ⟨unifier, arena, .visit ty :: work, results, visiting⟩
      (.again ⟨unifier', arena, work, closed :: results, visiting⟩) := by
  refine ⟨⟨valid, zonks.prefixed, zonks.shared, resolves, remembers, ?_, ?_, ?_, ?_, zonks.visiting,
    (List.pairwise_cons.mp zonks.nested).2⟩, ?_⟩
  · exact fun entry member => zonks.allocated entry (List.mem_cons_of_mem _ member)
  · have rest := zonks.pending.of_visit
    rw [same] at rest
    exact rest
  · intro other member
    rcases List.mem_cons.mp member with rfl | old
    · exact ⟨allocated, isClosed⟩
    · exact zonks.results other old
  · exact fun goal entry member => zonks.within goal entry (List.mem_cons_of_mem _ member)
  · have := size_pos (resolved arena σ ty)
    simp only [zonkWeight_visit]
    omega

/-- The visited type cannot be an ancestor of itself: its tree would be smaller than itself. -/
theorem Zonks.not_entered (zonks : Zonks kinds σ start root ⟨unifier, arena, .visit ty :: work, results, visiting⟩)
    (same : resolved arena σ ty = resolved arena σ ty') : ty' ∉ visiting := by
  intro entered
  have pendingHere : ty' ∈ rebuilds work := zonks.visiting ▸ entered
  obtain ⟨symbol, member⟩ := exists_build_of_mem pendingHere
  have below := (List.pairwise_cons.mp zonks.nested).1 _ member ty' symbol rfl
  simp only [ZonkWork.original, same, lt_self_iff_false] at below

theorem Zonks.refused (zonks : Zonks kinds σ start root ⟨unifier, arena, .visit ty :: work, results, visiting⟩)
    {fuel : ℕ} (pruned : unifier.prune fuel arena ty = some (ty', unifier')) {node : TypeNode}
    (here : arena.get ty' = some node) (unclosed : node.isMeta = true ∨ ∃ index, node = .bound index) :
    ¬ Closed (resolved start σ root) := by
  obtain ⟨valid, resolves, -, -, isPruned, same⟩ := zonks.prunes pruned
  intro goal
  have isClosed := zonks.within goal _ (List.mem_cons_self ..)
  simp only [ZonkWork.original] at isClosed
  rw [same] at isClosed
  rcases unclosed with isMeta | ⟨index, rfl⟩
  · cases node with
    | metavar id =>
      rw [resolved_metavar valid resolves isPruned here] at isClosed
      exact isClosed
    | _ => cases isMeta
  · rw [resolved, valid.wellFounded.tree_eq here] at isClosed
    exact isClosed

theorem Zonks.enter (zonks : Zonks kinds σ start root ⟨unifier, arena, .visit ty :: work, results, visiting⟩)
    {fuel : ℕ} (pruned : unifier.prune fuel arena ty = some (ty', unifier')) {symbol : TypeBinary}
    {left right : TypeId} (here : arena.get ty' = some (symbol.build left right)) :
    ZonksEffect kinds σ start root ⟨unifier, arena, .visit ty :: work, results, visiting⟩
      (.again ⟨unifier', arena, .visit left :: .visit right :: .build ty' symbol :: work, results,
        ty' :: visiting⟩) := by
  obtain ⟨valid, resolves, remembers, allocated, -, same⟩ := zonks.prunes pruned
  have shape : resolved arena σ ty' = .node symbol (resolved arena σ left) (resolved arena σ right) := by
    rw [resolved, valid.wellFounded.tree_eq here, TypeBinary.build_tree, bind_node]
    rfl
  have child : ∀ child ∈ [left, right], child < arena.nodes.length := fun child member =>
    Nat.lt_trans (valid.wellFounded ty' _ here child (by simpa using member)) allocated
  have sizes : (resolved arena σ ty).size =
      (resolved arena σ left).size + (resolved arena σ right).size + 1 := by rw [same, shape, Term.size]
  obtain ⟨smaller, nested⟩ := List.pairwise_cons.mp zonks.nested
  refine ⟨⟨valid, zonks.prefixed, zonks.shared, resolves, remembers, ?_, ?_, zonks.results, ?_, ?_, ?_⟩, ?_⟩
  · intro entry member
    simp only [List.mem_cons] at member
    rcases member with rfl | rfl | rfl | old
    · exact child left (by simp)
    · exact child right (by simp)
    · simpa using allocated
    · exact zonks.allocated entry (List.mem_cons_of_mem _ old)
  · refine .visit (.visit (.build shape ?_))
    rw [← same]
    exact zonks.pending.of_visit
  · intro goal entry member
    have whole := zonks.within goal _ (List.mem_cons_self ..)
    simp only [ZonkWork.original] at whole
    rw [same, shape] at whole
    simp only [List.mem_cons] at member
    rcases member with rfl | rfl | rfl | old
    · exact whole.1
    · exact whole.2
    · simpa [shape] using whole
    · exact zonks.within goal entry (List.mem_cons_of_mem _ old)
  · have entered : visiting = rebuilds work := zonks.visiting
    simp only [rebuilds, rebuilds_build, entered]
  · have above (inner : ZonkWork) (less : (resolved arena σ inner.original).size ≤ (resolved arena σ ty).size) :
        ∀ outer ∈ work, ∀ original symbol, outer = .build original symbol →
          (resolved arena σ inner.original).size < (resolved arena σ original).size :=
      fun outer member original symbol isBuild =>
        Nat.lt_of_le_of_lt less (smaller outer member original symbol isBuild)
    have inside (inner : TypeId) (less : (resolved arena σ inner).size < (resolved arena σ ty).size) :
        ∀ original symbol', ZonkWork.build ty' symbol = .build original symbol' →
          (resolved arena σ inner).size < (resolved arena σ original).size := by
      intro original symbol' isBuild
      have : ty' = original := by simpa using congrArg ZonkWork.original isBuild
      rw [← this, ← same]
      exact less
    refine .cons ?_ (.cons ?_ (.cons ?_ nested))
    · intro outer member
      simp only [List.mem_cons] at member
      rcases member with rfl | rfl | old
      · intro original symbol' isBuild; cases symbol' <;> cases isBuild
      · exact inside left (by omega)
      · exact above (.visit left) (show (resolved arena σ left).size ≤ _ by omega) outer old
    · intro outer member
      rcases List.mem_cons.mp member with rfl | old
      · exact inside right (by omega)
      · exact above (.visit right) (show (resolved arena σ right).size ≤ _ by omega) outer old
    · exact above (.build ty' symbol) (by simp [same])
  · simp only [zonkWeight_visit, zonkWeight_build]
    omega

theorem Zonks.rebuild {original left right : TypeId} {symbol : TypeBinary}
    (zonks : Zonks kinds σ start root
      ⟨unifier, arena, .build original symbol :: work, right :: left :: results, visiting⟩)
    (interned : arena.intern (symbol.build left right) = some (closed, arena')) :
    ZonksEffect kinds σ start root
      ⟨unifier, arena, .build original symbol :: work, right :: left :: results, visiting⟩
      (.again ⟨{ unifier with zonked := (original, closed) :: unifier.zonked }, arena', work, closed :: results,
        visiting.erase original⟩) := by
  obtain ⟨prefixed, found⟩ := TypeArena.intern_extends interned
  obtain ⟨leftTree, rightTree, rest, stack, shape, pending⟩ := zonks.pending.of_build
  simp only [List.map_cons, List.cons.injEq] at stack
  obtain ⟨rfl, rfl, rfl⟩ := stack
  obtain ⟨rightAllocated, rightClosed⟩ := zonks.results right (by simp)
  obtain ⟨leftAllocated, leftClosed⟩ := zonks.results left (by simp)
  have valid : Valid kinds arena' unifier := by
    refine zonks.valid.intern (by simp) ?_ interned
    simp [leftAllocated, rightAllocated]
  have inside : original < arena.nodes.length := by
    simpa using zonks.allocated _ (List.mem_cons_self ..)
  have later : ∀ entry ∈ work, entry.original < arena.nodes.length := fun entry member =>
    zonks.allocated entry (List.mem_cons_of_mem _ member)
  have closedTree : arena'.tree closed = .node symbol (arena.tree left) (arena.tree right) := by
    rw [valid.wellFounded.tree_eq found, TypeBinary.build_tree, prefixed.tree_eq leftAllocated,
      prefixed.tree_eq rightAllocated]
  have same : resolved arena' σ original = arena'.tree closed := by
    rw [resolved_extends prefixed inside, shape, closedTree]
  have isClosed : Closed (arena'.tree closed) := by rw [closedTree]; exact ⟨leftClosed, rightClosed⟩
  refine ⟨⟨valid.remember original (TypeArena.get_lt found), zonks.prefixed.trans prefixed,
    zonks.shared.intern interned, ?_, ?_, ?_, ?_, ?_, ?_, ?_, ?_⟩, ?_⟩
  · exact (zonks.valid.bindings_extends prefixed).symm ▸ zonks.resolves
  · exact (zonks.remembers.extends zonks.valid prefixed).insert
      (Nat.lt_of_lt_of_le inside prefixed.length_le) same isClosed
  · exact fun entry member => Nat.lt_of_lt_of_le (later entry member) prefixed.length_le
  · rw [shape, ← closedTree] at pending
    have grown := pending.congr fun entry member => (resolved_extends (σ := σ) prefixed (later entry member)).symm
    have trees : results.map arena'.tree = results.map arena.tree := List.map_congr_left fun ty member =>
      prefixed.tree_eq (zonks.results ty (by simp [member])).1
    simp only [List.map_cons, trees]
    exact grown
  · intro ty member
    rcases List.mem_cons.mp member with rfl | old
    · exact ⟨TypeArena.get_lt found, isClosed⟩
    · obtain ⟨allocated, closed⟩ := zonks.results ty (by simp [old])
      exact ⟨Nat.lt_of_lt_of_le allocated prefixed.length_le, by rwa [prefixed.tree_eq allocated]⟩
  · intro goal entry member
    rw [resolved_extends prefixed (later entry member)]
    exact zonks.within goal entry (List.mem_cons_of_mem _ member)
  · have entered : visiting = original :: rebuilds work := by simpa using zonks.visiting
    simp only [entered, List.erase_cons_head]
  · refine (List.pairwise_cons.mp zonks.nested).2.imp_of_mem ?_
    intro inner outer innerMember outerMember less original' symbol' isBuild
    have outside := later outer outerMember
    rw [isBuild, ZonkWork.build_original] at outside
    rw [resolved_extends prefixed (later inner innerMember), resolved_extends prefixed outside]
    exact less original' symbol' isBuild
  · simp only [zonkWeight_extends prefixed later, zonkWeight_build]
    omega

/-- The step lemma of `zonk` with closed types. -/
theorem Zonks.step {state : ZonkState} (zonks : Zonks kinds σ start root state) {fuel : ℕ}
    {effect : Turn ZonkState ZonkResult} (step : ZonkStep fuel state effect) :
    ZonksEffect kinds σ start root state effect := by
  have canonical (unifier : Unifier) (arena : TypeArena) (valid : Valid kinds arena unifier) (shared : arena.Shared)
      (resolves : Resolves σ (unifier.bindings arena)) (remembers : unifier.Remembers arena σ) :
      Canonical kinds arena unifier :=
    ⟨valid, shared, fun τ other => valid.acyclic.resolves_unique resolves other ▸ remembers⟩
  cases step with
  | done unifier arena closed results visiting =>
    obtain ⟨allocated, isClosed⟩ := zonks.results closed (List.mem_cons_self ..)
    have goal := (List.cons.inj zonks.pending.of_nil).1
    exact ⟨zonks.prefixed, canonical _ _ zonks.valid zonks.shared zonks.resolves zonks.remembers, zonks.resolves,
      allocated, goal, isClosed⟩
  | known pruned found =>
    obtain ⟨valid, resolves, remembers, -, -, same⟩ := zonks.prunes pruned
    obtain ⟨-, known, isClosed⟩ := remembers _ found
    exact zonks.pop valid resolves remembers (valid.zonked _ found) (same.trans known) isClosed
  | cyclic pruned entered =>
    obtain ⟨-, -, -, -, -, same⟩ := zonks.prunes pruned
    exact absurd entered (zonks.not_entered same)
  | refused pruned here unclosed =>
    obtain ⟨valid, resolves, remembers, -, -, -⟩ := zonks.prunes pruned
    exact ⟨zonks.prefixed, canonical _ _ valid zonks.shared resolves remembers, resolves,
      zonks.refused pruned here unclosed⟩
  | @leaf _ _ arena ty ty' _ _ _ node pruned here closed =>
    obtain ⟨valid, resolves, remembers, allocated, -, same⟩ := zonks.prunes pruned
    obtain ⟨symbol, shape, isClosed⟩ := closed arena.tree
    have tree : arena.tree ty' = .leaf symbol := (valid.wellFounded.tree_eq here).trans shape
    have known : resolved arena σ ty' = arena.tree ty' := by rw [resolved, tree, bind_leaf]
    exact zonks.pop (valid.remember ty' allocated) resolves (remembers.insert allocated known (tree ▸ isClosed))
      allocated (same.trans known) (tree ▸ isClosed)
  | enter symbol pruned here => exact zonks.enter pruned here
  | rebuild interned => exact zonks.rebuild interned

end Turns

section Run

variable {root : TypeId}

/-- The state that `zonk` starts from. -/
def zonkStart (unifier : Unifier) (arena : TypeArena) (ty : TypeId) : ZonkState := ⟨unifier, arena, [.visit ty], [], []⟩

theorem Canonical.zonks (canonical : Canonical kinds arena unifier) (resolves : Resolves σ (unifier.bindings arena))
    (allocated : root < arena.nodes.length) : Zonks kinds σ arena root (zonkStart unifier arena root) where
  valid := canonical.valid
  prefixed := .refl arena
  shared := canonical.shared
  resolves := resolves
  remembers := canonical.remembers σ resolves
  allocated := by simpa [zonkStart, ZonkWork.original] using allocated
  pending := .visit .done
  results := by simp [zonkStart]
  within goal := by simpa [zonkStart, ZonkWork.original] using goal
  visiting := rfl
  nested := by simp [zonkStart]

theorem rebuild_total {state : ZonkState} {original : TypeId} (symbol : TypeBinary) {work : List ZonkWork}
    (zonks : Zonks kinds σ arena root state) (here : state.work = .build original symbol :: work)
    (room : state.arena.nodes.length < idLimit) (node : TypeId → TypeId → TypeNode) :
    ∃ effect, rebuild state work original node = some effect := by
  obtain ⟨unifier, arena, _, results, visiting⟩ := state
  subst here
  obtain ⟨left, right, rest, stack, -, -⟩ := zonks.pending.of_build
  match results, stack with
  | second :: first :: results, _ =>
    simp only at room
    simp only [rebuild, TypeArena.intern]
    cases arena.interned (node first second) with
    | some _ => exact ⟨_, rfl⟩
    | none => simp only [if_pos room]; exact ⟨_, rfl⟩

/-- A turn has a result as long as the arena has room. -/
theorem zonkTurn_total {state : ZonkState} (zonks : Zonks kinds σ arena root state)
    (room : state.arena.nodes.length < idLimit) : ∃ fuel effect, zonkTurn fuel state = some effect := by
  obtain ⟨unifier, current, work, results, visiting⟩ := state
  match work, zonks with
  | [], zonks =>
    match results, zonks.pending.of_nil with
    | closed :: results, _ => exact ⟨0, _, rfl⟩
  | .visit ty :: work, zonks =>
    have allocated := zonks.allocated _ (List.mem_cons_self ..)
    obtain ⟨fuel, ⟨ty', after⟩, pruned⟩ := prune_total zonks.valid allocated
    obtain ⟨node, here⟩ := TypeArena.exists_get (prune_spec zonks.valid allocated pruned).allocated
    refine ⟨fuel, ?_⟩
    simp only [ZonkWork.original] at pruned
    simp only at here
    simp only [zonkTurn, zonkVisit, Option.bind_eq_bind, pruned, Option.bind_some]
    split
    · exact ⟨_, rfl⟩
    · split
      · exact ⟨_, rfl⟩
      · cases node <;> simp only [here, Option.bind_some] <;> exact ⟨_, rfl⟩
  | .apply original :: work, zonks =>
    obtain ⟨effect, turned⟩ := rebuild_total .apply zonks rfl room .apply
    exact ⟨0, effect, turned⟩
  | .function original :: work, zonks =>
    obtain ⟨effect, turned⟩ := rebuild_total .function zonks rfl room .function
    exact ⟨0, effect, turned⟩
  | .row original label :: work, zonks =>
    obtain ⟨effect, turned⟩ := rebuild_total (.rowCons label) zonks rfl room (.rowCons label)
    exact ⟨0, effect, turned⟩

theorem zonkTurn_mono {fuel fuel' : ℕ} (le : fuel ≤ fuel') (state : ZonkState) (effect : Turn ZonkState ZonkResult)
    (turned : zonkTurn fuel state = some effect) : zonkTurn fuel' state = some effect := by
  obtain ⟨unifier, arena, _ | ⟨entry, work⟩, results, visiting⟩ := state
  · exact turned
  · cases entry with
    | visit ty =>
      simp only [zonkTurn, zonkVisit, Option.bind_eq_bind, Option.bind_eq_some_iff] at turned ⊢
      obtain ⟨pruned, returned, turned⟩ := turned
      exact ⟨pruned, prune_mono le returned, turned⟩
    | _ => exact turned

theorem zonk_mono {fuel fuel' : ℕ} (le : fuel ≤ fuel') {ty : TypeId} {result : ZonkResult}
    (returned : unifier.zonk fuel arena ty = some result) : unifier.zonk fuel' arena ty = some result :=
  run_mono (zonkTurn_mono le) le returned

/-- The run of `zonk` comes to a state in which the arena has no room for one more node. -/
def ZonkOverflows (unifier : Unifier) (arena : TypeArena) (ty : TypeId) : Prop :=
  ∃ fuel state, Reaches (zonkTurn fuel) (zonkStart unifier arena ty) state ∧ idLimit ≤ state.arena.nodes.length

/-- `zonk` terminates, unless the arena overflows. -/
theorem Canonical.zonk_total (canonical : Canonical kinds arena unifier) {ty : TypeId}
    (allocated : ty < arena.nodes.length) :
    (∃ fuel result, unifier.zonk fuel arena ty = some result) ∨ ZonkOverflows unifier arena ty := by
  obtain ⟨σ, resolves⟩ := canonical.valid.acyclic.exists_resolves
  have total := run_total_or zonkTurn zonkTurn_mono (Zonks kinds σ arena ty) (fun _ => True)
    (fun state => idLimit ≤ state.arena.nodes.length) (fun state => zonkWeight state.arena σ state.work)
    (fun state zonks => by
      by_cases room : state.arena.nodes.length < idLimit
      · obtain ⟨fuel, effect, turned⟩ := zonkTurn_total zonks room
        have meaning := zonks.step (zonkTurn_step turned)
        cases effect with
        | again next => exact .inl ⟨fuel, next, turned, meaning⟩
        | leave value => exact .inr (.inl ⟨fuel, value, turned, trivial⟩)
      · exact .inr (.inr (Nat.le_of_not_lt room)))
    _ (canonical.zonks resolves allocated)
  exact total.imp_left fun ⟨fuel, result, returned, _⟩ => ⟨fuel, result, returned⟩

/-- Whatever `zonk` returns. -/
theorem Canonical.zonk_spec (canonical : Canonical kinds arena unifier) (resolves : Resolves σ (unifier.bindings arena))
    {ty : TypeId} (allocated : ty < arena.nodes.length) {fuel : ℕ} {result : ZonkResult}
    (returned : unifier.zonk fuel arena ty = some result) :
    ZonksEffect kinds σ arena ty (zonkStart unifier arena ty) (.leave result) :=
  run_invariant (Zonks kinds σ arena ty)
    (fun result => ZonksEffect kinds σ arena ty (zonkStart unifier arena ty) (.leave result))
    (fun _ _ zonks again => (zonks.step (zonkTurn_step again)).1)
    (fun _ (_, _, _) zonks leave => zonks.step (zonkTurn_step leave))
    (canonical.zonks resolves allocated) returned

end Run

end Unifier

end HellRs.Types
