import Mathlib
import HellRs.Core.Typing

/-! # The checker is sound

The graph pass counts the edges into every node that it enters, so that the entered nodes contain
the root, are closed under children and have one incoming edge each, the root none: a tree. On a
tree every node has one list of enclosing binders, so the types that the type pass stores are types
under those binders.
-/

namespace HellRs.Core

open Types Builtins Loop

variable {program : CoreProgram}

section Graph

/-- The children of a node by its identifier. -/
def childrenOf (program : CoreProgram) (id : CoreId) : List CoreId :=
  ((program.node id).map fun node => node.kind.children).getD []

/-- All edges out of the entered nodes. -/
def edges (program : CoreProgram) (entered : List CoreId) : List CoreId :=
  entered.flatMap (childrenOf program)

/-- Where the stack of the graph pass stands with the root: not entered, being visited, or left. -/
inductive RootState (program : CoreProgram) (entered : List CoreId) (state : GraphState) : Prop
  | before (fresh : entered = []) (alone : state.stack = [(program.root, false)])
  | during (above : List (CoreId × Bool)) (base : state.stack = above ++ [(program.root, true)])
      (gray : state.colors program.root = .gray) (once : (program.root, true) ∉ above)
      (pushed : program.root ∈ edges program entered → (program.root, false) ∈ above)
  | after (empty : state.stack = []) (free : program.root ∉ edges program entered)

/-- The invariant of the graph pass, with the list of the nodes it has entered. -/
structure Exploring (program : CoreProgram) (entered : List CoreId) (state : GraphState) : Prop where
  nodup : entered.Nodup
  colored : ∀ id, state.colors id ≠ .white ↔ id ∈ entered
  exist : ∀ id ∈ entered, (program.node id).isSome
  counts : ∀ id, state.incoming id = (edges program entered).count id
  single : ∀ id, state.incoming id ≤ 1
  covered : ∀ id, id = program.root ∨ id ∈ edges program entered →
    id ∈ entered ∨ (id, false) ∈ state.stack
  exits : ∀ id, (id, true) ∈ state.stack → id ∈ entered
  root : RootState program entered state

/-- What the graph pass establishes. -/
structure Explored (program : CoreProgram) (entered : List CoreId) : Prop where
  nodup : entered.Nodup
  exist : ∀ id ∈ entered, (program.node id).isSome
  single : (edges program entered).Nodup
  rooted : program.root ∈ entered
  closed : ∀ id ∈ edges program entered, id ∈ entered
  free : program.root ∉ edges program entered

/-- What pushing the children of a node does to the state. -/
private theorem pushChildren_ok {id : CoreId} {node : CoreNode} {children : List CoreId}
    {state next : GraphState} (pushed : children.foldlM (pushChild program id node) state = .ok next) :
    next.colors = state.colors ∧
      next.stack = children.reverse.map (fun child => (child, false)) ++ state.stack ∧
      (∀ other, next.incoming other = state.incoming other + children.count other) ∧
      ((∀ other, state.incoming other ≤ 1) → ∀ other, next.incoming other ≤ 1) := by
  induction children generalizing state with
  | nil =>
    obtain rfl := Except.ok.inj pushed
    simp
  | cons child children ih =>
    simp only [List.foldlM_cons, pushChild, bind, Except.bind] at pushed
    cases found : program.node child with
    | none => simp [found] at pushed
    | some childNode =>
      simp only [found] at pushed
      by_cases shared : 1 < state.incoming child + 1
      · simp [shared] at pushed
      · simp only [shared, if_false] at pushed
        obtain ⟨colors, stack, counts, single⟩ := ih pushed
        refine ⟨colors, ?_, ?_, ?_⟩
        · simp [stack]
        · intro other
          rw [counts other]
          by_cases same : other = child
          · subst same
            simp only [Function.update_self, List.count_cons_self]
            omega
          · simp [Function.update_of_ne same, List.count_cons_of_ne (Ne.symm same)]
        · intro bound
          refine single fun other => ?_
          by_cases same : other = child
          · subst same
            simp only [Function.update_self]
            omega
          · simp [Function.update_of_ne same, bound other]

/-- Leaving a node keeps the invariant. -/
private theorem Exploring.leave {entered : List CoreId} {state : GraphState}
    (exploring : Exploring program entered state) {id : CoreId} {stack : List (CoreId × Bool)}
    (top : state.stack = (id, true) :: stack) :
    Exploring program entered
      { state with colors := Function.update state.colors id .black, stack } where
  nodup := exploring.nodup
  colored other := by
    by_cases same : other = id
    · subst same
      simpa using exploring.exits other (by simp [top])
    · simpa [Function.update_of_ne same] using exploring.colored other
  exist := exploring.exist
  counts := exploring.counts
  single := exploring.single
  covered other isTarget := by
    rcases exploring.covered other isTarget with member | pending
    · exact .inl member
    · exact .inr (by simpa [top] using pending)
  exits other member := exploring.exits other (by rw [top]; exact List.mem_cons_of_mem _ member)
  root := by
    cases exploring.root with
    | before _ alone => simp [top] at alone
    | after empty => simp [top] at empty
    | during above base gray once pushed =>
      rw [top] at base
      cases above with
      | nil =>
        obtain ⟨-, rfl⟩ := List.cons.inj base
        exact .after rfl fun isChild => by cases pushed isChild
      | cons entry above =>
        obtain ⟨rfl, rfl⟩ := List.cons.inj base
        have other : program.root ≠ id := fun same => once (by rw [same]; exact List.mem_cons_self ..)
        refine .during above rfl (by simp [Function.update_of_ne other, gray])
          (fun member => once (List.mem_cons_of_mem _ member)) fun isChild => ?_
        simpa using pushed isChild

/-- A node that has been left before is skipped. -/
private theorem Exploring.skip {entered : List CoreId} {state : GraphState}
    (exploring : Exploring program entered state) {id : CoreId} {stack : List (CoreId × Bool)}
    (top : state.stack = (id, false) :: stack) (black : state.colors id = .black) :
    Exploring program entered { state with stack } where
  nodup := exploring.nodup
  colored := exploring.colored
  exist := exploring.exist
  counts := exploring.counts
  single := exploring.single
  covered other isTarget := by
    rcases exploring.covered other isTarget with member | pending
    · exact .inl member
    · rw [top] at pending
      rcases List.mem_cons.mp pending with same | pending
      · obtain rfl := (Prod.mk.inj same).1
        exact .inl ((exploring.colored other).mp (by rw [black]; nofun))
      · exact .inr pending
  exits other member := exploring.exits other (by rw [top]; exact List.mem_cons_of_mem _ member)
  root := by
    cases exploring.root with
    | before fresh alone =>
      rw [top] at alone
      obtain ⟨same, -⟩ := List.cons.inj alone
      obtain rfl := (Prod.mk.inj same).1
      have := (exploring.colored program.root).mp (by rw [black]; nofun)
      simp [fresh] at this
    | after empty => simp [top] at empty
    | during above base gray once pushed =>
      rw [top] at base
      cases above with
      | nil => simp at base
      | cons entry above =>
        obtain ⟨rfl, rfl⟩ := List.cons.inj base
        refine .during above rfl gray (fun member => once (List.mem_cons_of_mem _ member))
          fun isChild => ?_
        rcases List.mem_cons.mp (pushed isChild) with same | member
        · obtain rfl := (Prod.mk.inj same).1
          rw [black] at gray
          cases gray
        · exact member

/-- Entering a node adds it and its edges. -/
private theorem Exploring.enter {entered : List CoreId} {state next : GraphState}
    (exploring : Exploring program entered state) {id : CoreId} {node : CoreNode}
    {stack : List (CoreId × Bool)} (top : state.stack = (id, false) :: stack)
    (found : program.node id = some node) (white : state.colors id = .white)
    (pushed : node.kind.children.reverse.foldlM (pushChild program id node)
      { state with colors := Function.update state.colors id .gray, stack := (id, true) :: stack } =
        .ok next) : Exploring program (id :: entered) next := by
  obtain ⟨colors, nextStack, counts, single⟩ := pushChildren_ok pushed
  rw [List.reverse_reverse] at nextStack
  have fresh : id ∉ entered := fun member => (exploring.colored id).mpr member white
  have grown : edges program (id :: entered) = node.kind.children ++ edges program entered := by
    simp [edges, childrenOf, found]
  refine ⟨List.nodup_cons.mpr ⟨fresh, exploring.nodup⟩, ?_, ?_, ?_, single exploring.single, ?_, ?_, ?_⟩
  · intro other
    rw [colors]
    by_cases same : other = id
    · subst same; simp
    · simpa [Function.update_of_ne same, same] using exploring.colored other
  · intro other member
    rcases List.mem_cons.mp member with rfl | member
    · rw [found]; rfl
    · exact exploring.exist other member
  · intro other
    rw [counts other, exploring.counts other, grown, List.count_append, List.count_reverse, Nat.add_comm]
  · intro other isTarget
    have old : other = program.root ∨ other ∈ edges program entered →
        other ∈ id :: entered ∨ (other, false) ∈ next.stack := by
      intro isOld
      rcases exploring.covered other isOld with member | pending
      · exact .inl (List.mem_cons_of_mem _ member)
      · rw [top] at pending
        rcases List.mem_cons.mp pending with same | pending
        · obtain rfl := (Prod.mk.inj same).1
          exact .inl (List.mem_cons_self ..)
        · exact .inr (by simp [nextStack, pending])
    rcases isTarget with isRoot | isEdge
    · exact old (.inl isRoot)
    · rw [grown, List.mem_append] at isEdge
      rcases isEdge with isChild | isEdge
      · exact .inr (by simp [nextStack, isChild])
      · exact old (.inr isEdge)
  · intro other member
    rw [nextStack] at member
    simp only [List.mem_append, List.mem_map, Prod.mk.injEq, Bool.false_eq_true, and_false, exists_false,
      false_or, List.mem_cons, and_true] at member
    rcases member with rfl | member
    · exact List.mem_cons_self ..
    · exact List.mem_cons_of_mem _ (exploring.exits other (by rw [top]; exact List.mem_cons_of_mem _ member))
  · have onlyFalse : ∀ other, (other, true) ∉ node.kind.children.map fun child => (child, false) := by
      simp
    cases exploring.root with
    | before isFresh alone =>
      rw [top] at alone
      obtain ⟨same, rfl⟩ := List.cons.inj alone
      obtain rfl := (Prod.mk.inj same).1
      refine .during _ nextStack (by simp [colors]) (onlyFalse _) fun isEdge => ?_
      rw [grown, isFresh] at isEdge
      simpa [edges] using isEdge
    | after empty => simp [top] at empty
    | during above base gray once isPushed =>
      rw [top] at base
      cases above with
      | nil => simp at base
      | cons entry above =>
        obtain ⟨rfl, rfl⟩ := List.cons.inj base
        have other : program.root ≠ id := fun same => by rw [same, white] at gray; cases gray
        refine .during (node.kind.children.map (fun child => (child, false)) ++ (id, true) :: above)
          (by simp [nextStack]) (by simp [colors, Function.update_of_ne other, gray]) ?_ ?_
        · simp only [List.mem_append, List.mem_cons, Prod.mk.injEq, and_true, not_or]
          exact ⟨onlyFalse _, other, fun member => once (List.mem_cons_of_mem _ member)⟩
        · intro isEdge
          rw [grown, List.mem_append] at isEdge
          rcases isEdge with isChild | isEdge
          · simp [isChild]
          · have pending := isPushed isEdge
            simp only [List.mem_cons, Prod.mk.injEq, and_true] at pending
            rcases pending with same | pending
            · exact absurd same other
            · simp [pending]

/-- The step lemma of the graph pass. -/
private theorem Exploring.turn {entered : List CoreId} {state next : GraphState}
    (exploring : Exploring program entered state) (again : graphTurn program state = .again next) :
    ∃ entered', Exploring program entered' next := by
  simp only [graphTurn] at again
  split at again
  next => cases again
  next id exiting stack top =>
    split at again
    next => cases again
    next node found =>
      split at again
      next isExit =>
        subst isExit
        obtain rfl := Turn.again.inj again
        exact ⟨entered, exploring.leave top⟩
      next isEnter =>
        obtain rfl : exiting = false := by simpa using isEnter
        split at again
        next => cases again
        next black =>
          obtain rfl := Turn.again.inj again
          exact ⟨entered, exploring.skip top black⟩
        next white =>
          split at again
          next => cases again
          next pushed =>
            obtain rfl := Turn.again.inj again
            exact ⟨id :: entered, exploring.enter top found white pushed⟩

/-- When the stack is empty every edge of an entered node leads to an entered node. -/
private theorem Exploring.finish {entered : List CoreId} {state : GraphState}
    (exploring : Exploring program entered state)
    (leave : graphTurn program state = .leave (.ok ())) : Explored program entered := by
  simp only [graphTurn] at leave
  split at leave
  next empty =>
    have inside : ∀ id, id = program.root ∨ id ∈ edges program entered → id ∈ entered := by
      intro id isTarget
      rcases exploring.covered id isTarget with member | pending
      · exact member
      · simp [empty] at pending
    refine ⟨exploring.nodup, exploring.exist, ?_, inside _ (.inl rfl), fun id isEdge => inside id (.inr isEdge), ?_⟩
    · rw [List.nodup_iff_count_le_one]
      intro id
      rw [← exploring.counts id]
      exact exploring.single id
    · cases exploring.root with
      | before _ alone => simp [empty] at alone
      | during _ base => simp [empty] at base
      | after _ free => exact free
  next id exiting stack top =>
    split at leave
    next => cases leave
    next node found =>
      split at leave
      next => cases leave
      next =>
        split at leave
        next => cases leave
        next => cases leave
        next => split at leave <;> cases leave

private theorem exploring_start :
    Exploring program [] ⟨fun _ => 0, fun _ => .white, [(program.root, false)]⟩ where
  nodup := List.nodup_nil
  colored := by simp
  exist := by simp
  counts := by simp [edges]
  single := by simp
  covered id isTarget := by
    rcases isTarget with rfl | isEdge
    · simp
    · simp [edges] at isEdge
  exits := by simp
  root := .before rfl rfl

/-- The graph pass succeeds only when it has explored a set of nodes that is closed under children. -/
theorem checkGraph_explored {fuel : ℕ} (checked : checkGraph fuel program = some (.ok ())) :
    ∃ entered, Explored program entered :=
  run_invariant (fun state => ∃ entered, Exploring program entered state)
    (fun result => result = .ok () → ∃ entered, Explored program entered)
    (fun _ _ ⟨_, exploring⟩ again => exploring.turn (Option.some.inj again))
    (fun _ _ ⟨entered, exploring⟩ leave isOk =>
      ⟨entered, exploring.finish (by rw [← isOk]; exact Option.some.inj leave)⟩)
    ⟨[], exploring_start⟩ checked rfl

/-- Two edges to one node are one edge. -/
private theorem Explored.edge_unique {entered : List CoreId} (explored : Explored program entered)
    {parent parent' child : CoreId} {position position' : ℕ} (member : parent ∈ entered)
    (member' : parent' ∈ entered) (edge : (childrenOf program parent)[position]? = some child)
    (edge' : (childrenOf program parent')[position']? = some child) :
    parent = parent' ∧ position = position' := by
  obtain ⟨nodup, disjoint⟩ := List.nodup_flatMap.mp explored.single
  have same : parent = parent' := by
    by_contra differ
    have symm : Std.Symm (Function.onFun List.Disjoint (childrenOf program)) :=
      ⟨fun _ _ apart _ left right => apart right left⟩
    have apart := disjoint.forall member member' differ
    exact apart (List.mem_of_getElem? edge) (List.mem_of_getElem? edge')
  subst same
  exact ⟨rfl, (List.getElem?_inj (List.getElem?_eq_some_iff.mp edge).1 (nodup parent member)).mp
    (edge.trans edge'.symm)⟩

private theorem Explored.follow_mem {entered : List CoreId} (explored : Explored program entered)
    {path : List ℕ} {id : CoreId} (reached : follow program program.root path = some id) :
    id ∈ entered := by
  induction path using List.reverseRecOn generalizing id with
  | nil =>
    obtain rfl := Option.some.inj reached
    exact explored.rooted
  | append_singleton path position ih =>
    rw [follow_append] at reached
    simp only [follow, Option.bind_eq_bind, Option.bind_eq_some_iff, Option.some.injEq] at reached
    obtain ⟨parent, before, node, found, child, edge, rfl⟩ := reached
    apply explored.closed
    refine List.mem_flatMap.mpr ⟨parent, ih before, ?_⟩
    simpa [childrenOf, found] using List.mem_of_getElem? edge

private theorem follow_snoc {path : List ℕ} {position : ℕ} {id : CoreId}
    (reached : follow program program.root (path ++ [position]) = some id) :
    ∃ parent, follow program program.root path = some parent ∧
      (childrenOf program parent)[position]? = some id := by
  rw [follow_append] at reached
  simp only [follow, Option.bind_eq_bind, Option.bind_eq_some_iff, Option.some.injEq] at reached
  obtain ⟨parent, before, node, found, child, edge, rfl⟩ := reached
  exact ⟨parent, before, by simpa [childrenOf, found] using edge⟩

/-- Explored nodes form a tree. -/
theorem Explored.treeShaped {entered : List CoreId} (explored : Explored program entered) :
    TreeShaped program where
  exist path id reached := explored.exist id (explored.follow_mem reached)
  unique first := by
    have notRoot : ∀ path position, follow program program.root (path ++ [position]) ≠
        some program.root := by
      intro path position reached
      obtain ⟨parent, before, edge⟩ := follow_snoc reached
      exact explored.free (List.mem_flatMap.mpr
        ⟨parent, explored.follow_mem before, List.mem_of_getElem? edge⟩)
    induction first using List.reverseRecOn with
    | nil =>
      intro second id reached reached'
      obtain rfl := Option.some.inj reached
      cases second using List.reverseRecOn with
      | nil => rfl
      | append_singleton second position => exact absurd reached' (notRoot second position)
    | append_singleton first position ih =>
      intro second id reached reached'
      cases second using List.reverseRecOn with
      | nil =>
        obtain rfl := Option.some.inj reached'
        exact absurd reached (notRoot first position)
      | append_singleton second position' =>
        obtain ⟨parent, before, edge⟩ := follow_snoc reached
        obtain ⟨parent', before', edge'⟩ := follow_snoc reached'
        obtain ⟨rfl, rfl⟩ := explored.edge_unique (explored.follow_mem before)
          (explored.follow_mem before') edge edge'
        rw [ih second parent before before']

end Graph

end HellRs.Core
