import Mathlib
import HellRs.Lib.Term
import HellRs.Types.Arena

/-! # The finite trees that type identifiers denote

When every node mentions only earlier nodes, each identifier denotes one finite tree over the
metavariables. Growing the arena changes no tree that is already denoted. The kind of a tree is
what `kind_of` computes for its identifier.
-/

namespace HellRs.Types

open Loop

/-- Nullary type nodes. -/
inductive TypeLeaf where
  | bound (index : ℕ)
  | constructor (name : String) (kind : KindId)
  | symbol (text : String)
  | rowNil
deriving DecidableEq, Repr

/-- Binary type nodes. -/
inductive TypeBinary where
  | apply
  | function
  | rowCons (label : String)
deriving DecidableEq, Repr

/-- Types as finite trees. -/
abbrev Tree := Term MetaId TypeLeaf TypeBinary

/-- The tree of a node whose children denote `denote`. -/
def TypeNode.tree (denote : TypeId → Tree) : TypeNode → Tree
  | .metavar id => .var id
  | .bound index => .leaf (.bound index)
  | .constructor name kind => .leaf (.constructor name kind)
  | .apply head argument => .node .apply (denote head) (denote argument)
  | .function argument result => .node .function (denote argument) (denote result)
  | .symbol text => .leaf (.symbol text)
  | .rowNil => .leaf .rowNil
  | .rowCons label field tail => .node (.rowCons label) (denote field) (denote tail)

theorem TypeNode.tree_congr {first second : TypeId → Tree} {node : TypeNode}
    (same : ∀ child ∈ node.children, first child = second child) :
    node.tree first = node.tree second := by
  cases node <;> simp_all [TypeNode.tree, TypeNode.children]

namespace TypeArena

/-- The trees of the nodes of a list, in order; an identifier out of bounds denotes an empty row. -/
def trees (nodes : List TypeNode) : List Tree :=
  nodes.foldl (fun built node => built ++ [node.tree fun id => built.getD id (.leaf .rowNil)]) []

/-- The finite tree an identifier denotes. -/
def tree (arena : TypeArena) (id : TypeId) : Tree :=
  (trees arena.nodes).getD id (.leaf .rowNil)

/-- Every node mentions earlier nodes only. -/
def WellFounded (arena : TypeArena) : Prop :=
  ∀ id node, arena.get id = some node → ∀ child ∈ node.children, child < id

private theorem trees_append (nodes : List TypeNode) (node : TypeNode) :
    trees (nodes ++ [node]) =
      trees nodes ++ [node.tree fun id => (trees nodes).getD id (.leaf .rowNil)] := by
  simp [trees]

private theorem trees_length (nodes : List TypeNode) : (trees nodes).length = nodes.length := by
  induction nodes using List.reverseRecOn with
  | nil => rfl
  | append_singleton nodes node ih => simp [trees_append, ih]

/-- An identifier of the arena keeps its tree when a node is added. -/
theorem tree_push (arena : TypeArena) {id : TypeId} (allocated : id < arena.nodes.length)
    (node : TypeNode) : tree ⟨arena.nodes ++ [node]⟩ id = arena.tree id := by
  simp only [tree, trees_append]
  rw [List.getD_append _ _ _ _ (by rw [trees_length]; exact allocated)]

theorem get_lt {arena : TypeArena} {id : TypeId} {node : TypeNode}
    (found : arena.get id = some node) : id < arena.nodes.length :=
  (List.getElem?_eq_some_iff.mp found).1

theorem exists_get {arena : TypeArena} {id : TypeId} (allocated : id < arena.nodes.length) :
    ∃ node, arena.get id = some node :=
  ⟨_, List.getElem?_eq_getElem allocated⟩

/-- The tree of an identifier is built from the trees of the children of its node. -/
theorem WellFounded.tree_eq {arena : TypeArena} (wellFounded : arena.WellFounded) {id : TypeId}
    {node : TypeNode} (found : arena.get id = some node) : arena.tree id = node.tree arena.tree := by
  obtain ⟨nodes⟩ := arena
  induction nodes using List.reverseRecOn with
  | nil => cases found
  | append_singleton nodes last ih =>
    have earlier : (⟨nodes⟩ : TypeArena).WellFounded := by
      intro i n inside
      exact wellFounded i n ((List.getElem?_append_left (get_lt inside)).trans inside)
    have below := wellFounded id node found
    by_cases inside : id < nodes.length
    · rw [tree_push ⟨nodes⟩ inside]
      have old : (⟨nodes⟩ : TypeArena).get id = some node :=
        (List.getElem?_append_left inside).symm.trans found
      rw [ih earlier old]
      apply TypeNode.tree_congr
      intro child member
      exact (tree_push ⟨nodes⟩ (Nat.lt_trans (below child member) inside) last).symm
    · have here : id = nodes.length := by
        have bound := get_lt found
        simp only [List.length_append, List.length_singleton] at bound
        exact Nat.le_antisymm (Nat.lt_succ_iff.mp bound) (Nat.le_of_not_lt inside)
      subst here
      have same : last = node := by simpa [get] using found
      subst same
      have built : tree ⟨nodes ++ [last]⟩ nodes.length = last.tree (tree ⟨nodes⟩) := by
        simp only [tree, trees_append]
        rw [List.getD_append_right _ _ _ _ (by rw [trees_length])]
        simp only [trees_length, Nat.sub_self, List.getD_cons_zero]
        rfl
      rw [built]
      apply TypeNode.tree_congr
      intro child member
      exact (tree_push ⟨nodes⟩ (below child member) last).symm

/-- One arena holds all nodes of the other at their places. -/
def Extends (arena extended : TypeArena) : Prop :=
  arena.nodes <+: extended.nodes

theorem Extends.refl (arena : TypeArena) : arena.Extends arena := List.prefix_rfl

theorem Extends.trans {first second third : TypeArena} (left : first.Extends second)
    (right : second.Extends third) : first.Extends third :=
  List.IsPrefix.trans left right

theorem Extends.tree_eq {arena extended : TypeArena} (prefixed : arena.Extends extended)
    {id : TypeId} (allocated : id < arena.nodes.length) : extended.tree id = arena.tree id := by
  obtain ⟨nodes⟩ := extended
  obtain ⟨added, equal⟩ := prefixed
  simp only at equal
  subst equal
  induction added using List.reverseRecOn with
  | nil => rw [List.append_nil]
  | append_singleton added last ih =>
    rw [← List.append_assoc, tree_push ⟨arena.nodes ++ added⟩]
    · exact ih
    · rw [List.length_append]; exact Nat.lt_add_right _ allocated

theorem Extends.length_le {arena extended : TypeArena} (prefixed : arena.Extends extended) :
    arena.nodes.length ≤ extended.nodes.length :=
  List.IsPrefix.length_le prefixed

theorem Extends.get {arena extended : TypeArena} (prefixed : arena.Extends extended)
    {id : TypeId} {node : TypeNode} (found : arena.get id = some node) :
    extended.get id = some node := by
  obtain ⟨added, equal⟩ := prefixed
  simp only [TypeArena.get, ← equal]
  exact (List.getElem?_append_left (get_lt found)).trans found

/-- What `intern` does: it finds the node, or it adds it at the end. -/
theorem intern_cases {arena arena' : TypeArena} {node : TypeNode} {id : TypeId}
    (interned : arena.intern node = some (id, arena')) :
    (arena' = arena ∧ node.isMeta = false ∧ arena.get id = some node) ∨
      (id = arena.nodes.length ∧ arena' = ⟨arena.nodes ++ [node]⟩) := by
  simp only [intern] at interned
  split at interned
  next _ known search =>
    simp only [Option.some.injEq, Prod.mk.injEq] at interned
    obtain ⟨rfl, rfl⟩ := interned
    refine .inl ⟨rfl, ?_⟩
    simp only [TypeArena.interned] at search
    split at search
    · cases search
    next plain =>
      obtain ⟨inside, equal, _⟩ := List.idxOf?_eq_some_iff.mp search
      exact ⟨by simpa using plain, List.getElem?_eq_some_iff.mpr ⟨inside, equal⟩⟩
  next =>
    split at interned
    · simp only [Option.some.injEq, Prod.mk.injEq] at interned
      exact .inr ⟨interned.1.symm, interned.2.symm⟩
    · cases interned

theorem intern_extends {arena arena' : TypeArena} {node : TypeNode} {id : TypeId}
    (interned : arena.intern node = some (id, arena')) :
    arena.Extends arena' ∧ arena'.get id = some node := by
  rcases intern_cases interned with ⟨rfl, _, found⟩ | ⟨rfl, rfl⟩
  · exact ⟨.refl _, found⟩
  · exact ⟨⟨[node], rfl⟩, by simp [get]⟩

/-- Interning a node with allocated children keeps the arena well founded. -/
theorem WellFounded.intern {arena arena' : TypeArena} (wellFounded : arena.WellFounded)
    {node : TypeNode} {id : TypeId} (allocated : ∀ child ∈ node.children, child < arena.nodes.length)
    (interned : arena.intern node = some (id, arena')) : arena'.WellFounded := by
  rcases intern_cases interned with ⟨rfl, _⟩ | ⟨_, rfl⟩
  · exact wellFounded
  · intro i n found child member
    by_cases inside : i < arena.nodes.length
    · exact wellFounded i n ((List.getElem?_append_left inside).symm.trans found) child member
    · have here : i = arena.nodes.length := by
        have bound := get_lt found
        rw [List.length_append, List.length_singleton] at bound
        exact Nat.le_antisymm (Nat.lt_succ_iff.mp bound) (Nat.le_of_not_lt inside)
      subst here
      have same : node = n := by simpa [get] using found
      exact allocated child (same ▸ member)

end TypeArena

/-- The kinds of type symbols in a kind arena. A bound variable has no kind. -/
def KindArena.sorting (kinds : KindArena) : Term.Sorting TypeLeaf TypeBinary KindId where
  leaf
    | .bound _ => none
    | .constructor _ kind => some kind
    | .symbol _ => some KindArena.SYMBOL
    | .rowNil => some KindArena.ROW
  node
    | .apply, function, argument =>
        match kinds.get function with
        | some (.arrow expected result) => if expected = argument then some result else none
        | _ => none
    | .function, argument, result =>
        if argument = KindArena.TYPE ∧ result = KindArena.TYPE then some KindArena.TYPE else none
    | .rowCons _, field, tail =>
        if field = KindArena.TYPE ∧ tail = KindArena.ROW then some KindArena.ROW else none

/-- The kind of a tree, when it is well kinded. -/
abbrev KindArena.kind (kinds : KindArena) (κ : MetaId → KindId) (t : Tree) : Option KindId :=
  t.sort kinds.sorting κ

end HellRs.Types
