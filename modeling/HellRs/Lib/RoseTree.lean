import Mathlib

/-! # Rose trees

Trees with any number of children in order: the functor and the monad, the nodes in preorder, and the nodes at a depth.
-/

namespace HellRs

inductive RoseTree (α : Type) where
  | node (root : α) (children : List (RoseTree α))

namespace RoseTree

variable {α β γ : Type}

def root : RoseTree α → α
  | node root _ => root

def children : RoseTree α → List (RoseTree α)
  | node _ children => children

@[simp] theorem root_node (root : α) (children : List (RoseTree α)) : (node root children).root = root := rfl

@[simp] theorem children_node (root : α) (children : List (RoseTree α)) : (node root children).children = children := rfl

@[elab_as_elim]
theorem induction {motive : RoseTree α → Prop} (node : ∀ root children, (∀ child ∈ children, motive child) → motive (node root children))
    (tree : RoseTree α) : motive tree :=
  @RoseTree.rec α motive (fun children => ∀ child ∈ children, motive child) node nofun
    (fun _ _ first rest child member => (List.mem_cons.mp member).elim (fun same => same ▸ first) (rest child)) tree

/-! ## Functor and monad -/

mutual

def map (f : α → β) : RoseTree α → RoseTree β
  | node root children => node (f root) (mapForest f children)

def mapForest (f : α → β) : List (RoseTree α) → List (RoseTree β)
  | [] => []
  | tree :: trees => map f tree :: mapForest f trees

end

mutual

/-- The children that the function gives to the root come before the other children. -/
def bind (f : α → RoseTree β) : RoseTree α → RoseTree β
  | node root children => node (f root).root ((f root).children ++ bindForest f children)

def bindForest (f : α → RoseTree β) : List (RoseTree α) → List (RoseTree β)
  | [] => []
  | tree :: trees => bind f tree :: bindForest f trees

end

theorem mapForest_eq (f : α → β) (trees : List (RoseTree α)) : mapForest f trees = trees.map (map f) := by
  induction trees with
  | nil => rfl
  | cons tree trees ih => rw [mapForest, ih, List.map_cons]

theorem bindForest_eq (f : α → RoseTree β) (trees : List (RoseTree α)) : bindForest f trees = trees.map (bind f) := by
  induction trees with
  | nil => rfl
  | cons tree trees ih => rw [bindForest, ih, List.map_cons]

theorem map_node (f : α → β) (root : α) (children : List (RoseTree α)) :
    map f (node root children) = node (f root) (children.map (map f)) := by
  rw [map, mapForest_eq]

theorem bind_node (f : α → RoseTree β) (root : α) (children : List (RoseTree α)) :
    bind f (node root children) = node (f root).root ((f root).children ++ children.map (bind f)) := by
  rw [bind, bindForest_eq]

instance : Monad RoseTree where
  pure root := node root []
  bind tree f := bind f tree

theorem pure_eq (root : α) : (pure root : RoseTree α) = node root [] := rfl

theorem bind_eq (tree : RoseTree α) (f : α → RoseTree β) : tree >>= f = bind f tree := rfl

theorem map_eq (f : α → β) (tree : RoseTree α) : f <$> tree = map f tree := by
  change bind (fun root => node (f root) []) tree = map f tree
  induction tree using induction with
  | node root children ih =>
    rw [bind_node, map_node, root_node, children_node, List.nil_append, List.map_congr_left ih]

theorem map_id (tree : RoseTree α) : map id tree = tree := by
  induction tree using induction with
  | node root children ih => rw [map_node, List.map_congr_left ih, List.map_id', id]

theorem bind_assoc (f : α → RoseTree β) (g : β → RoseTree γ) (tree : RoseTree α) :
    bind g (bind f tree) = bind (fun root => bind g (f root)) tree := by
  induction tree using induction with
  | node root children ih =>
    rw [bind_node f, bind_node, bind_node]
    cases given : f root with
    | node root' children' =>
      rw [root_node, children_node, bind_node, List.map_append, List.map_map, ← List.map_congr_left ih, root_node, children_node,
        List.append_assoc]
      rfl

instance : LawfulMonad RoseTree := LawfulMonad.mk' RoseTree (fun tree => (map_eq id tree).trans (map_id tree))
  (fun root f => by
    change bind f (node root []) = f root
    rw [bind_node, List.map_nil, List.append_nil]
    cases f root
    rfl)
  (fun tree f g => bind_assoc f g tree)

/-! ## Nodes -/

mutual

/-- The nodes, a root before its children. -/
def preorder : RoseTree α → List α
  | node root children => root :: preorderForest children

def preorderForest : List (RoseTree α) → List α
  | [] => []
  | tree :: trees => preorder tree ++ preorderForest trees

end

/-- The nodes at a depth, from left to right. -/
def atDepth : ℕ → RoseTree α → List α
  | 0, tree => [tree.root]
  | depth + 1, tree => tree.children.flatMap (atDepth depth)

theorem preorderForest_eq (trees : List (RoseTree α)) : preorderForest trees = trees.flatMap preorder := by
  induction trees with
  | nil => rfl
  | cons tree trees ih => rw [preorderForest, ih, List.flatMap_cons]

theorem preorder_eq (tree : RoseTree α) : preorder tree = tree.root :: tree.children.flatMap preorder := by
  cases tree with
  | node root children => rw [preorder, preorderForest_eq, root_node, children_node]

/-- The number of nodes. -/
def size (tree : RoseTree α) : ℕ := tree.preorder.length

theorem sum_size_children (trees : List (RoseTree α)) :
    (trees.map size).sum = trees.length + ((trees.flatMap children).map size).sum := by
  induction trees with
  | nil => rfl
  | cons tree trees ih =>
    have first : size tree = 1 + (tree.children.map size).sum := by
      rw [size, preorder_eq, List.length_cons, List.length_flatMap, Nat.add_comm]
      rfl
    rw [List.map_cons, List.sum_cons, ih, first, List.flatMap_cons, List.map_append, List.sum_append, List.length_cons]
    omega

end RoseTree

end HellRs
