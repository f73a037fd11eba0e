import HellRs.Lib.WeightBalanced

/-! # The trees of maps and sets

An `Option<Arc<TreeNode<T>>>` is a tree. `none` is an `expect` that fails. Sizes of trees in memory do not saturate.
-/

namespace HellRs.Collections

open Ordnode

abbrev Tree (T : Type*) := Ordnode T

variable {T : Type*} {item : T} {left right : Tree T}

def decideEq [DecidableEq T] : (left right : Tree T) → Decidable (left = right)
  | .nil, .nil => isTrue rfl
  | .nil, .node .. => isFalse nofun
  | .node .., .nil => isFalse nofun
  | .node size left item right, .node size' left' item' right' =>
    letI := decideEq left left'
    letI := decideEq right right'
    decidable_of_iff (size = size' ∧ left = left' ∧ item = item' ∧ right = right') (by rw [Ordnode.node.injEq])

instance Tree.decidableEq [DecidableEq T] : DecidableEq (Ordnode T) := decideEq

def sizeBalanceDelta : ℕ := 3
def sizeBalanceRatio : ℕ := 2

def TreeNode.new (item : T) (left right : Tree T) : Tree T := .node (1 + left.size + right.size) left item right

def rotateLeft (item : T) (left : Tree T) : Tree T → Option (Tree T)
  | .nil => none
  | .node _ rightLeft rightItem rightRight =>
    some (TreeNode.new rightItem (TreeNode.new item left rightLeft) rightRight)

def rotateRight (item : T) (left right : Tree T) : Option (Tree T) :=
  match left with
  | .nil => none
  | .node _ leftLeft leftItem leftRight =>
    some (TreeNode.new leftItem leftLeft (TreeNode.new item leftRight right))

/-- `balance_left` of the new node. -/
def balanceLeft (item : T) (left right : Tree T) : Option (Tree T) :=
  if left.size + right.size ≤ 1 ∨ left.size ≤ sizeBalanceDelta * right.size then some (TreeNode.new item left right)
  else match left with
    | .nil => none
    | .node _ leftLeft leftItem leftRight =>
      if leftRight.size < sizeBalanceRatio * leftLeft.size then rotateRight item left right
      else do
        let left ← rotateLeft leftItem leftLeft leftRight
        rotateRight item left right

/-- `balance_right` of the new node. -/
def balanceRight (item : T) (left right : Tree T) : Option (Tree T) :=
  if left.size + right.size ≤ 1 ∨ right.size ≤ sizeBalanceDelta * left.size then some (TreeNode.new item left right)
  else match right with
    | .nil => none
    | .node _ rightLeft rightItem rightRight =>
      if rightLeft.size < sizeBalanceRatio * rightRight.size then rotateLeft item left right
      else do
        let right ← rotateRight rightItem rightLeft rightRight
        rotateLeft item left right

def insertMin (item : T) : Tree T → Option (Tree T)
  | .nil => some (TreeNode.new item .nil .nil)
  | .node _ left treeItem right => do
    let left ← insertMin item left
    balanceLeft treeItem left right

def insertMax (item : T) : Tree T → Option (Tree T)
  | .nil => some (TreeNode.new item .nil .nil)
  | .node _ left treeItem right => do
    let right ← insertMax item right
    balanceRight treeItem left right

def link (item : T) (left right : Tree T) : Option (Tree T) :=
  match left, right with
  | .nil, right => insertMin item right
  | left, .nil => insertMax item left
  | .node leftLen leftLeft leftItem leftRight, .node rightLen rightLeft rightItem rightRight =>
    if sizeBalanceDelta * leftLen < rightLen then do
      let left ← link item (.node leftLen leftLeft leftItem leftRight) rightLeft
      balanceLeft rightItem left rightRight
    else if sizeBalanceDelta * rightLen < leftLen then do
      let right ← link item leftRight (.node rightLen rightLeft rightItem rightRight)
      balanceRight leftItem leftLeft right
    else
      some (TreeNode.new item (.node leftLen leftLeft leftItem leftRight)
        (.node rightLen rightLeft rightItem rightRight))
termination_by sizeOf left + sizeOf right

/-- `take_min` of the node. -/
def takeMin (item : T) (left right : Tree T) : Option (T × Tree T) :=
  match left with
  | .nil => some (item, right)
  | .node _ leftLeft leftItem leftRight => do
    let (first, left) ← takeMin leftItem leftLeft leftRight
    let rest ← balanceRight item left right
    some (first, rest)

/-- `take_max` of the node. -/
def takeMax (item : T) (left right : Tree T) : Option (T × Tree T) :=
  match right with
  | .nil => some (item, left)
  | .node _ rightLeft rightItem rightRight => do
    let (last, right) ← takeMax rightItem rightLeft rightRight
    let rest ← balanceLeft item left right
    some (last, rest)

def glue : Tree T → Tree T → Option (Tree T)
  | .nil, right => some right
  | left, .nil => some left
  | .node leftLen leftLeft leftItem leftRight, .node rightLen rightLeft rightItem rightRight =>
    if leftLen > rightLen then do
      let (item, left) ← takeMax leftItem leftLeft leftRight
      balanceRight item left (.node rightLen rightLeft rightItem rightRight)
    else do
      let (item, right) ← takeMin rightItem rightLeft rightRight
      balanceLeft item (.node leftLen leftLeft leftItem leftRight) right

def mergeNodes (left right : Tree T) : Option (Tree T) :=
  match left, right with
  | .nil, right => some right
  | left, .nil => some left
  | .node leftLen leftLeft leftItem leftRight, .node rightLen rightLeft rightItem rightRight =>
    if sizeBalanceDelta * leftLen < rightLen then do
      let left ← mergeNodes (.node leftLen leftLeft leftItem leftRight) rightLeft
      balanceLeft rightItem left rightRight
    else if sizeBalanceDelta * rightLen < leftLen then do
      let right ← mergeNodes leftRight (.node rightLen rightLeft rightItem rightRight)
      balanceRight leftItem leftLeft right
    else glue (.node leftLen leftLeft leftItem leftRight) (.node rightLen rightLeft rightItem rightRight)
termination_by sizeOf left + sizeOf right

def fromSorted (items : List T) : Tree T :=
  match _rest : items.drop (items.length / 2) with
  | [] => .nil
  | item :: right => TreeNode.new item (fromSorted (items.take (items.length / 2))) (fromSorted right)
termination_by items.length
decreasing_by
  all_goals
    have := congrArg List.length _rest
    simp only [List.length_take, List.length_drop, List.length_cons] at *
    omega

/-- The tree is there, it is balanced, and it has these items in order. -/
def Builds (result : Option (Tree T)) (items : List T) : Prop :=
  ∃ tree, result = some tree ∧ WeightBalanced tree ∧ tree.toList = items

section Balancing

theorem TreeNode.new_eq (item : T) (left right : Tree T) : TreeNode.new item left right = node' left item right := by
  rw [TreeNode.new, add_comm 1, add_right_comm]

theorem TreeNode.toList_new (item : T) (left right : Tree T) :
    (TreeNode.new item left right).toList = left.toList ++ item :: right.toList := toList_node ..

theorem TreeNode.size_new (item : T) (left right : Tree T) :
    (TreeNode.new item left right).size = left.size + right.size + 1 := by rw [TreeNode.new_eq, size_node]

theorem TreeNode.balanced_new (hl : WeightBalanced left) (hr : WeightBalanced right)
    (even : BalancedSz left.size right.size) : WeightBalanced (TreeNode.new item left right) := by
  rw [TreeNode.new_eq]
  exact hl.node' hr even

theorem singleton_balanced (item : T) : WeightBalanced (TreeNode.new item .nil .nil) :=
  TreeNode.balanced_new .nil .nil (.inl (by simp))

/-- The inner child of a heavy side is there when its outer child is too light to go up alone. -/
theorem inner_ne_nil {size : ℕ} {outer inner : Tree T} (balanced : WeightBalanced (.node size outer item inner))
    (heavy : 1 < size) (light : ¬ inner.size < 2 * outer.size) : inner ≠ .nil := by
  rintro rfl
  obtain ⟨rfl, -, -, even⟩ := WeightBalanced.node_iff.mp balanced
  simp only [size_nil, BalancedSz, delta] at *
  omega

/-- The code's one or two turns are one rotation, for which nothing is missing. -/
theorem balanceLeft_eq (balanced : WeightBalanced left) :
    balanceLeft item left right = some (balanceL' left item right) := by
  unfold balanceLeft balanceL'
  simp only [TreeNode.new_eq, sizeBalanceDelta, delta, sizeBalanceRatio]
  by_cases small : left.size + right.size ≤ 1
  · simp [small]
  by_cases light : left.size ≤ 3 * right.size
  · simp [small, light]
  simp only [small, light, or_self, gt_iff_lt, not_le.mp light, ↓reduceIte]
  cases left with
  | nil => simp at light
  | node size outer y inner =>
    by_cases single : inner.size < 2 * outer.size
    · simp [rotateR, ratio, single, rotateRight, TreeNode.new_eq, node3R]
    · simp only [size_node] at small light
      cases inner with
      | nil => exact absurd rfl (inner_ne_nil balanced (by omega) single)
      | node =>
        rw [size_node] at single
        simp [rotateR, ratio, single, rotateLeft, rotateRight, TreeNode.new_eq, node4R]

theorem TreeNode.dual_new (item : T) (left right : Tree T) :
    (TreeNode.new item left right).dual = TreeNode.new item right.dual left.dual := by
  simp only [TreeNode.new_eq, dual_node']

theorem rotateLeft_dual (item : T) (left right : Tree T) :
    (rotateRight item left right).map dual = rotateLeft item right.dual left.dual := by
  cases left <;> simp [rotateLeft, rotateRight, TreeNode.dual_new]

theorem rotateRight_dual (item : T) (left right : Tree T) :
    (rotateLeft item left right).map dual = rotateRight item right.dual left.dual := by
  cases right <;> simp [rotateLeft, rotateRight, TreeNode.dual_new]

theorem balanceLeft_dual (item : T) (left right : Tree T) :
    (balanceRight item left right).map dual = balanceLeft item right.dual left.dual := by
  unfold balanceRight balanceLeft
  simp only [size_dual, add_comm right.size]
  split_ifs with light
  · simp [TreeNode.dual_new]
  · cases right with
    | nil => rfl
    | node size inner y outer =>
      simp only [dual, size_dual]
      split_ifs
      · exact rotateRight_dual ..
      · rw [← rotateLeft_dual]
        cases rotateRight y inner outer with
        | none => rfl
        | some right => exact rotateRight_dual ..

theorem balanceRight_eq (balanced : WeightBalanced right) :
    balanceRight item left right = some (balanceR' left item right) := by
  have mirrored := balanceLeft_dual item left right
  rw [balanceLeft_eq balanced.dual, ← dual_balanceR'] at mirrored
  exact Option.map_injective (Function.LeftInverse.injective dual_dual) mirrored

theorem balanceLeft_builds (hl : WeightBalanced left) (hr : WeightBalanced right) (leans : Leans left.size right.size) :
    Builds (balanceLeft item left right) (left.toList ++ item :: right.toList) :=
  ⟨_, balanceLeft_eq hl, hl.balanceL' hr leans, toList_balanceL' ..⟩

theorem balanceRight_builds (hl : WeightBalanced left) (hr : WeightBalanced right) (leans : Leans right.size left.size) :
    Builds (balanceRight item left right) (left.toList ++ item :: right.toList) :=
  ⟨_, balanceRight_eq hr, hl.balanceR' hr leans, toList_balanceR' ..⟩

end Balancing

section Specifications

theorem Builds.of_node {result : Option (Tree T)} {items : List T} (builds : Builds result items) :
    ∃ tree, result = some tree ∧ WeightBalanced tree ∧ tree.toList = items ∧ tree.size = items.length := by
  obtain ⟨tree, built, balanced, rfl⟩ := builds
  exact ⟨tree, built, balanced, rfl, balanced.length_toList.symm⟩

theorem insertMin_builds (item : T) : ∀ tree : Tree T, WeightBalanced tree →
    Builds (insertMin item tree) (item :: tree.toList)
  | .nil, _ => ⟨_, rfl, singleton_balanced item, rfl⟩
  | .node _ left treeItem right, balanced => by
    obtain ⟨-, hl, hr, even⟩ := WeightBalanced.node_iff.mp balanced
    obtain ⟨left', built, hl', items, size⟩ := (insertMin_builds item left hl).of_node
    rw [List.length_cons, hl.length_toList] at size
    have := @balanceLeft_builds _ treeItem _ _ hl' hr (Leans.grown even (by omega) (by omega))
    simpa [insertMin, built, items] using this

theorem insertMax_builds (item : T) : ∀ tree : Tree T, WeightBalanced tree →
    Builds (insertMax item tree) (tree.toList ++ [item])
  | .nil, _ => ⟨_, rfl, singleton_balanced item, rfl⟩
  | .node _ left treeItem right, balanced => by
    obtain ⟨-, hl, hr, even⟩ := WeightBalanced.node_iff.mp balanced
    obtain ⟨right', built, hr', items, size⟩ := (insertMax_builds item right hr).of_node
    rw [List.length_append, List.length_singleton, hr.length_toList] at size
    have := @balanceRight_builds _ treeItem _ _ hl hr' (Leans.grown even.symm (by omega) (by omega))
    simpa [insertMax, built, items] using this

theorem link_builds (item : T) (left right : Tree T) (hl : WeightBalanced left) (hr : WeightBalanced right) :
    Builds (link item left right) (left.toList ++ item :: right.toList) := by
  fun_induction link item left right with
  | case1 right => simpa using insertMin_builds item right hr
  | case2 left => simpa using insertMax_builds item left hl
  | case3 leftLen leftLeft leftItem leftRight rightLen rightLeft rightItem rightRight heavy ih =>
    obtain ⟨rfl, hrl, hrr, even⟩ := WeightBalanced.node_iff.mp hr
    obtain ⟨left', built, hl', items, size⟩ := (ih hl hrl).of_node
    rw [List.length_append, List.length_cons, hl.length_toList, hrl.length_toList, size_node] at size
    have := @balanceLeft_builds _ rightItem _ _ hl' hrr (Leans.sunk even heavy (by omega) (by omega))
    simpa [built, items] using this
  | case4 leftLen leftLeft leftItem leftRight rightLen rightLeft rightItem rightRight _ heavy ih =>
    obtain ⟨rfl, hll, hlr, even⟩ := WeightBalanced.node_iff.mp hl
    obtain ⟨right', built, hr', items, size⟩ := (ih hlr hr).of_node
    rw [List.length_append, List.length_cons, hr.length_toList, hlr.length_toList, size_node] at size
    have := @balanceRight_builds _ leftItem _ _ hll hr'
      (Leans.sunk even.symm (by rwa [add_comm leftRight.size]) (by omega) (by omega))
    simpa [built, items] using this
  | case5 leftLen leftLeft leftItem leftRight rightLen rightLeft rightItem rightRight left right =>
    exact ⟨_, rfl, TreeNode.balanced_new hl hr (balancedSz_of_not_lt left right), TreeNode.toList_new ..⟩

theorem takeMin_builds {item : T} {left right : Tree T} (hl : WeightBalanced left) (hr : WeightBalanced right)
    (even : BalancedSz left.size right.size) : ∃ first rest, takeMin item left right = some (first, rest) ∧
      WeightBalanced rest ∧ first :: rest.toList = left.toList ++ item :: right.toList := by
  induction left generalizing item right with
  | nil => exact ⟨item, right, rfl, hr, rfl⟩
  | node _ leftLeft leftItem leftRight ih =>
    obtain ⟨size, hll, hlr, even'⟩ := WeightBalanced.node_iff.mp hl
    obtain ⟨first, rest, taken, balanced, items⟩ := @ih leftItem leftRight hll hlr even'
    have length := congrArg List.length items
    simp only [List.length_cons, List.length_append, balanced.length_toList, hll.length_toList,
      hlr.length_toList] at length
    rw [size_node] at even
    obtain ⟨rest', built, balanced', items'⟩ :=
      @balanceRight_builds _ item _ _ balanced hr (Leans.shrunk even.symm (by omega) (by omega))
    refine ⟨first, rest', ?_, balanced', ?_⟩
    · simp [takeMin, taken, built]
    · rw [items', ← List.cons_append, items, toList_node]

theorem takeMax_builds {item : T} {left right : Tree T} (hl : WeightBalanced left) (hr : WeightBalanced right)
    (even : BalancedSz left.size right.size) : ∃ last rest, takeMax item left right = some (last, rest) ∧
      WeightBalanced rest ∧ rest.toList ++ [last] = left.toList ++ item :: right.toList := by
  induction right generalizing item left with
  | nil => exact ⟨item, left, by simp [takeMax], hl, rfl⟩
  | node _ rightLeft rightItem rightRight _ ih =>
    obtain ⟨size, hrl, hrr, even'⟩ := WeightBalanced.node_iff.mp hr
    obtain ⟨last, rest, taken, balanced, items⟩ := @ih rightItem rightLeft hrl hrr even'
    have length := congrArg List.length items
    simp only [List.length_cons, List.length_append, List.length_nil, balanced.length_toList, hrl.length_toList,
      hrr.length_toList] at length
    rw [size_node] at even
    obtain ⟨rest', built, balanced', items'⟩ :=
      @balanceLeft_builds _ item _ _ hl balanced (Leans.shrunk even (by omega) (by omega))
    refine ⟨last, rest', ?_, balanced', ?_⟩
    · simp [takeMax, taken, built]
    · rw [items', List.append_assoc, List.cons_append, items, toList_node]

/-- Two trees are glued when a node could hold them. -/
theorem glue_builds {left right : Tree T} (hl : WeightBalanced left) (hr : WeightBalanced right)
    (even : BalancedSz left.size right.size) : Builds (glue left right) (left.toList ++ right.toList) := by
  cases left with
  | nil => exact ⟨right, rfl, hr, rfl⟩
  | node leftLen leftLeft leftItem leftRight =>
    cases right with
    | nil => exact ⟨_, rfl, hl, (List.append_nil _).symm⟩
    | node rightLen rightLeft rightItem rightRight =>
      obtain ⟨leftSize, hll, hlr, evenLeft⟩ := WeightBalanced.node_iff.mp hl
      obtain ⟨rightSize, hrl, hrr, evenRight⟩ := WeightBalanced.node_iff.mp hr
      rw [size_node, size_node] at even
      by_cases heavy : leftLen > rightLen
      · obtain ⟨item, rest, taken, balanced, items⟩ := @takeMax_builds _ leftItem _ _ hll hlr evenLeft
        have length := congrArg List.length items
        simp only [List.length_cons, List.length_append, List.length_nil, balanced.length_toList,
          hll.length_toList, hlr.length_toList] at length
        have built := @balanceRight_builds _ item _ _ balanced hr (Leans.shrunk even.symm (by omega) (by omega))
        have : rest.toList ++ item :: (node rightLen rightLeft rightItem rightRight).toList =
            (node leftLen leftLeft leftItem leftRight).toList ++ (node rightLen rightLeft rightItem rightRight).toList := by
          rw [toList_node leftLen, ← items]
          simp
        rw [this] at built
        simpa [glue, heavy, taken] using built
      · obtain ⟨item, rest, taken, balanced, items⟩ := @takeMin_builds _ rightItem _ _ hrl hrr evenRight
        have length := congrArg List.length items
        simp only [List.length_cons, List.length_append, balanced.length_toList, hrl.length_toList,
          hrr.length_toList] at length
        have built := @balanceLeft_builds _ item _ _ hl balanced (Leans.shrunk even (by omega) (by omega))
        have : (node leftLen leftLeft leftItem leftRight).toList ++ item :: rest.toList =
            (node leftLen leftLeft leftItem leftRight).toList ++ (node rightLen rightLeft rightItem rightRight).toList := by
          rw [toList_node rightLen, ← items]
        rw [this] at built
        simpa [glue, heavy, taken] using built

theorem mergeNodes_builds (left right : Tree T) (hl : WeightBalanced left) (hr : WeightBalanced right) :
    Builds (mergeNodes left right) (left.toList ++ right.toList) := by
  fun_induction mergeNodes left right with
  | case1 right => exact ⟨right, rfl, hr, rfl⟩
  | case2 left => exact ⟨left, rfl, hl, (List.append_nil _).symm⟩
  | case3 leftLen leftLeft leftItem leftRight rightLen rightLeft rightItem rightRight heavy ih =>
    obtain ⟨rfl, hrl, hrr, even⟩ := WeightBalanced.node_iff.mp hr
    obtain ⟨left', built, hl', items, size⟩ := (ih hl hrl).of_node
    rw [List.length_append, hl.length_toList, hrl.length_toList, size_node] at size
    have := @balanceLeft_builds _ rightItem _ _ hl' hrr (Leans.sunk even heavy (by omega) (by omega))
    simpa [built, items] using this
  | case4 leftLen leftLeft leftItem leftRight rightLen rightLeft rightItem rightRight _ heavy ih =>
    obtain ⟨rfl, hll, hlr, even⟩ := WeightBalanced.node_iff.mp hl
    obtain ⟨right', built, hr', items, size⟩ := (ih hlr hr).of_node
    rw [List.length_append, hr.length_toList, hlr.length_toList, size_node] at size
    have := @balanceRight_builds _ leftItem _ _ hll hr'
      (Leans.sunk even.symm (by rwa [add_comm leftRight.size]) (by omega) (by omega))
    simpa [built, items] using this
  | case5 leftLen leftLeft leftItem leftRight rightLen rightLeft rightItem rightRight left right =>
    exact glue_builds hl hr (balancedSz_of_not_lt left right)

/-- The halves of a list differ by at most one item. -/
theorem fromSorted_builds (items : List T) :
    WeightBalanced (fromSorted items) ∧ (fromSorted items).toList = items := by
  fun_induction fromSorted items with
  | case1 items rest =>
    have := List.drop_eq_nil_iff.mp rest
    obtain rfl : items = [] := List.length_eq_zero_iff.mp (by omega)
    exact ⟨.nil, rfl⟩
  | case2 items item right rest ihLeft ihRight =>
    obtain ⟨hl, lower⟩ := ihLeft
    obtain ⟨hr, upper⟩ := ihRight
    have length := congrArg List.length rest
    simp only [List.length_drop, List.length_cons] at length
    refine ⟨TreeNode.balanced_new hl hr ?_, ?_⟩
    · rw [← hl.length_toList, ← hr.length_toList, lower, upper, List.length_take]
      simp only [BalancedSz, delta]
      omega
    · rw [TreeNode.toList_new, lower, upper, ← rest, List.take_append_drop]

end Specifications

end HellRs.Collections
