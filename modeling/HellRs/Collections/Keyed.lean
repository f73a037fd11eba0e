import HellRs.Collections.Sharing

/-! # The keys of a map

A tree of entries is made by comparing their keys, so its keys make the tree that they make as a set. What is done with the
sizes alone is done in the same way whatever the items are.
-/

namespace HellRs.Collections

open Ordnode Fallible

section Sizes

variable {α β : Type} (f : α → β)

@[simp] theorem size_map (tree : Tree α) : (tree.map f).size = tree.size := by cases tree <;> rfl

theorem map_new (item : α) (left right : Tree α) :
    (TreeNode.new item left right).map f = TreeNode.new (f item) (left.map f) (right.map f) := by
  simp [TreeNode.new, Ordnode.map]

section Equations

-- Made here once, and not by each proof that rewrites with them.
attribute [local simp] Ordnode.map rotateLeft rotateRight

end Equations

theorem rotateLeft_map (item : α) (left right : Tree α) :
    rotateLeft (f item) (left.map f) (right.map f) = (rotateLeft item left right).map (Ordnode.map f) := by
  cases right <;> simp [rotateLeft, Ordnode.map, map_new]

theorem rotateRight_map (item : α) (left right : Tree α) :
    rotateRight (f item) (left.map f) (right.map f) = (rotateRight item left right).map (Ordnode.map f) := by
  cases left <;> simp [rotateRight, Ordnode.map, map_new]

theorem balanceLeft_map (item : α) (left right : Tree α) :
    balanceLeft (f item) (left.map f) (right.map f) = (balanceLeft item left right).map (Ordnode.map f) := by
  unfold balanceLeft
  simp only [size_map]
  split_ifs with light
  · simp [map_new]
  · cases left with
    | nil => rfl
    | node len outer y inner =>
      simp only [Ordnode.map, size_map]
      split_ifs with single
      · exact rotateRight_map f item (.node len outer y inner) right
      · rw [rotateLeft_map]
        cases rotateLeft y outer inner with
        | none => rfl
        | some left => exact rotateRight_map f item left right

theorem balanceRight_map (item : α) (left right : Tree α) :
    balanceRight (f item) (left.map f) (right.map f) = (balanceRight item left right).map (Ordnode.map f) := by
  unfold balanceRight
  simp only [size_map]
  split_ifs with light
  · simp [map_new]
  · cases right with
    | nil => rfl
    | node len inner y outer =>
      simp only [Ordnode.map, size_map]
      split_ifs with single
      · exact rotateLeft_map f item left (.node len inner y outer)
      · rw [rotateRight_map]
        cases rotateRight y inner outer with
        | none => rfl
        | some right => exact rotateLeft_map f item left right

theorem insertMin_map (item : α) (tree : Tree α) :
    insertMin (f item) (tree.map f) = (insertMin item tree).map (Ordnode.map f) := by
  induction tree with
  | nil => simp [insertMin, Ordnode.map, map_new]
  | node len left y right ihLeft _ =>
    simp only [insertMin, Ordnode.map, ihLeft]
    cases insertMin item left with
    | none => rfl
    | some left => exact balanceLeft_map f y left right

theorem insertMax_map (item : α) (tree : Tree α) :
    insertMax (f item) (tree.map f) = (insertMax item tree).map (Ordnode.map f) := by
  induction tree with
  | nil => simp [insertMax, Ordnode.map, map_new]
  | node len left y right _ ihRight =>
    simp only [insertMax, Ordnode.map, ihRight]
    cases insertMax item right with
    | none => rfl
    | some right => exact balanceRight_map f y left right

theorem link_map (item : α) (left right : Tree α) :
    link (f item) (left.map f) (right.map f) = (link item left right).map (Ordnode.map f) := by
  fun_induction link item left right with
  | case1 right => rw [Ordnode.map, link, insertMin_map]
  | case2 left isNode =>
    cases left with
    | nil => exact absurd rfl isNode
    | node =>
      rw [← insertMax_map]
      unfold link
      rfl
  | case3 leftLen leftLeft leftItem leftRight rightLen rightLeft rightItem rightRight light ih =>
    rw [Ordnode.map, Ordnode.map, link, if_pos light]
    rw [Ordnode.map] at ih
    rw [ih]
    cases link item (.node leftLen leftLeft leftItem leftRight) rightLeft with
    | none => rfl
    | some left => exact balanceLeft_map f rightItem left rightRight
  | case4 leftLen leftLeft leftItem leftRight rightLen rightLeft rightItem rightRight notLight light ih =>
    rw [Ordnode.map, Ordnode.map, link, if_neg notLight, if_pos light]
    rw [Ordnode.map] at ih
    rw [ih]
    cases link item leftRight (.node rightLen rightLeft rightItem rightRight) with
    | none => rfl
    | some right => exact balanceRight_map f leftItem leftLeft right
  | case5 leftLen leftLeft leftItem leftRight rightLen rightLeft rightItem rightRight notLight notLight' =>
    rw [Ordnode.map, Ordnode.map, link, if_neg notLight, if_neg notLight', Option.map_some, map_new]
    rfl

end Sizes

section Insertion

variable {κ T σ ε : Type}

@[simp] theorem map_id_eq (tree : Tree T) : tree.map id = tree := by
  induction tree with
  | nil => rfl
  | node len left item right ihLeft ihRight => simp only [Ordnode.map, ihLeft, ihRight, id_eq]

theorem balanced_map {tree : Tree T} (balanced : WeightBalanced tree) (key : T → κ) : WeightBalanced (tree.map key) := by
  induction tree with
  | nil => exact .nil
  | node len left item right ihLeft ihRight =>
    obtain ⟨isLen, hl, hr, even⟩ := WeightBalanced.node_iff.mp balanced
    exact WeightBalanced.node_iff.mpr ⟨by simpa using isLen, ihLeft hl, ihRight hr, by simpa using even⟩

/-- A missing tree is missing on both sides. -/
theorem map_expect {α β : Type} (f : α → β) (result : Option α) :
    f <$> (expect result : Fallible σ ε α) = expect (result.map f) := by
  cases result <;> rfl

/-- The keys are inserted in the same way as the items that have them. -/
theorem insertNode_map (compare : κ → Fallible σ ε Ordering) (key : T → κ) (item : T) (tree : Tree T) :
    Ordnode.map key <$> insertNode (fun other => compare (key other)) (fun _ _ => return false)
      (fun _ => return some item) item tree =
      insertNode compare (fun _ _ => return false) (fun _ => return some (key item)) (key item) (tree.map key) := by
  induction tree with
  | nil => simp [insertNode, Ordnode.map, map_new]
  | node len left nodeItem right ihLeft ihRight =>
    simp only [insertNode, Ordnode.map, map_bind, pure_bind, ← ihLeft, ← ihRight, bind_map_left]
    refine congrArg _ (funext fun order => ?_)
    cases order with
    | lt => simp [map_expect, balanceLeft_map]
    | eq => simp [map_new]
    | gt => simp [map_expect, balanceRight_map]

end Insertion

end HellRs.Collections
