import Mathlib

/-! # Weight-balanced trees

The trees are `Ordnode`s. Nothing is asked of the items, so that the facts here hold of a tree whatever decided
where an item went. `Ordset` has the same for the trees of a preorder.
-/

namespace HellRs

open Ordnode

variable {α : Type*} {l r t : Ordnode α} {x : α}

/-- The sizes are right, and no node leans too far. -/
structure WeightBalanced (t : Ordnode α) : Prop where
  sized : t.Sized
  balanced : t.Balanced

namespace WeightBalanced

@[simp] theorem nil : WeightBalanced (.nil : Ordnode α) := ⟨trivial, trivial⟩

theorem node_iff {size : ℕ} : WeightBalanced (.node size l x r) ↔
    size = l.size + r.size + 1 ∧ WeightBalanced l ∧ WeightBalanced r ∧ BalancedSz l.size r.size :=
  ⟨fun ⟨⟨sized, sizedLeft, sizedRight⟩, even, left, right⟩ =>
      ⟨sized, ⟨sizedLeft, left⟩, ⟨sizedRight, right⟩, even⟩,
    fun ⟨sized, left, right, even⟩ =>
      ⟨⟨sized, left.sized, right.sized⟩, even, left.balanced, right.balanced⟩⟩

theorem node' (left : WeightBalanced l) (right : WeightBalanced r) (even : BalancedSz l.size r.size) :
    WeightBalanced (.node' l x r) := node_iff.mpr ⟨rfl, left, right, even⟩

theorem dual (balanced : WeightBalanced t) : WeightBalanced t.dual :=
  ⟨balanced.sized.dual, balanced.balanced.dual⟩

theorem length_toList (balanced : WeightBalanced t) : t.toList.length = t.size :=
  Ordnode.length_toList balanced.sized

theorem size_eq_zero (balanced : WeightBalanced t) : t.size = 0 ↔ t = .nil := balanced.sized.size_eq_zero

end WeightBalanced

section Items

@[simp] theorem toList_dual : ∀ t : Ordnode α, t.dual.toList = t.toList.reverse
  | .nil => rfl
  | .node _ l _ r => by simp [toList_dual l, toList_dual r]

theorem toList_rotateR (l : Ordnode α) (x : α) (r : Ordnode α) :
    (rotateR l x r).toList = l.toList ++ x :: r.toList := by
  rcases l with _ | ⟨_, _, _, _ | _⟩ <;> simp only [rotateR, node3R, node4R] <;> (try split) <;>
    simp [List.append_assoc]

theorem toList_balanceL' (l : Ordnode α) (x : α) (r : Ordnode α) :
    (balanceL' l x r).toList = l.toList ++ x :: r.toList := by
  unfold balanceL'
  split_ifs <;> simp [toList_rotateR]

theorem dual_balanceL' (l : Ordnode α) (x : α) (r : Ordnode α) :
    (balanceL' l x r).dual = balanceR' r.dual x l.dual := by
  simp only [balanceL', balanceR', apply_ite Ordnode.dual, dual_node', dual_rotateR, size_dual, add_comm r.size]

theorem dual_balanceR' (l : Ordnode α) (x : α) (r : Ordnode α) :
    (balanceR' l x r).dual = balanceL' r.dual x l.dual := by
  rw [← dual_dual (balanceL' _ _ _), dual_balanceL', dual_dual, dual_dual]

theorem toList_balanceR' (l : Ordnode α) (x : α) (r : Ordnode α) :
    (balanceR' l x r).toList = l.toList ++ x :: r.toList := by
  rw [← dual_dual (balanceR' l x r), toList_dual, dual_balanceR', toList_balanceL']
  simp

end Items

section Arithmetic

variable {a b c d : ℕ}

/-- The outer child of the heavy side is heavy enough to go up alone. -/
theorem balancedSz_single (even : BalancedSz a b) (outer : b < 2 * a) (heavy : 3 * c < a + b + 1)
    (bound : 3 * (a + b + 1) ≤ 13 * c + 9) : BalancedSz b c ∧ BalancedSz a (b + c + 1) := by
  simp only [BalancedSz, delta] at *
  omega

/-- The inner child of the heavy side is taken apart. -/
theorem balancedSz_double (even : BalancedSz a (b + c + 1)) (inner : BalancedSz b c)
    (outer : 2 * a ≤ b + c + 1) (heavy : 3 * d < a + (b + c + 1) + 1)
    (bound : 3 * (a + (b + c + 1) + 1) ≤ 13 * d + 9) :
    BalancedSz a b ∧ BalancedSz c d ∧ BalancedSz (a + b + 1) (c + d + 1) := by
  simp only [BalancedSz, delta] at *
  omega

end Arithmetic

/-- The first side may be the heavier one, as far as one turn mends it. -/
def Leans (heavy light : ℕ) : Prop := (heavy + light ≤ 1 ∨ light ≤ 3 * heavy) ∧ 3 * heavy ≤ 13 * light + 9

section Leaning

theorem Leans.grown (even : BalancedSz a b) {a' : ℕ} (le : a ≤ a') (le' : a' ≤ a + 1) : Leans a' b := by
  simp only [BalancedSz, delta, Leans] at *
  omega

theorem Leans.shrunk (even : BalancedSz a b) {b' : ℕ} (le : b' ≤ b) (le' : b ≤ b' + 1) : Leans a b' := by
  simp only [BalancedSz, delta, Leans] at *
  omega

/-- The light side of a node went into the inner child of its heavy side. -/
theorem Leans.sunk (even : BalancedSz a b) (heavy : 3 * c < a + b + 1) {a' : ℕ} (le : c + a ≤ a')
    (le' : a' ≤ c + a + 1) : Leans a' b := by
  simp only [BalancedSz, delta, Leans] at *
  omega

theorem balancedSz_of_not_lt (left : ¬ 3 * a < b) (right : ¬ 3 * b < a) : BalancedSz a b := by
  simp only [BalancedSz, delta]
  omega

end Leaning

namespace WeightBalanced

theorem rotateR (left : WeightBalanced l) (right : WeightBalanced r) (large : 1 < l.size + r.size)
    (heavy : 3 * r.size < l.size) (bound : 3 * l.size ≤ 13 * r.size + 9) :
    WeightBalanced (rotateR l x r) := by
  cases l with
  | nil => simp at heavy
  | node size outer y inner =>
    obtain ⟨rfl, hOuter, hInner, even⟩ := node_iff.mp left
    simp only [size_node] at large heavy bound
    rw [rotateR_node]
    split_ifs with single
    · obtain ⟨low, high⟩ := balancedSz_single even single heavy bound
      exact node' hOuter (node' hInner right low) high
    · cases inner with
      | nil =>
        simp only [size_nil, ratio, BalancedSz, delta] at single heavy large even
        omega
      | node size b z c =>
        obtain ⟨rfl, hb, hc, inner⟩ := node_iff.mp hInner
        simp only [size_node, ratio, not_lt] at single heavy bound even
        obtain ⟨low, middle, high⟩ := balancedSz_double even inner single heavy bound
        exact node' (node' hOuter hb low) (node' hc right middle) high

theorem balanceL' (left : WeightBalanced l) (right : WeightBalanced r) (leans : Leans l.size r.size) :
    WeightBalanced (balanceL' l x r) := by
  obtain ⟨light, bound⟩ := leans
  unfold Ordnode.balanceL'
  split_ifs with small heavy
  · exact node' left right (.inl small)
  · exact rotateR left right (by omega) heavy bound
  · exact node' left right (.inr ⟨not_lt.mp heavy, light.resolve_left small⟩)

theorem balanceR' (left : WeightBalanced l) (right : WeightBalanced r) (leans : Leans r.size l.size) :
    WeightBalanced (balanceR' l x r) := by
  have mirrored := @balanceL' _ _ _ x right.dual left.dual (by simpa only [size_dual] using leans)
  rw [← dual_dual (Ordnode.balanceR' l x r), dual_balanceR']
  exact mirrored.dual

end WeightBalanced

end HellRs
