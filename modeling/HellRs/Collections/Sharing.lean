import HellRs.Collections.Maps
import HellRs.Collections.Sets

/-! # Which node is given back

What an operation on sets returns is the node of its left operand, or it is a new node, or one of another size, which is
not the same node either. So the operations that ask for this say which of them they return, and no addresses are needed.
It turns out that the node is the same whenever the tree is alike.
-/

namespace HellRs.Collections

open Ordnode Fallible

variable {T κ σ ε : Type}

/-- The answers where memory answers by itself, and nothing changes when it is asked. -/
def Answers.withMemory (answers : Answers κ σ ε) (memory : σ → Bool) : Answers κ σ ε :=
  { answers with ptrEq := fun state => .ok (memory state, state) }

/-- A tree that is returned, and whether its root is the one of the left operand. -/
structure Kept (T : Type) where
  tree : Tree T
  same : Bool

/-- `insertNode`, where `same_tree_root` tells whether the insertion has returned the side it has got. -/
def insertKeeping (compare : T → Fallible σ ε Ordering) (equal : T → Fallible σ ε (Option T)) (item : T) :
    Tree T → Fallible σ ε (Kept T)
  | .nil => return ⟨TreeNode.new item .nil .nil, false⟩
  | .node len left nodeItem right => do
    match ← compare nodeItem with
    | .lt =>
      let inserted ← insertKeeping compare equal item left
      if inserted.same then return ⟨.node len left nodeItem right, true⟩
      else
        let tree ← expect (balanceLeft nodeItem inserted.tree right)
        return ⟨tree, false⟩
    | .eq =>
      match ← equal nodeItem with
      | none => return ⟨.node len left nodeItem right, true⟩
      | some replacement => return ⟨TreeNode.new replacement left right, false⟩
    | .gt =>
      let inserted ← insertKeeping compare equal item right
      if inserted.same then return ⟨.node len left nodeItem right, true⟩
      else
        let tree ← expect (balanceRight nodeItem left inserted.tree)
        return ⟨tree, false⟩

variable [DecidableEq κ]

def setUnionKeeping (answers : Answers κ σ ε) (left right : Tree κ) : Fallible σ ε (Kept κ) :=
  match left, right with
  -- neither is there
  | .nil, .nil => return ⟨.nil, true⟩
  | .nil, right => return ⟨right, false⟩
  | left, .nil => return ⟨left, true⟩
  | .node leftLen leftLeft leftItem leftRight, .node rightLen rightLeft rightItem rightRight =>
    if rightLen = 1 then
      insertKeeping (compareKeysWithOrdAdapters answers rightItem) (fun _ => return none) rightItem
        (.node leftLen leftLeft leftItem leftRight)
    else if leftLen = 1 then do
      -- a tree of two items at least
      let tree ← setInsertReplacing answers leftItem (.node rightLen rightLeft rightItem rightRight)
      return ⟨tree, false⟩
    else do
      let (rightLower, _, rightUpper) ←
        splitLookup (compareKeysWithOrdAdapters answers leftItem) (.node rightLen rightLeft rightItem rightRight)
      let joinedLeft ← setUnionKeeping answers leftLeft rightLower
      let joinedRight ← setUnionKeeping answers leftRight rightUpper
      if joinedLeft.same ∧ joinedRight.same then return ⟨.node leftLen leftLeft leftItem leftRight, true⟩
      else
        let tree ← expect (link leftItem joinedLeft.tree joinedRight.tree)
        return ⟨tree, false⟩

omit [DecidableEq κ] in
def setIntersectionKeeping (answers : Answers κ σ ε) (left right : Tree κ) : Fallible σ ε (Kept κ) :=
  match left with
  | .nil => return ⟨.nil, true⟩
  | .node leftLen leftLeft leftItem leftRight =>
    match right with
    | .nil => return ⟨.nil, false⟩
    | .node rightLen rightLeft rightItem rightRight => do
      let (rightLower, found, rightUpper) ←
        splitLookup (compareKeysWithOrdAdapters answers leftItem) (.node rightLen rightLeft rightItem rightRight)
      let intersectionLower ← setIntersectionKeeping answers leftLeft rightLower
      let intersectionUpper ← setIntersectionKeeping answers leftRight rightUpper
      if found.isSome then
        if intersectionLower.same ∧ intersectionUpper.same then
          return ⟨.node leftLen leftLeft leftItem leftRight, true⟩
        else
          let tree ← expect (link leftItem intersectionLower.tree intersectionUpper.tree)
          return ⟨tree, false⟩
      else
        -- a tree with fewer items
        let tree ← expect (mergeNodes intersectionLower.tree intersectionUpper.tree)
        return ⟨tree, false⟩

section Balanced

variable {len : ℕ} {left right : Tree κ} {item : κ}

omit [DecidableEq κ] in
/-- A node that leans to no side is balanced as it is. -/
theorem balanceLeft_of_balanced (balanced : WeightBalanced (.node len left item right)) :
    balanceLeft item left right = some (.node len left item right) := by
  obtain ⟨rfl, -, -, even⟩ := WeightBalanced.node_iff.mp balanced
  have light : left.size + right.size ≤ 1 ∨ left.size ≤ sizeBalanceDelta * right.size := even.imp_right And.left
  unfold balanceLeft
  rw [if_pos light, TreeNode.new_eq]

omit [DecidableEq κ] in
theorem balanceRight_of_balanced (balanced : WeightBalanced (.node len left item right)) :
    balanceRight item left right = some (.node len left item right) := by
  obtain ⟨rfl, -, -, even⟩ := WeightBalanced.node_iff.mp balanced
  have light : left.size + right.size ≤ 1 ∨ right.size ≤ sizeBalanceDelta * left.size := even.imp_right And.right
  unfold balanceRight
  rw [if_pos light, TreeNode.new_eq]

omit [DecidableEq κ] in
/-- An insertion into a balanced tree may rebuild the nodes that have not changed. -/
theorem insertNode_eq_plain {compare : κ → Fallible σ ε Ordering} {unchanged : Tree κ → Tree κ → Fallible σ ε Bool}
    {equal : κ → Fallible σ ε (Option κ)}
    (isUnchanged : ∀ inserted old, Reads (unchanged inserted old) fun same => same = true → inserted = old)
    (isEqual : ∀ old, Reads (equal old) fun replacement => replacement.getD old = item) (tree : Tree κ)
    (balanced : WeightBalanced tree) :
    insertNode compare unchanged equal item tree =
      insertNode compare (fun _ _ => return false) (fun _ => return some item) item tree := by
  induction tree with
  | nil => rfl
  | node len left nodeItem right ihLeft ihRight =>
    obtain ⟨isLen, hl, hr, -⟩ := WeightBalanced.node_iff.mp balanced
    unfold insertNode
    refine congrArg _ (funext fun order => ?_)
    cases order with
    | lt =>
      simp only [ihLeft hl, pure_bind]
      refine congrArg _ (funext fun inserted => (isUnchanged inserted left).bind_eq fun same isSame => ?_)
      cases same with
      | true =>
        rw [isSame rfl, balanceLeft_of_balanced balanced]
        rfl
      | false => rfl
    | eq =>
      simp only [pure_bind]
      refine (isEqual nodeItem).bind_eq fun replacement isItem => ?_
      cases replacement with
      | none =>
        obtain rfl : nodeItem = item := isItem
        rw [TreeNode.new_eq, isLen]
      | some replacement =>
        obtain rfl : replacement = item := isItem
        rfl
    | gt =>
      simp only [ihRight hr, pure_bind]
      refine congrArg _ (funext fun inserted => (isUnchanged inserted right).bind_eq fun same isSame => ?_)
      cases same with
      | true =>
        rw [isSame rfl, balanceRight_of_balanced balanced]
        rfl
      | false => rfl

omit [DecidableEq κ] in
theorem ptrEq_reads [DecidableEq T] (answers : Answers κ σ ε) (memory : σ → Bool) (left right : T) :
    Reads (ptrEq (answers.withMemory memory) left right) fun same => same = true → left = right := by
  unfold ptrEq
  split_ifs with alike
  · exact fun state => ⟨memory state, rfl, fun _ => alike⟩
  · exact .pure nofun

omit [DecidableEq κ] in
theorem sameTreeRoot_reads [DecidableEq T] (answers : Answers κ σ ε) (memory : σ → Bool) (left right : Tree T) :
    Reads (sameTreeRoot (answers.withMemory memory) left right) fun same => same = true → left = right := by
  cases left <;> cases right
  · exact .pure fun _ => rfl
  · exact .pure nofun
  · exact .pure nofun
  · exact ptrEq_reads answers memory (_ : Tree T) _

/-- An element is put into a balanced tree in the same way whatever nodes and elements are alike in memory. -/
theorem setInsertReplacing_eq_plain (answers : Answers κ σ ε) (memory : σ → Bool) (element : κ) {set : Tree κ}
    (balanced : WeightBalanced set) :
    setInsertReplacing (answers.withMemory memory) element set =
      insertNode (compareKeysWithOrdAdapters answers element) (fun _ _ => return false) (fun _ => return some element)
        element set := by
  refine insertNode_eq_plain (sameTreeRoot_reads answers memory) (fun existing state => ?_) set balanced
  obtain ⟨same, isRead, isSame⟩ := ptrEq_reads answers memory element existing state
  cases same with
  | true => exact ⟨none, by simp [StateT.bind, Bind.bind, Except.bind, isRead]; rfl, (isSame rfl).symm⟩
  | false => exact ⟨some element, by simp [StateT.bind, Bind.bind, Except.bind, isRead]; rfl, rfl⟩

end Balanced

section Alike

/-- No order is known. -/
local instance equal_transCmp : Std.TransCmp fun (_ _ : κ) => Ordering.eq where
  eq_swap := rfl
  isLE_trans := fun _ _ => rfl

omit [DecidableEq κ] in
theorem compares_unknown (answers : Answers κ σ ε) (bound : κ) :
    Compares (fun _ _ => .eq) id bound False (compareKeysWithOrdAdapters answers bound) :=
  compareKeysWithOrdAdapters_compares False.elim bound id

omit [DecidableEq κ] in
theorem splitLookup_balanced (answers : Answers κ σ ε) (bound : κ) {tree : Tree κ} (balanced : WeightBalanced tree) :
    Ensures (splitLookup (compareKeysWithOrdAdapters answers bound) tree) fun (lower, _, upper) =>
      WeightBalanced lower ∧ WeightBalanced upper :=
  (splitLookup_ensures (compares_unknown answers bound) tree balanced).mono
    fun (_, _, _) ⟨lower, upper, _⟩ => ⟨lower, upper⟩

omit [DecidableEq κ] in
theorem createEntries_balanced (answers : Answers κ σ ε) (key : T → κ) (level : ℕ) (items : List T) :
    Ensures (createEntries answers key level items) fun result => WeightBalanced result.root := by
  have good : Ensures (createEntries answers key level items) (CreateResult.Good (fun _ _ => .eq) key False) :=
    createEntries_ensures False.elim level items
  exact good.mono fun _ ⟨balanced, _⟩ => balanced

theorem mapInsert_balanced {α : Type} (answers : Answers κ σ ε) (entry : κ × α) {map : Tree (κ × α)} (balanced : WeightBalanced map) :
    Ensures (insert (fun left right => compareEntry answers left.1 right) entry map) WeightBalanced := by
  have arranged : Arranged (fun _ _ => .eq) Prod.fst False (fun _ => True) map := ⟨balanced, False.elim, False.elim⟩
  have inserted : Ensures (mapInsert answers entry.1 entry.2 map) (Arranged (fun _ _ => .eq) Prod.fst False fun _ => True) :=
    mapInsert_arranged False.elim entry.1 entry.2 arranged False.elim
  exact inserted.mono fun _ arranged => arranged.balanced

theorem setTreeFromList_balanced (answers : Answers κ σ ε) (input : List κ) :
    Ensures (setTreeFromList answers input) WeightBalanced := by
  have inOrder : Ensures (setTreeFromList answers input) (InOrder (fun _ _ => .eq) id False) :=
    setTreeFromList_inOrder False.elim input
  exact inOrder.mono fun _ arranged => arranged.balanced

/-- The tree is balanced, and it is the old one exactly when it has not grown. -/
structure Grown (old : Tree T) (kept : Kept T) : Prop where
  balanced : WeightBalanced kept.tree
  grows : old.size ≤ kept.tree.size
  same_iff : kept.same = true ↔ kept.tree.size = old.size
  alike : kept.same = true → kept.tree = old

theorem Grown.same {old : Tree T} (balanced : WeightBalanced old) : Grown old ⟨old, true⟩ :=
  ⟨balanced, le_rfl, by simp, fun _ => rfl⟩

theorem Grown.larger {old tree : Tree T} (balanced : WeightBalanced tree) (larger : old.size < tree.size) :
    Grown old ⟨tree, false⟩ :=
  ⟨balanced, larger.le, by simp; omega, nofun⟩

/-- A tree that is alike is the old one. -/
theorem Grown.same_eq [DecidableEq T] {old : Tree T} {kept : Kept T} (grown : Grown old kept) :
    kept.same = decide (kept.tree = old) := by
  rw [Bool.eq_iff_iff, decide_eq_true_iff]
  exact ⟨grown.alike, fun alike => grown.same_iff.mpr (by rw [alike])⟩

omit [DecidableEq κ] in
theorem insertKeeping_grown (answers : Answers κ σ ε) (element : κ) {set : Tree κ} (balanced : WeightBalanced set) :
    Ensures (insertKeeping (compareKeysWithOrdAdapters answers element) (fun _ => return none) element set) fun kept =>
      Grown set kept ∧ kept.tree.size ≤ set.size + 1 := by
  induction set with
  | nil => exact .pure ⟨.larger (singleton_balanced element) (by simp [TreeNode.size_new]), by simp [TreeNode.size_new]⟩
  | node len left item right ihLeft ihRight =>
    obtain ⟨isLen, hl, hr, even⟩ := WeightBalanced.node_iff.mp balanced
    unfold insertKeeping
    refine .bind (compareKeysWithOrdAdapters_total answers element item) fun order _ => ?_
    cases order with
    | lt =>
      refine .bind (ihLeft hl) fun inserted ⟨grown, le⟩ => ?_
      cases same : inserted.same with
      | true => exact .pure ⟨.same balanced, Nat.le_succ _⟩
      | false =>
        obtain ⟨tree, built, balanced', -, size⟩ :=
          (@balanceLeft_builds _ item _ _ grown.balanced hr (Leans.grown even grown.grows le)).of_node
        rw [List.length_append, List.length_cons, grown.balanced.length_toList, hr.length_toList] at size
        have less : inserted.tree.size ≠ left.size := fun equal => by simp [grown.same_iff.mpr equal] at same
        have grows := grown.grows
        refine .bind_expect built (.pure ⟨.larger balanced' ?_, ?_⟩) <;> simp only [size_node] <;> omega
    | eq => exact .pure ⟨.same balanced, Nat.le_succ _⟩
    | gt =>
      refine .bind (ihRight hr) fun inserted ⟨grown, le⟩ => ?_
      cases same : inserted.same with
      | true => exact .pure ⟨.same balanced, Nat.le_succ _⟩
      | false =>
        obtain ⟨tree, built, balanced', -, size⟩ :=
          (@balanceRight_builds _ item _ _ hl grown.balanced (Leans.grown even.symm grown.grows le)).of_node
        rw [List.length_append, List.length_cons, grown.balanced.length_toList, hl.length_toList] at size
        have less : inserted.tree.size ≠ right.size := fun equal => by simp [grown.same_iff.mpr equal] at same
        have grows := grown.grows
        refine .bind_expect built (.pure ⟨.larger balanced' ?_, ?_⟩) <;> simp only [size_node] <;> omega

theorem setInsertReplacing_grows (answers : Answers κ σ ε) (element : κ) {set : Tree κ} (balanced : WeightBalanced set) :
    Ensures (setInsertReplacing answers element set) fun tree => WeightBalanced tree ∧ set.size ≤ tree.size := by
  have equal (existing : κ) : Ensures (do
      if ← ptrEq answers element existing then return none
      return some element) fun _ => True := by
    refine .bind (ptrEq_ensures answers element existing) fun one _ => ?_
    cases one with
    | true => exact .pure trivial
    | false => exact .pure trivial
  exact (insertNode_ensures (fun _ _ => True) (compares_unknown answers element) (sameTreeRoot_ensures answers) equal set
    balanced).mono fun tree ⟨balanced, grows, _⟩ => ⟨balanced, grows⟩

theorem setUnionKeeping_grown (answers : Answers κ σ ε) (left right : Tree κ) (hl : WeightBalanced left)
    (hr : WeightBalanced right) : Ensures (setUnionKeeping answers left right) (Grown left) := by
  induction left generalizing right with
  | nil =>
    unfold setUnionKeeping
    cases right with
    | nil => exact .pure (.same .nil)
    | node len _ _ _ =>
      obtain ⟨rfl, -⟩ := WeightBalanced.node_iff.mp hr
      exact .pure (.larger hr (by simp))
  | node leftLen leftLeft leftItem leftRight ihLeft ihRight =>
    obtain ⟨isLen, hll, hlr, -⟩ := WeightBalanced.node_iff.mp hl
    cases right with
    | nil =>
      unfold setUnionKeeping
      exact .pure (.same hl)
    | node rightLen rightLeft rightItem rightRight =>
      unfold setUnionKeeping
      split_ifs with single single'
      · exact (insertKeeping_grown answers rightItem hl).mono fun _ both => both.1
      · refine .bind (setInsertReplacing_grows answers leftItem hr) fun tree ⟨balanced, grows⟩ => .pure ?_
        obtain ⟨isLen', -⟩ := WeightBalanced.node_iff.mp hr
        simp only [size_node] at grows
        exact .larger balanced (by simp only [size_node]; omega)
      · refine .bind (splitLookup_balanced answers leftItem hr) fun (rightLower, _, rightUpper) ⟨hLower, hUpper⟩ => ?_
        refine .bind (ihLeft rightLower hll hLower) fun joinedLeft grownLeft => ?_
        refine .bind (ihRight rightUpper hlr hUpper) fun joinedRight grownRight => ?_
        split_ifs with same
        · exact .pure (.same hl)
        · obtain ⟨tree, built, balanced, -, size⟩ :=
            (link_builds leftItem _ _ grownLeft.balanced grownRight.balanced).of_node
          rw [List.length_append, List.length_cons, grownLeft.balanced.length_toList,
            grownRight.balanced.length_toList] at size
          rw [grownLeft.same_iff, grownRight.same_iff] at same
          have growsLeft := grownLeft.grows
          have growsRight := grownRight.grows
          exact .bind_expect built (.pure (.larger balanced (by simp only [size_node]; omega)))

omit [DecidableEq κ] in
/-- The items of two trees that are not there, or of alike trees, are at one place. -/
theorem sameTreeRoot_alike [DecidableEq T] (answers : Answers κ σ ε) (left right : Tree T) :
    sameTreeRoot (answers.withMemory fun _ => true) left right = pure (decide (left = right)) := by
  cases left with
  | nil => cases right <;> rfl
  | node =>
    cases right with
    | nil => rfl
    | node =>
      unfold sameTreeRoot ptrEq
      split_ifs with alike
      · rw [decide_eq_true alike]
        rfl
      · rw [decide_eq_false alike]

theorem sameSides_alike (answers : Answers κ σ ε) (lower left upper right : Tree κ) :
    sameSides (answers.withMemory fun _ => true) lower left upper right =
      pure (decide (lower = left) && decide (upper = right)) := by
  unfold sameSides
  simp only [sameTreeRoot_alike, pure_bind]
  by_cases same : lower = left <;> simp [same]

theorem setInsertPreservingExisting_eq_keeping (answers : Answers κ σ ε) (element : κ) {set : Tree κ}
    (balanced : WeightBalanced set) : setInsertPreservingExisting (answers.withMemory fun _ => true) element set =
      Kept.tree <$> insertKeeping (compareKeysWithOrdAdapters (answers.withMemory fun _ => true) element)
        (fun _ => return none) element set := by
  unfold setInsertPreservingExisting
  induction set with
  | nil => rfl
  | node len left item right ihLeft ihRight =>
    obtain ⟨-, hl, hr, -⟩ := WeightBalanced.node_iff.mp balanced
    unfold insertNode insertKeeping
    simp only [map_bind, pure_bind]
    refine congrArg _ (funext fun order => ?_)
    cases order with
    | lt =>
      simp only [ihLeft hl, map_eq_pure_bind, bind_assoc, pure_bind, sameTreeRoot_alike]
      refine (insertKeeping_grown _ element hl).bind_congr fun inserted ⟨grown, _⟩ => ?_
      rw [grown.same_eq]
      split_ifs <;> simp
    | eq => simp
    | gt =>
      simp only [ihRight hr, map_eq_pure_bind, bind_assoc, pure_bind, sameTreeRoot_alike]
      refine (insertKeeping_grown _ element hr).bind_congr fun inserted ⟨grown, _⟩ => ?_
      rw [grown.same_eq]
      split_ifs <;> simp

/-- Where memory finds alike trees to be one, it is right. -/
theorem setUnionTree_eq_keeping (answers : Answers κ σ ε) (left right : Tree κ) (hl : WeightBalanced left)
    (hr : WeightBalanced right) : setUnionTree (answers.withMemory fun _ => true) left right =
      Kept.tree <$> setUnionKeeping (answers.withMemory fun _ => true) left right := by
  induction left generalizing right with
  | nil =>
    unfold setUnionTree setUnionKeeping
    cases right <;> simp
  | node leftLen leftLeft leftItem leftRight ihLeft ihRight =>
    obtain ⟨-, hll, hlr, -⟩ := WeightBalanced.node_iff.mp hl
    cases right with
    | nil =>
      unfold setUnionTree setUnionKeeping
      simp
    | node rightLen rightLeft rightItem rightRight =>
      unfold setUnionTree setUnionKeeping
      split_ifs
      · exact setInsertPreservingExisting_eq_keeping answers rightItem hl
      · simp
      · simp only [map_bind]
        refine (splitLookup_balanced _ leftItem hr).bind_congr ?_
        rintro ⟨rightLower, _, rightUpper⟩ ⟨hLower, hUpper⟩
        simp only [ihLeft rightLower hll hLower, ihRight rightUpper hlr hUpper, map_eq_pure_bind, bind_assoc, pure_bind,
          sameSides_alike]
        refine (setUnionKeeping_grown _ leftLeft rightLower hll hLower).bind_congr fun joinedLeft grownLeft => ?_
        refine (setUnionKeeping_grown _ leftRight rightUpper hlr hUpper).bind_congr fun joinedRight grownRight => ?_
        simp only [grownLeft.same_eq, grownRight.same_eq, Bool.and_eq_true]
        split_ifs <;> simp

/-- The tree is balanced, and it is the old one exactly when it has not shrunk. -/
structure Shrunk (old : Tree T) (kept : Kept T) : Prop where
  balanced : WeightBalanced kept.tree
  shrinks : kept.tree.size ≤ old.size
  same_iff : kept.same = true ↔ kept.tree.size = old.size
  alike : kept.same = true → kept.tree = old

theorem Shrunk.same {old : Tree T} (balanced : WeightBalanced old) : Shrunk old ⟨old, true⟩ :=
  ⟨balanced, le_rfl, by simp, fun _ => rfl⟩

theorem Shrunk.smaller {old tree : Tree T} (balanced : WeightBalanced tree) (smaller : tree.size < old.size) :
    Shrunk old ⟨tree, false⟩ :=
  ⟨balanced, smaller.le, by simp; omega, nofun⟩

theorem Shrunk.same_eq [DecidableEq T] {old : Tree T} {kept : Kept T} (shrunk : Shrunk old kept) :
    kept.same = decide (kept.tree = old) := by
  rw [Bool.eq_iff_iff, decide_eq_true_iff]
  exact ⟨shrunk.alike, fun alike => shrunk.same_iff.mpr (by rw [alike])⟩

omit [DecidableEq κ] in
theorem setIntersectionKeeping_shrunk (answers : Answers κ σ ε) (left right : Tree κ) (hl : WeightBalanced left)
    (hr : WeightBalanced right) : Ensures (setIntersectionKeeping answers left right) (Shrunk left) := by
  induction left generalizing right with
  | nil => exact .pure (.same .nil)
  | node leftLen leftLeft leftItem leftRight ihLeft ihRight =>
    obtain ⟨isLen, hll, hlr, -⟩ := WeightBalanced.node_iff.mp hl
    cases right with
    | nil => exact .pure (.smaller .nil (by simp only [size_node, size_nil]; omega))
    | node rightLen rightLeft rightItem rightRight =>
      unfold setIntersectionKeeping
      refine .bind (splitLookup_balanced answers leftItem hr) fun (rightLower, found, rightUpper) ⟨hLower, hUpper⟩ => ?_
      refine .bind (ihLeft rightLower hll hLower) fun lower shrunkLower => ?_
      refine .bind (ihRight rightUpper hlr hUpper) fun upper shrunkUpper => ?_
      have shrinksLower := shrunkLower.shrinks
      have shrinksUpper := shrunkUpper.shrinks
      split_ifs with isFound same
      · exact .pure (.same hl)
      · obtain ⟨tree, built, balanced, -, size⟩ :=
          (link_builds leftItem _ _ shrunkLower.balanced shrunkUpper.balanced).of_node
        rw [List.length_append, List.length_cons, shrunkLower.balanced.length_toList,
          shrunkUpper.balanced.length_toList] at size
        rw [shrunkLower.same_iff, shrunkUpper.same_iff] at same
        exact .bind_expect built (.pure (.smaller balanced (by simp only [size_node]; omega)))
      · obtain ⟨tree, built, balanced, -, size⟩ :=
          (mergeNodes_builds _ _ shrunkLower.balanced shrunkUpper.balanced).of_node
        rw [List.length_append, shrunkLower.balanced.length_toList, shrunkUpper.balanced.length_toList] at size
        exact .bind_expect built (.pure (.smaller balanced (by simp only [size_node]; omega)))

theorem setIntersectionTree_eq_keeping (answers : Answers κ σ ε) (left right : Tree κ) (hl : WeightBalanced left)
    (hr : WeightBalanced right) : setIntersectionTree (answers.withMemory fun _ => true) left right =
      Kept.tree <$> setIntersectionKeeping (answers.withMemory fun _ => true) left right := by
  induction left generalizing right with
  | nil =>
    unfold setIntersectionTree setIntersectionKeeping
    simp
  | node leftLen leftLeft leftItem leftRight ihLeft ihRight =>
    obtain ⟨-, hll, hlr, -⟩ := WeightBalanced.node_iff.mp hl
    cases right with
    | nil =>
      unfold setIntersectionTree setIntersectionKeeping
      simp
    | node rightLen rightLeft rightItem rightRight =>
      unfold setIntersectionTree setIntersectionKeeping
      simp only [map_bind]
      refine (splitLookup_balanced _ leftItem hr).bind_congr ?_
      rintro ⟨rightLower, found, rightUpper⟩ ⟨hLower, hUpper⟩
      simp only [ihLeft rightLower hll hLower, ihRight rightUpper hlr hUpper, map_eq_pure_bind, bind_assoc, pure_bind,
        sameSides_alike]
      refine (setIntersectionKeeping_shrunk _ leftLeft rightLower hll hLower).bind_congr fun lower shrunkLower => ?_
      refine (setIntersectionKeeping_shrunk _ leftRight rightUpper hlr hUpper).bind_congr fun upper shrunkUpper => ?_
      simp only [shrunkLower.same_eq, shrunkUpper.same_eq, Bool.and_eq_true]
      split_ifs <;> simp

end Alike

end HellRs.Collections
