import HellRs.Collections.Build

/-! # Operations on sets

Where nothing has changed, a set operation gives back the node it got.
-/

namespace HellRs.Collections

open Ordnode Fallible Std

variable {κ σ ε : Type} [DecidableEq κ]

def setInsertReplacing (answers : Answers κ σ ε) (element : κ) : Tree κ → Fallible σ ε (Tree κ) :=
  insertNode (compareKeysWithOrdAdapters answers element) (sameTreeRoot answers)
    (fun existing => do
      if ← ptrEq answers element existing then return none
      return some element)
    element

def setInsertPreservingExisting (answers : Answers κ σ ε) (element : κ) : Tree κ → Fallible σ ε (Tree κ) :=
  insertNode (compareKeysWithOrdAdapters answers element) (sameTreeRoot answers) (fun _ => return none) element

def setTreeInsertRemaining (answers : Answers κ σ ε) (tree : Tree κ) (input : List κ) : Fallible σ ε (Tree κ) :=
  input.foldlM (fun tree element => setInsertReplacing answers element tree) tree

def setTreeFromList (answers : Answers κ σ ε) : List κ → Fallible σ ε (Tree κ)
  | [] => return .nil
  | [first] => return TreeNode.new first .nil .nil
  | first :: next :: rest => do
    if ← entriesNotOrdered answers first (some next) then
      setTreeInsertRemaining answers (TreeNode.new first .nil .nil) (next :: rest)
    else fromOrderedEntries answers id (setTreeInsertRemaining answers) 0 (TreeNode.new first .nil .nil) (next :: rest)

def setMember (answers : Answers κ σ ε) (element : κ) (set : Tree κ) : Fallible σ ε Bool := do
  let found ← find (compareKeysWithOrdAdapters answers element) set
  return found.isSome

def setDelete (answers : Answers κ σ ε) (element : κ) : Tree κ → Fallible σ ε (Tree κ) :=
  remove (compareKeysWithOrdAdapters answers element)

/-- Whether both trees are the ones a node has already. -/
def sameSides (answers : Answers κ σ ε) (lower left upper right : Tree κ) : Fallible σ ε Bool := do
  if ← sameTreeRoot answers lower left then sameTreeRoot answers upper right else return false

def setUnionTree (answers : Answers κ σ ε) (left right : Tree κ) : Fallible σ ε (Tree κ) :=
  match left, right with
  | .nil, right => return right
  | left, .nil => return left
  | .node leftLen leftLeft leftItem leftRight, .node rightLen rightLeft rightItem rightRight =>
    if rightLen = 1 then
      setInsertPreservingExisting answers rightItem (.node leftLen leftLeft leftItem leftRight)
    else if leftLen = 1 then
      setInsertReplacing answers leftItem (.node rightLen rightLeft rightItem rightRight)
    else do
      let (rightLower, _, rightUpper) ←
        splitLookup (compareKeysWithOrdAdapters answers leftItem) (.node rightLen rightLeft rightItem rightRight)
      let joinedLeft ← setUnionTree answers leftLeft rightLower
      let joinedRight ← setUnionTree answers leftRight rightUpper
      if ← sameSides answers joinedLeft leftLeft joinedRight leftRight then
        return .node leftLen leftLeft leftItem leftRight
      expect (link leftItem joinedLeft joinedRight)

def setDifferenceTree (answers : Answers κ σ ε) (left : Tree κ) : Tree κ → Fallible σ ε (Tree κ)
  | .nil => return left
  | .node _ rightLeft rightItem rightRight =>
    match left with
    | .nil => return .nil
    | .node leftLen leftLeft leftItem leftRight => do
      let (leftLower, _, leftUpper) ←
        splitLookup (compareKeysWithOrdAdapters answers rightItem) (.node leftLen leftLeft leftItem leftRight)
      let differenceLower ← setDifferenceTree answers leftLower rightLeft
      let differenceUpper ← setDifferenceTree answers leftUpper rightRight
      if differenceLower.size + differenceUpper.size = leftLen then
        return .node leftLen leftLeft leftItem leftRight
      expect (mergeNodes differenceLower differenceUpper)

def setIntersectionTree (answers : Answers κ σ ε) (left right : Tree κ) : Fallible σ ε (Tree κ) :=
  match left with
  | .nil => return .nil
  | .node leftLen leftLeft leftItem leftRight =>
    match right with
    | .nil => return .nil
    | .node rightLen rightLeft rightItem rightRight => do
      let (rightLower, found, rightUpper) ←
        splitLookup (compareKeysWithOrdAdapters answers leftItem) (.node rightLen rightLeft rightItem rightRight)
      let intersectionLower ← setIntersectionTree answers leftLeft rightLower
      let intersectionUpper ← setIntersectionTree answers leftRight rightUpper
      if found.isSome then
        if ← sameSides answers intersectionLower leftLeft intersectionUpper leftRight then
          return .node leftLen leftLeft leftItem leftRight
        expect (link leftItem intersectionLower intersectionUpper)
      else expect (mergeNodes intersectionLower intersectionUpper)

section Specifications

variable {cmp : κ → κ → Ordering} [TransCmp cmp] {lawful : Prop} {answers : Answers κ σ ε} {among : κ → Prop}
  (isLawful : lawful → answers.Lawful cmp)
include isLawful

theorem setInsertReplacing_arranged (element : κ) {set : Tree κ} (arranged : Arranged cmp id lawful among set)
    (isAmong : lawful → among element) :
    Ensures (setInsertReplacing answers element set) (Arranged cmp id lawful among) := by
  refine insertNode_arranged (compareKeysWithOrdAdapters_compares isLawful element id) (sameTreeRoot_ensures answers)
    (fun existing => ?_) arranged isAmong
  refine .bind (ptrEq_ensures answers element existing) fun one _ => ?_
  cases one with
  | true => exact .pure (.inr rfl)
  | false => exact .pure (.inl rfl)

theorem setInsertPreservingExisting_arranged (element : κ) {set : Tree κ}
    (arranged : Arranged cmp id lawful among set) (isAmong : lawful → among element) :
    Ensures (setInsertPreservingExisting answers element set) (Arranged cmp id lawful among) :=
  insertNode_arranged (compareKeysWithOrdAdapters_compares isLawful element id) (sameTreeRoot_ensures answers)
    (fun _ => .pure (.inr rfl)) arranged isAmong

theorem setTreeInsertRemaining_inserts : InsertsEntries cmp id lawful (setTreeInsertRemaining answers) :=
  fun _ _ inOrder => .foldlM (fun _ element inOrder =>
    setInsertReplacing_arranged isLawful element inOrder fun _ => trivial) inOrder

theorem setTreeFromList_inOrder (input : List κ) :
    Ensures (setTreeFromList answers input) (InOrder cmp id lawful) := by
  match input with
  | [] => exact .pure .nil
  | [first] => exact .pure (.singleton fun _ => trivial)
  | first :: next :: rest =>
    refine .bind (entriesNotOrdered_ensures isLawful first next) fun unordered isOrdered => ?_
    cases unordered with
    | true => exact setTreeInsertRemaining_inserts isLawful _ _ (.singleton fun _ => trivial)
    | false =>
      exact fromOrderedEntries_ensures isLawful (setTreeInsertRemaining_inserts isLawful) 0 _ _
        (singleton_balanced first) fun law => .cons (isOrdered law rfl) (List.pairwise_singleton ..)

omit [DecidableEq κ] in
theorem setDelete_arranged (element : κ) {set : Tree κ} (arranged : Arranged cmp id lawful among set) :
    Ensures (setDelete answers element set) (Arranged cmp id lawful among) :=
  remove_arranged (compareKeysWithOrdAdapters_compares isLawful element id) arranged

omit [TransCmp cmp] isLawful in
theorem sameSides_ensures (answers : Answers κ σ ε) (lower left upper right : Tree κ) :
    Ensures (sameSides answers lower left upper right) fun same => same = true → lower = left ∧ upper = right := by
  refine .bind (sameTreeRoot_ensures answers lower left) fun same isSame => ?_
  cases same with
  | true => exact (sameTreeRoot_ensures answers upper right).mono fun _ isSame' same => ⟨isSame rfl, isSame' same⟩
  | false => exact .pure (by simp)

theorem setUnionTree_arranged (left right : Tree κ) {among : κ → Prop}
    (hl : Arranged cmp id lawful among left) (hr : Arranged cmp id lawful among right) :
    Ensures (setUnionTree answers left right) (Arranged cmp id lawful among) := by
  induction left generalizing right among with
  | nil =>
    unfold setUnionTree
    exact .pure hr
  | node leftLen leftLeft leftItem leftRight ihLeft ihRight =>
    cases right with
    | nil =>
      unfold setUnionTree
      exact .pure hl
    | node rightLen rightLeft rightItem rightRight =>
      unfold setUnionTree
      obtain ⟨lower, isAmong, upper⟩ := hl.sides
      split_ifs
      · exact setInsertPreservingExisting_arranged isLawful rightItem hl hr.sides.2.1
      · exact setInsertReplacing_arranged isLawful leftItem hr isAmong
      · refine .bind (splitLookup_arranged (compareKeysWithOrdAdapters_compares isLawful leftItem id) hr)
          fun (rightLower, _, rightUpper) ⟨hLower, hUpper⟩ => ?_
        refine .bind (ihLeft rightLower lower hLower) fun joinedLeft hJoinedLeft => ?_
        refine .bind (ihRight rightUpper upper hUpper) fun joinedRight hJoinedRight => ?_
        refine .bind (sameSides_ensures answers _ _ _ _) fun same _ => ?_
        cases same with
        | true => exact .pure hl
        | false =>
          obtain ⟨tree, built, arranged⟩ := Arranged.of_builds_node
            (link_builds _ _ _ hJoinedLeft.balanced hJoinedRight.balanced) hJoinedLeft isAmong hJoinedRight
          exact .expect built arranged

omit [DecidableEq κ] in
theorem setDifferenceTree_arranged (left right : Tree κ) {among : κ → Prop} (hl : Arranged cmp id lawful among left) :
    Ensures (setDifferenceTree answers left right) (Arranged cmp id lawful among) := by
  induction right generalizing left among with
  | nil =>
    unfold setDifferenceTree
    exact .pure hl
  | node rightLen rightLeft rightItem rightRight ihLeft ihRight =>
    cases left with
    | nil =>
      unfold setDifferenceTree
      exact .pure .nil
    | node leftLen leftLeft leftItem leftRight =>
      unfold setDifferenceTree
      refine .bind (splitLookup_arranged (compareKeysWithOrdAdapters_compares isLawful rightItem id) hl)
        fun (leftLower, _, leftUpper) ⟨hLower, hUpper⟩ => ?_
      refine .bind (ihLeft leftLower hLower) fun differenceLower hDifferenceLower => ?_
      refine .bind (ihRight leftUpper hUpper) fun differenceUpper hDifferenceUpper => ?_
      split_ifs
      · exact .pure hl
      · obtain ⟨tree, built, arranged⟩ := Arranged.of_builds_append
          (mergeNodes_builds _ _ hDifferenceLower.balanced hDifferenceUpper.balanced) hDifferenceLower hDifferenceUpper
        exact .expect built arranged

theorem setIntersectionTree_arranged (left right : Tree κ) {among : κ → Prop}
    (hl : Arranged cmp id lawful among left) (hr : Arranged cmp id lawful (fun _ => True) right) :
    Ensures (setIntersectionTree answers left right) (Arranged cmp id lawful among) := by
  induction left generalizing right among with
  | nil => exact .pure .nil
  | node leftLen leftLeft leftItem leftRight ihLeft ihRight =>
    cases right with
    | nil => exact .pure .nil
    | node rightLen rightLeft rightItem rightRight =>
      obtain ⟨lower, isAmong, upper⟩ := hl.sides
      unfold setIntersectionTree
      refine .bind (splitLookup_arranged (compareKeysWithOrdAdapters_compares isLawful leftItem id) hr)
        fun (rightLower, found, rightUpper) ⟨hLower, hUpper⟩ => ?_
      refine .bind (ihLeft rightLower lower (hLower.mono fun _ _ => trivial)) fun intersectionLower hIntersectionLower => ?_
      refine .bind (ihRight rightUpper upper (hUpper.mono fun _ _ => trivial)) fun intersectionUpper hIntersectionUpper => ?_
      split_ifs
      · refine .bind (sameSides_ensures answers _ _ _ _) fun same _ => ?_
        cases same with
        | true => exact .pure hl
        | false =>
          obtain ⟨tree, built, arranged⟩ := Arranged.of_builds_node
            (link_builds _ _ _ hIntersectionLower.balanced hIntersectionUpper.balanced) hIntersectionLower isAmong
            hIntersectionUpper
          exact .expect built arranged
      · obtain ⟨tree, built, arranged⟩ := Arranged.of_builds_append
          (mergeNodes_builds _ _ hIntersectionLower.balanced hIntersectionUpper.balanced) hIntersectionLower
          hIntersectionUpper
        exact .expect built arranged

end Specifications

end HellRs.Collections
