import HellRs.Collections.Contents

/-! # The algebra of sets

Union, difference and intersection of two trees hold the union, difference and intersection of their contents. A reused
operand is right because it is what would have been built: the same sides, or as many elements as it had.
-/

namespace HellRs.Collections

open Ordnode Fallible Std Contents

variable {κ σ ε : Type} {cmp : κ → κ → Ordering} [TransCmp cmp] {answers : Answers κ σ ε} {among : κ → Prop}
  {held : Contents κ κ} {set left right : Tree κ}

section Insertion

variable [DecidableEq κ] (lawful : answers.Lawful cmp)
include lawful

theorem setInsertReplacing_holds (element : κ) (holds : Holds cmp id held set) :
    Ensures (setInsertReplacing answers element set) (Holds cmp id (held.put cmp element element)) := by
  have same : (held element).elim element (fun _ => element) = element := by cases held element <;> rfl
  suffices Ensures (setInsertReplacing answers element set)
      (Holds cmp id (held.put cmp element ((held element).elim element fun _ => element))) by rwa [same] at this
  refine insertNode_holds (compareKeysWithOrdAdapters_compares (fun _ => lawful) element id)
    (sameTreeRoot_ensures answers) (fun existing => ?_) (fun _ => .inl rfl) holds
  refine .bind (ptrEq_ensures answers element existing) fun one isOne => ?_
  cases one with
  | true => exact .pure (isOne rfl).symm
  | false => exact .pure rfl

theorem setInsertPreservingExisting_holds (element : κ) (holds : Holds cmp id held set) :
    Ensures (setInsertPreservingExisting answers element set)
      (Holds cmp id (held.put cmp element ((held element).elim element fun old => old))) :=
  insertNode_holds (compareKeysWithOrdAdapters_compares (fun _ => lawful) element id) (sameTreeRoot_ensures answers)
    (fun _ => .pure rfl) (fun _ => .inr rfl) holds

end Insertion

theorem toList_of_single {T : Type} {item : T} {left right : Tree T} (balanced : WeightBalanced (.node 1 left item right)) :
    (Ordnode.node 1 left item right).toList = [item] := by
  obtain ⟨size, hl, hr, -⟩ := WeightBalanced.node_iff.mp balanced
  have noLeft : left.toList = [] := List.length_eq_zero_iff.mp (by rw [hl.length_toList]; omega)
  have noRight : right.toList = [] := List.length_eq_zero_iff.mp (by rw [hr.length_toList]; omega)
  rw [toList_node, noLeft, noRight]
  rfl

section Builders

variable {T : Type} {key : T → κ} {bound : κ} {among : κ → Prop} {left right : Tree T}

theorem link_contents {item : T} (hl : Arranged cmp key True (Lower cmp (key item) among) left)
    (isAmong : True → among (key item)) (hr : Arranged cmp key True (Upper cmp (key item) among) right) :
    Ensures (expect (link item left right) : Fallible σ ε (Tree T)) fun tree => contents cmp key tree.toList =
      parted cmp (key item) (contents cmp key left.toList) (some item) (contents cmp key right.toList) := by
  have builds := link_builds item left right hl.balanced hr.balanced
  obtain ⟨tree, built, arranged⟩ := Arranged.of_builds_node builds hl isAmong hr
  obtain ⟨_, built', -, items⟩ := builds
  obtain rfl := Option.some.inj (built.symm.trans built')
  refine .expect built ?_
  have increasing := arranged.increasing trivial
  rw [items] at increasing ⊢
  exact contents_append_cons increasing

theorem increasing_of_parts (hl : Arranged cmp key True (Lower cmp bound among) left)
    (hr : Arranged cmp key True (Upper cmp bound among) right) : Increasing cmp key (left.toList ++ right.toList) :=
  increasing_append.mpr ⟨hl.increasing trivial, hr.increasing trivial, fun item member item' member' =>
    TransCmp.lt_trans (hl.among trivial item member).2 (hr.among trivial item' member').2⟩

theorem contents_of_parts (hl : Arranged cmp key True (Lower cmp bound among) left)
    (hr : Arranged cmp key True (Upper cmp bound among) right) : contents cmp key (left.toList ++ right.toList) =
      parted cmp bound (contents cmp key left.toList) none (contents cmp key right.toList) :=
  contents_append (fun item member => (hl.among trivial item member).2) fun item member => (hr.among trivial item member).2

theorem mergeNodes_contents (hl : Arranged cmp key True (Lower cmp bound among) left)
    (hr : Arranged cmp key True (Upper cmp bound among) right) :
    Ensures (expect (mergeNodes left right) : Fallible σ ε (Tree T)) fun tree => contents cmp key tree.toList =
      parted cmp bound (contents cmp key left.toList) none (contents cmp key right.toList) := by
  obtain ⟨tree, built, -, items⟩ := mergeNodes_builds left right hl.balanced hr.balanced
  refine .expect built ?_
  rw [items]
  exact contents_of_parts hl hr

end Builders

section Algebra

variable (lawful : answers.Lawful cmp)
include lawful

theorem setUnionTree_holds [DecidableEq κ] (left right : Tree κ) {among : κ → Prop}
    (hl : Arranged cmp id True among left) (hr : Arranged cmp id True among right) :
    Ensures (setUnionTree answers left right) fun tree => contents cmp id tree.toList =
      (contents cmp id left.toList).unionWith (fun item _ => item) (contents cmp id right.toList) := by
  induction left generalizing right among with
  | nil =>
    unfold setUnionTree
    exact .pure (empty_unionWith _ _).symm
  | node leftLen leftLeft leftItem leftRight ihLeft ihRight =>
    cases right with
    | nil =>
      unfold setUnionTree
      exact .pure (unionWith_empty _ _).symm
    | node rightLen rightLeft rightItem rightRight =>
      unfold setUnionTree
      split_ifs with single single'
      · subst single
        rw [toList_of_single hr.balanced]
        refine (setInsertPreservingExisting_holds lawful rightItem
          (holds_self (hl.mono fun _ _ => trivial))).mono fun tree holds => ?_
        exact holds.contents.trans (@unionWith_singleton _ _ cmp id _ (fun item _ => item) rightItem _).symm
      · subst single'
        rw [toList_of_single hl.balanced]
        refine (setInsertReplacing_holds lawful leftItem (holds_self (hr.mono fun _ _ => trivial))).mono
          fun tree holds => ?_
        refine holds.contents.trans (.trans ?_ (@singleton_unionWith _ _ cmp id _ (fun item _ => item) leftItem _).symm)
        simp only [id]
        cases contents cmp id (Ordnode.node rightLen rightLeft rightItem rightRight).toList leftItem <;> rfl
      · obtain ⟨lower, isAmong, upper⟩ := hl.sides
        rw [contents_node hl]
        refine .bind (splitLookup_parts (compareKeysWithOrdAdapters_compares (fun _ => lawful) leftItem id) hr) ?_
        rintro ⟨rightLower, found, rightUpper⟩ ⟨hLower, hUpper, parts⟩
        rw [parts, id, parted_unionWith]
        refine .bind ((setUnionTree_arranged (fun _ => lawful) leftLeft rightLower lower hLower).and
          (ihLeft rightLower lower hLower)) ?_
        rintro joinedLeft ⟨hJoinedLeft, low⟩
        refine .bind ((setUnionTree_arranged (fun _ => lawful) leftRight rightUpper upper hUpper).and
          (ihRight rightUpper upper hUpper)) ?_
        rintro joinedRight ⟨hJoinedRight, up⟩
        have kept : (some leftItem).merge (fun item _ => item) found = some leftItem := by cases found <;> rfl
        rw [← low, ← up, kept]
        refine .bind (sameSides_ensures answers _ _ _ _) fun same isSame => ?_
        cases same with
        | true =>
          obtain ⟨rfl, rfl⟩ := isSame rfl
          exact .pure (contents_node hl)
        | false => exact link_contents hJoinedLeft isAmong hJoinedRight

/-- As many elements are left as there were only if none has gone. -/
theorem setDifferenceTree_holds (left right : Tree κ) {among : κ → Prop} (hl : Arranged cmp id True among left)
    (hr : InOrder cmp id True right) :
    Ensures (setDifferenceTree answers left right) fun tree => contents cmp id tree.toList =
      (contents cmp id left.toList).difference (contents cmp id right.toList) := by
  induction right generalizing left among with
  | nil =>
    unfold setDifferenceTree
    exact .pure (difference_empty _).symm
  | node rightLen rightLeft rightItem rightRight ihLeft ihRight =>
    cases left with
    | nil =>
      unfold setDifferenceTree
      exact .pure (empty_difference _).symm
    | node leftLen leftLeft leftItem leftRight =>
      obtain ⟨lower, -, upper⟩ := hr.sides
      unfold setDifferenceTree
      refine .bind (splitLookup_parts (compareKeysWithOrdAdapters_compares (fun _ => lawful) rightItem id) hl) ?_
      rintro ⟨leftLower, found, leftUpper⟩ ⟨hLower, hUpper, parts⟩
      refine .bind ((setDifferenceTree_arranged (fun _ => lawful) leftLower rightLeft hLower).and
        (ihLeft leftLower hLower (lower.mono fun _ _ => trivial))) ?_
      rintro differenceLower ⟨hDifferenceLower, low⟩
      refine .bind ((setDifferenceTree_arranged (fun _ => lawful) leftUpper rightRight hUpper).and
        (ihRight leftUpper hUpper (upper.mono fun _ _ => trivial))) ?_
      rintro differenceUpper ⟨hDifferenceUpper, up⟩
      have increasing := increasing_of_parts hDifferenceLower hDifferenceUpper
      have holds : contents cmp id (differenceLower.toList ++ differenceUpper.toList) =
          (contents cmp id (Ordnode.node leftLen leftLeft leftItem leftRight).toList).difference
            (contents cmp id (Ordnode.node rightLen rightLeft rightItem rightRight).toList) := by
        rw [contents_of_parts hDifferenceLower hDifferenceUpper, contents_node hr, parts, id, parted_difference, low, up]
        rfl
      rw [← holds]
      split_ifs with full
      · have same : differenceLower.toList ++ differenceUpper.toList =
            (Ordnode.node leftLen leftLeft leftItem leftRight).toList := by
          refine eq_of_subset increasing (hl.increasing trivial) (fun element member => ?_) ?_
          · have there := (contents_self increasing).mpr member
            rw [holds] at there
            exact (contents_self (hl.increasing trivial)).mp (of_difference there)
          · rw [hl.balanced.length_toList, List.length_append, hDifferenceLower.balanced.length_toList,
              hDifferenceUpper.balanced.length_toList, size_node, full]
        exact .pure (congrArg _ same.symm)
      · rw [contents_of_parts hDifferenceLower hDifferenceUpper]
        exact mergeNodes_contents hDifferenceLower hDifferenceUpper

theorem setIntersectionTree_holds [DecidableEq κ] (left right : Tree κ) {among : κ → Prop}
    (hl : Arranged cmp id True among left) (hr : Arranged cmp id True (fun _ => True) right) :
    Ensures (setIntersectionTree answers left right) fun tree => contents cmp id tree.toList =
      (contents cmp id left.toList).intersection (contents cmp id right.toList) := by
  induction left generalizing right among with
  | nil => exact .pure (empty_intersection _).symm
  | node leftLen leftLeft leftItem leftRight ihLeft ihRight =>
    cases right with
    | nil => exact .pure (intersection_empty _).symm
    | node rightLen rightLeft rightItem rightRight =>
      obtain ⟨lower, isAmong, upper⟩ := hl.sides
      unfold setIntersectionTree
      rw [contents_node hl]
      refine .bind (splitLookup_parts (compareKeysWithOrdAdapters_compares (fun _ => lawful) leftItem id) hr) ?_
      rintro ⟨rightLower, found, rightUpper⟩ ⟨hLower, hUpper, parts⟩
      have hLower := hLower.mono fun _ _ => trivial
      have hUpper := hUpper.mono fun _ _ => trivial
      rw [parts, id, parted_intersection]
      refine .bind ((setIntersectionTree_arranged (fun _ => lawful) leftLeft rightLower lower hLower).and
        (ihLeft rightLower lower hLower)) ?_
      rintro intersectionLower ⟨hIntersectionLower, low⟩
      refine .bind ((setIntersectionTree_arranged (fun _ => lawful) leftRight rightUpper upper hUpper).and
        (ihRight rightUpper upper hUpper)) ?_
      rintro intersectionUpper ⟨hIntersectionUpper, up⟩
      rw [← low, ← up]
      cases found with
      | some found =>
        refine .bind (sameSides_ensures answers _ _ _ _) fun same isSame => ?_
        cases same with
        | true =>
          obtain ⟨rfl, rfl⟩ := isSame rfl
          exact .pure (contents_node hl)
        | false => exact link_contents hIntersectionLower isAmong hIntersectionUpper
      | none => exact mergeNodes_contents hIntersectionLower hIntersectionUpper

end Algebra

section Total

variable [DecidableEq κ] (total : answers.Total)
include total

theorem setInsertReplacing_total (element : κ) (set : Tree κ) : NeverFails (setInsertReplacing answers element set) := by
  refine insertNode_total (compareKeys_total total element) (sameTreeRoot_total total) (fun existing => ?_) element set
  refine .bind (ptrEq_total total element existing) fun one => ?_
  cases one <;> exact .pure _

theorem setInsertPreservingExisting_total (element : κ) (set : Tree κ) :
    NeverFails (setInsertPreservingExisting answers element set) :=
  insertNode_total (compareKeys_total total element) (sameTreeRoot_total total) (fun _ => .pure _) element set

theorem setUnionTree_total (left right : Tree κ) : NeverFails (setUnionTree answers left right) := by
  induction left generalizing right with
  | nil =>
    unfold setUnionTree
    exact .pure _
  | node leftLen leftLeft leftItem leftRight ihLeft ihRight =>
    cases right with
    | nil =>
      unfold setUnionTree
      exact .pure _
    | node rightLen rightLeft rightItem rightRight =>
      unfold setUnionTree
      split_ifs
      · exact setInsertPreservingExisting_total total _ _
      · exact setInsertReplacing_total total _ _
      · refine .bind (splitLookup_total (compareKeys_total total leftItem) _) ?_
        rintro ⟨rightLower, _, rightUpper⟩
        refine .bind (ihLeft rightLower) fun joinedLeft => .bind (ihRight rightUpper) fun joinedRight => ?_
        refine .bind (sameSides_total total _ _ _ _) fun same => ?_
        cases same with
        | true => exact .pure _
        | false => exact .expect _

omit [DecidableEq κ] in
theorem setDifferenceTree_total (left right : Tree κ) : NeverFails (setDifferenceTree answers left right) := by
  induction right generalizing left with
  | nil =>
    unfold setDifferenceTree
    exact .pure _
  | node rightLen rightLeft rightItem rightRight ihLeft ihRight =>
    cases left with
    | nil =>
      unfold setDifferenceTree
      exact .pure _
    | node leftLen leftLeft leftItem leftRight =>
      unfold setDifferenceTree
      refine .bind (splitLookup_total (compareKeys_total total rightItem) _) ?_
      rintro ⟨leftLower, _, leftUpper⟩
      refine .bind (ihLeft leftLower) fun differenceLower => .bind (ihRight leftUpper) fun differenceUpper => ?_
      split_ifs
      · exact .pure _
      · exact .expect _

theorem setIntersectionTree_total (left right : Tree κ) : NeverFails (setIntersectionTree answers left right) := by
  induction left generalizing right with
  | nil => exact .pure _
  | node leftLen leftLeft leftItem leftRight ihLeft ihRight =>
    cases right with
    | nil => exact .pure _
    | node rightLen rightLeft rightItem rightRight =>
      unfold setIntersectionTree
      refine .bind (splitLookup_total (compareKeys_total total leftItem) _) ?_
      rintro ⟨rightLower, found, rightUpper⟩
      refine .bind (ihLeft rightLower) fun intersectionLower => .bind (ihRight rightUpper) fun intersectionUpper => ?_
      cases found with
      | some _ =>
        refine .bind (sameSides_total total _ _ _ _) fun same => ?_
        cases same with
        | true => exact .pure _
        | false => exact .expect _
      | none => exact .expect _

end Total

section Results

inductive SetMerge where
  | union
  | difference
  | intersection
deriving DecidableEq, Repr

def setMerge [DecidableEq κ] (answers : Answers κ σ ε) (operation : SetMerge) (left right : Tree κ) :
    Fallible σ ε (Tree κ) :=
  match operation with
  | .union => setUnionTree answers left right
  | .difference => setDifferenceTree answers left right
  | .intersection => setIntersectionTree answers left right

/-- The operation on sets, with the elements of the left operand where both have one. -/
def SetMerge.onContents : SetMerge → Contents κ κ → Contents κ κ → Contents κ κ
  | .union => Contents.union
  | .difference => Contents.difference
  | .intersection => Contents.intersection

theorem setMerge_ensures [DecidableEq κ] (lawful : answers.Lawful cmp) (operation : SetMerge)
    (hl : InOrder cmp id True left) (hr : InOrder cmp id True right) :
    Ensures (setMerge answers operation left right)
      (Holds cmp id (operation.onContents (contents cmp id left.toList) (contents cmp id right.toList))) := by
  cases operation with
  | union =>
    exact ((setUnionTree_arranged (fun _ => lawful) left right hl hr).and
      (setUnionTree_holds lawful left right hl hr)).mono fun _ ⟨inOrder, holds⟩ => ⟨inOrder, holds⟩
  | difference =>
    exact ((setDifferenceTree_arranged (fun _ => lawful) left right hl).and
      (setDifferenceTree_holds lawful left right hl hr)).mono fun _ ⟨inOrder, holds⟩ => ⟨inOrder, holds⟩
  | intersection =>
    exact ((setIntersectionTree_arranged (fun _ => lawful) left right hl hr).and
      (setIntersectionTree_holds lawful left right hl hr)).mono fun _ ⟨inOrder, holds⟩ => ⟨inOrder, holds⟩

theorem setMerge_total [DecidableEq κ] (total : answers.Total) (operation : SetMerge) (left right : Tree κ) :
    NeverFails (setMerge answers operation left right) := by
  cases operation with
  | union => exact setUnionTree_total total left right
  | difference => exact setDifferenceTree_total total left right
  | intersection => exact setIntersectionTree_total total left right

/-- On sets that a program has made, the operations are those of set algebra. -/
theorem set_algebra [DecidableEq κ] (lawful : answers.Lawful cmp) (total : answers.Total) {accepted : List κ → Prop}
    (increasing : ∀ elements, accepted elements → Increasing cmp id elements) (operation : SetMerge)
    (hl : SetMade answers accepted left) (hr : SetMade answers accepted right) :
    Succeeds (setMerge answers operation left right)
      (Holds cmp id (operation.onContents (contents cmp id left.toList) (contents cmp id right.toList))) :=
  (setMerge_ensures lawful operation (SetMade.inOrder cmp True (fun _ => lawful) (fun _ => increasing) hl)
    (SetMade.inOrder cmp True (fun _ => lawful) (fun _ => increasing) hr)).succeeds (setMerge_total total operation left right)

theorem numberAnswers_total : numberAnswers.Total where
  equalValues _ _ _ _ := nofun
  less _ _ _ _ := nofun
  greater _ _ _ _ := nofun
  ptrEq _ _ := nofun

theorem set_algebra_numbers : Succeeds (setMerge numberAnswers .difference (TreeNode.new 2 .nil .nil) (TreeNode.new 3 .nil .nil))
    (Holds compare id ((contents compare id [2]).difference (contents compare id [3]))) := by
  have made (n : ℕ) : SetMade numberAnswers (fun _ => False) (TreeNode.new n .nil .nil) :=
    .call (.tree (.singleton n)) trivial (by simp [SetCall.operands, TreeCall.operands]) () () _ rfl
  exact set_algebra numberAnswers_lawful numberAnswers_total (by simp) .difference (made 2) (made 3)

end Results

end HellRs.Collections
