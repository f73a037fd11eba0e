import HellRs.Lib.Contents
import HellRs.Collections.Reachable

/-! # What the trees hold

Where the comparisons answer lawfully, each operation does to the contents of its operands what the operation on finite
maps or sets does. It returns when every comparison returns.
-/

namespace HellRs.Collections

open Ordnode Fallible Std Contents

variable {T κ α σ ε : Type}

/-- Every comparison returns. -/
structure Answers.Total (answers : Answers κ σ ε) : Prop where
  equalValues (left right : κ) (state : σ) (error : ε) : answers.equalValues left right state ≠ .error error
  less (left right : κ) (state : σ) (error : ε) : answers.less left right state ≠ .error error
  greater (left right : κ) (state : σ) (error : ε) : answers.greater left right state ≠ .error error
  ptrEq (state : σ) (error : ε) : answers.ptrEq state ≠ .error error

/-- The tree is balanced and in order, and it holds these contents. -/
structure Holds (cmp : κ → κ → Ordering) (key : T → κ) (held : Contents κ T) (tree : Tree T) : Prop where
  inOrder : InOrder cmp key True tree
  contents : contents cmp key tree.toList = held

section Total

variable {answers : Answers κ σ ε}

theorem compareKeys_total (total : answers.Total) (left right : κ) :
    NeverFails (compareKeysWithOrdAdapters answers left right) := by
  refine .bind (.ask (total.equalValues left right)) fun equal => ?_
  cases equal with
  | true => exact .pure _
  | false =>
    refine .bind (.ask (total.less left right)) fun less => ?_
    cases less with
    | true => exact .pure _
    | false =>
      refine .bind (.ask (total.greater left right)) fun greater => ?_
      cases greater <;> exact .pure _

theorem ptrEq_total [DecidableEq T] (total : answers.Total) (left right : T) : NeverFails (ptrEq answers left right) := by
  unfold ptrEq
  split
  · exact .ask total.ptrEq
  · exact .pure _

theorem sameTreeRoot_total [DecidableEq T] (total : answers.Total) (left right : Tree T) :
    NeverFails (sameTreeRoot answers left right) := by
  cases left <;> cases right
  · exact .pure _
  · exact .pure _
  · exact .pure _
  · exact ptrEq_total total (_ : Tree T) _

theorem sameSides_total [DecidableEq κ] (total : answers.Total) (lower left upper right : Tree κ) :
    NeverFails (sameSides answers lower left upper right) := by
  refine .bind (sameTreeRoot_total total lower left) fun same => ?_
  cases same with
  | true => exact sameTreeRoot_total total upper right
  | false => exact .pure _

variable {compare : T → Fallible σ ε Ordering} (compares : ∀ item, NeverFails (compare item))
include compares

theorem find_total (tree : Tree T) : NeverFails (find compare tree) := by
  induction tree with
  | nil => exact .pure _
  | node len left item right ihLeft ihRight =>
    refine .bind (compares item) fun order => ?_
    cases order with
    | lt => exact ihLeft
    | eq => exact .pure _
    | gt => exact ihRight

theorem insertNode_total {unchanged : Tree T → Tree T → Fallible σ ε Bool} {equal : T → Fallible σ ε (Option T)}
    (isUnchanged : ∀ inserted old, NeverFails (unchanged inserted old)) (isEqual : ∀ old, NeverFails (equal old))
    (item : T) (tree : Tree T) : NeverFails (insertNode compare unchanged equal item tree) := by
  induction tree with
  | nil => exact .pure _
  | node len left nodeItem right ihLeft ihRight =>
    refine .bind (compares nodeItem) fun order => ?_
    cases order with
    | lt =>
      refine .bind ihLeft fun inserted => .bind (isUnchanged inserted left) fun same => ?_
      cases same with
      | true => exact .pure _
      | false => exact .expect _
    | eq =>
      refine .bind (isEqual nodeItem) fun replacement => ?_
      cases replacement <;> exact .pure _
    | gt =>
      refine .bind ihRight fun inserted => .bind (isUnchanged inserted right) fun same => ?_
      cases same with
      | true => exact .pure _
      | false => exact .expect _

theorem remove_total (tree : Tree T) : NeverFails (remove compare tree) := by
  induction tree with
  | nil => exact .pure _
  | node len left item right ihLeft ihRight =>
    refine .bind (compares item) fun order => ?_
    cases order with
    | lt => exact .bind ihLeft fun _ => .expect _
    | eq => exact .expect _
    | gt => exact .bind ihRight fun _ => .expect _

theorem splitLookup_total (tree : Tree T) : NeverFails (splitLookup compare tree) := by
  induction tree with
  | nil => exact .pure _
  | node len left item right ihLeft ihRight =>
    refine .bind (compares item) fun order => ?_
    cases order with
    | lt => exact .bind ihLeft fun (_, _, _) => .bind (.expect _) fun _ => .pure _
    | eq => exact .pure _
    | gt => exact .bind ihRight fun (_, _, _) => .bind (.expect _) fun _ => .pure _

end Total

section Search

variable {cmp : κ → κ → Ordering} [TransCmp cmp] {key : T → κ} {bound : κ} {held : Contents κ T} {tree : Tree T}
  {compare : T → Fallible σ ε Ordering}

theorem holds_self (inOrder : InOrder cmp key True tree) : Holds cmp key (contents cmp key tree.toList) tree :=
  ⟨inOrder, rfl⟩

theorem find_holds (compares : Compares cmp key bound True compare) (inOrder : InOrder cmp key True tree) :
    Ensures (find compare tree) fun found => found = contents cmp key tree.toList bound :=
  (find_ensures compares tree).mono fun _ isFound => isFound trivial (inOrder.increasing trivial)

/-- An insertion puts the item, or what an equal item is replaced by. -/
theorem insertNode_holds {unchanged : Tree T → Tree T → Fallible σ ε Bool} {equal : T → Fallible σ ε (Option T)}
    {item : T} {place : T → T} (compares : Compares cmp key (key item) True compare)
    (isUnchanged : ∀ inserted old, Ensures (unchanged inserted old) fun same => same = true → inserted = old)
    (isEqual : ∀ old, Ensures (equal old) fun replacement => replacement.getD old = place old)
    (keeps : ∀ old, key (place old) = key item ∨ key (place old) = key old) (holds : Holds cmp key held tree) :
    Ensures (insertNode compare unchanged equal item tree)
      (Holds cmp key (held.put cmp (key item) ((held (key item)).elim item place))) := by
  obtain ⟨inOrder, rfl⟩ := holds
  have increasing := inOrder.increasing trivial
  refine (insertNode_ensures (fun old put => put = place old) compares isUnchanged isEqual tree inOrder.balanced).mono
    fun tree' ⟨balanced, _, _, content⟩ => ?_
  have inserted := content trivial increasing
  have increasing' := inserted.increasing (fun old put same => same ▸ keeps old) increasing
  refine ⟨⟨balanced, fun _ => increasing', by simp⟩, ?_⟩
  obtain ⟨put, puts, items⟩ := inserted
  rw [items] at increasing' ⊢
  obtain ⟨rfl, same⟩ : put = (contents cmp key tree.toList (key item)).elim item place ∧ cmp (key item) (key put) = .eq := by
    cases found : matching cmp key (key item) tree.toList with
    | none =>
      rw [found] at puts
      obtain rfl : put = item := puts
      exact ⟨by rw [contents, found]; rfl, ReflCmp.compare_self⟩
    | some old =>
      rw [found] at puts
      obtain rfl : put = place old := puts
      refine ⟨by rw [contents, found]; rfl, ?_⟩
      rcases keeps old with atItem | atOld
      · rw [atItem]
        exact ReflCmp.compare_self
      · rw [atOld]
        exact (matching_some found).2
  exact contents_insertion increasing' same

theorem remove_holds (compares : Compares cmp key bound True compare) (holds : Holds cmp key held tree) :
    Ensures (remove compare tree) (Holds cmp key (held.drop cmp bound)) := by
  obtain ⟨inOrder, rfl⟩ := holds
  refine (remove_ensures compares tree inOrder.balanced).mono fun tree' ⟨balanced, _, _, content⟩ => ?_
  have items := content trivial (inOrder.increasing trivial)
  refine ⟨⟨balanced, fun _ => ?_, by simp⟩, by rw [items, contents_removed]⟩
  rw [items]
  exact (inOrder.increasing trivial).remove bound

/-- A tree is the two parts at a bound and the item there. -/
theorem splitLookup_parts {among : κ → Prop} (compares : Compares cmp key bound True compare)
    (arranged : Arranged cmp key True among tree) :
    Ensures (splitLookup compare tree) fun (lower, found, upper) =>
      Arranged cmp key True (Lower cmp bound among) lower ∧ Arranged cmp key True (Upper cmp bound among) upper ∧
        contents cmp key tree.toList =
          parted cmp bound (contents cmp key lower.toList) found (contents cmp key upper.toList) := by
  refine ((splitLookup_arranged compares arranged).and (splitLookup_ensures compares tree arranged.balanced)).mono
    fun (lower, found, upper) ⟨⟨hLower, hUpper⟩, _, _, content⟩ => ⟨hLower, hUpper, ?_⟩
  obtain ⟨low, isFound, up⟩ := content trivial (arranged.increasing trivial)
  rw [low, isFound, up]
  exact contents_parts tree.toList bound

/-- The contents of a node are those of its sides and its item. -/
theorem contents_node {len : ℕ} {left right : Tree T} {item : T} {among : κ → Prop}
    (arranged : Arranged cmp key True among (.node len left item right)) :
    contents cmp key (Ordnode.node len left item right).toList =
      parted cmp (key item) (contents cmp key left.toList) (some item) (contents cmp key right.toList) := by
  have increasing := arranged.increasing trivial
  rw [toList_node] at increasing ⊢
  exact contents_append_cons increasing

end Search

end HellRs.Collections
