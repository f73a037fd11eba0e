import HellRs.Lib.Ensures
import HellRs.Lib.Increasing
import HellRs.Collections.Tree

/-! # Finding a place in a tree

The comparisons ask the evaluator, which may answer anything, and another thing the next time, or fail.
-/

namespace HellRs.Collections

open Ordnode Fallible Std

variable {T κ σ ε : Type}

/-- What the evaluator answers about two keys, and memory about two alike nodes or elements. -/
structure Answers (κ σ ε : Type) where
  equalValues : κ → κ → StateT σ (Except ε) Bool
  less : κ → κ → StateT σ (Except ε) Bool
  greater : κ → κ → StateT σ (Except ε) Bool
  ptrEq : StateT σ (Except ε) Bool

/-- The answers that are given are those of a lawful order on the keys. -/
structure Answers.Lawful (answers : Answers κ σ ε) (cmp : κ → κ → Ordering) : Prop where
  equalValues {left right : κ} {state state' : σ} {answer : Bool} :
    answers.equalValues left right state = .ok (answer, state') → answer = (cmp left right == .eq)
  less {left right : κ} {state state' : σ} {answer : Bool} :
    answers.less left right state = .ok (answer, state') → answer = (cmp left right == .lt)
  greater {left right : κ} {state state' : σ} {answer : Bool} :
    answers.greater left right state = .ok (answer, state') → answer = (cmp left right == .gt)

def compareKeysWithOrdAdapters (answers : Answers κ σ ε) (left right : κ) : Fallible σ ε Ordering := do
  if ← ask (answers.equalValues left right) then return .eq
  if ← ask (answers.less left right) then return .lt
  if ← ask (answers.greater left right) then return .gt
  -- keys that are not even comparable, such as `NaN`
  return .gt

/-- `Arc::ptr_eq`. -/
def ptrEq [DecidableEq T] (answers : Answers κ σ ε) (left right : T) : Fallible σ ε Bool :=
  if left = right then ask answers.ptrEq else return false

def sameTreeRoot [DecidableEq T] (answers : Answers κ σ ε) (left right : Tree T) : Fallible σ ε Bool :=
  match left, right with
  | .nil, .nil => return true
  | .node .., .node .. => ptrEq answers left right
  | _, _ => return false

def find (compare : T → Fallible σ ε Ordering) : Tree T → Fallible σ ε (Option T)
  | .nil => return none
  | .node _ left item right => do
    match ← compare item with
    | .lt => find compare left
    | .eq => return some item
    | .gt => find compare right

/-- The insertions differ in what they do at an equal item and in what they recognise as unchanged. -/
def insertNode (compare : T → Fallible σ ε Ordering) (unchanged : Tree T → Tree T → Fallible σ ε Bool)
    (equal : T → Fallible σ ε (Option T)) (item : T) : Tree T → Fallible σ ε (Tree T)
  | .nil => return TreeNode.new item .nil .nil
  | .node len left nodeItem right => do
    match ← compare nodeItem with
    | .lt =>
      let inserted ← insertNode compare unchanged equal item left
      if ← unchanged inserted left then return .node len left nodeItem right
      else expect (balanceLeft nodeItem inserted right)
    | .eq =>
      match ← equal nodeItem with
      | none => return .node len left nodeItem right
      | some replacement => return TreeNode.new replacement left right
    | .gt =>
      let inserted ← insertNode compare unchanged equal item right
      if ← unchanged inserted right then return .node len left nodeItem right
      else expect (balanceRight nodeItem left inserted)

def insert (compare : T → T → Fallible σ ε Ordering) (item : T) : Tree T → Fallible σ ε (Tree T) :=
  insertNode (compare item) (fun _ _ => return false) (fun _ => return some item) item

def remove (compare : T → Fallible σ ε Ordering) : Tree T → Fallible σ ε (Tree T)
  | .nil => return .nil
  | .node _ left item right => do
    match ← compare item with
    | .lt =>
      let left ← remove compare left
      expect (balanceRight item left right)
    | .gt =>
      let right ← remove compare right
      expect (balanceLeft item left right)
    | .eq => expect (glue left right)

def splitLookup (compare : T → Fallible σ ε Ordering) : Tree T → Fallible σ ε (Tree T × Option T × Tree T)
  | .nil => return (.nil, none, .nil)
  | .node _ left item right => do
    match ← compare item with
    | .lt =>
      let (lower, found, upperLeft) ← splitLookup compare left
      let upper ← expect (link item upperLeft right)
      return (lower, found, upper)
    | .eq => return (left, some item, right)
    | .gt =>
      let (lowerRight, found, upper) ← splitLookup compare right
      let lower ← expect (link item left lowerRight)
      return (lower, found, upper)

section Specifications

variable {cmp : κ → κ → Ordering} {key : T → κ} {bound : κ} {lawful : Prop}

/-- The comparisons compare the bound, where the order is lawful. -/
def Compares (cmp : κ → κ → Ordering) (key : T → κ) (bound : κ) (lawful : Prop)
    (compare : T → Fallible σ ε Ordering) : Prop :=
  ∀ item, Ensures (compare item) fun order => lawful → order = cmp bound (key item)

theorem compareKeysWithOrdAdapters_compares {answers : Answers κ σ ε} (isLawful : lawful → answers.Lawful cmp)
    (bound : κ) (key : T → κ) :
    Compares cmp key bound lawful fun item => compareKeysWithOrdAdapters answers bound (key item) := by
  intro item
  refine .bind (.ask fun _ _ _ answered law => (isLawful law).equalValues answered) fun equal isEqual => ?_
  cases equal with
  | true => exact .pure fun law => (beq_iff_eq.mp (isEqual law).symm).symm
  | false =>
    refine .bind (.ask fun _ _ _ answered law => (isLawful law).less answered) fun less isLess => ?_
    cases less with
    | true => exact .pure fun law => (beq_iff_eq.mp (isLess law).symm).symm
    | false =>
      have greatest (law : lawful) : .gt = cmp bound (key item) := by
        have notEqual := isEqual law
        have notLess := isLess law
        cases order : cmp bound (key item) <;> simp [order] at notEqual notLess ⊢
      refine .bind_ask fun greater => ?_
      cases greater with
      | true => exact .pure greatest
      | false => exact .pure greatest

theorem compareKeysWithOrdAdapters_total (answers : Answers κ σ ε) (left right : κ) :
    Ensures (compareKeysWithOrdAdapters answers left right) fun _ => True := by
  have compares : Compares (fun _ _ => .eq) id left False fun item => compareKeysWithOrdAdapters answers left (id item) :=
    compareKeysWithOrdAdapters_compares False.elim left id
  exact (compares right).mono fun _ _ => trivial

theorem ptrEq_ensures [DecidableEq T] (answers : Answers κ σ ε) (left right : T) :
    Ensures (ptrEq answers left right) fun one => one = true → left = right := by
  unfold ptrEq
  split_ifs with alike
  · exact .ask fun _ _ _ _ _ => alike
  · exact .pure fun one => by simp at one

theorem sameTreeRoot_ensures [DecidableEq T] (answers : Answers κ σ ε) (left right : Tree T) :
    Ensures (sameTreeRoot answers left right) fun one => one = true → left = right := by
  cases left <;> cases right
  · exact .pure fun _ => rfl
  · exact .pure fun one => by simp at one
  · exact .pure fun one => by simp at one
  · exact ptrEq_ensures answers (_ : Tree T) _

theorem find_ensures [TransCmp cmp] {compare : T → Fallible σ ε Ordering}
    (compares : Compares cmp key bound lawful compare) (tree : Tree T) : Ensures (find compare tree) fun found =>
      lawful → Increasing cmp key tree.toList → found = matching cmp key bound tree.toList := by
  induction tree with
  | nil => exact .pure fun _ _ => rfl
  | node len left item right ihLeft ihRight =>
    simp only [toList_node]
    refine .bind (compares item) fun order isOrder => ?_
    cases order with
    | lt =>
      refine ihLeft.mono fun found isFound law increasing => ?_
      obtain ⟨-, -, matched⟩ := part_lt increasing (isOrder law).symm
      rw [matched, isFound law (increasing_append_cons.mp increasing).1]
    | eq =>
      refine .pure fun law increasing => ?_
      obtain ⟨-, -, matched⟩ := part_eq increasing (isOrder law).symm
      exact matched.symm
    | gt =>
      refine ihRight.mono fun found isFound law increasing => ?_
      obtain ⟨-, -, matched⟩ := part_gt increasing (isOrder law).symm
      rw [matched, isFound law (increasing_append_cons.mp increasing).2.1]

theorem insertNode_ensures [TransCmp cmp] {compare : T → Fallible σ ε Ordering}
    {unchanged : Tree T → Tree T → Fallible σ ε Bool} {equal : T → Fallible σ ε (Option T)} {item : T}
    (replaces : T → T → Prop) (compares : Compares cmp key bound lawful compare)
    (isUnchanged : ∀ inserted old, Ensures (unchanged inserted old) fun same => same = true → inserted = old)
    (isEqual : ∀ old, Ensures (equal old) fun replacement => replaces old (replacement.getD old))
    (tree : Tree T) (balanced : WeightBalanced tree) :
    Ensures (insertNode compare unchanged equal item tree) fun tree' =>
      WeightBalanced tree' ∧ tree.size ≤ tree'.size ∧ tree'.size ≤ tree.size + 1 ∧
        (lawful → Increasing cmp key tree.toList →
          Inserted cmp key bound replaces item tree.toList tree'.toList) := by
  induction tree with
  | nil =>
    exact .pure ⟨singleton_balanced item, by simp, by simp [TreeNode.size_new], fun _ _ => ⟨item, rfl, rfl⟩⟩
  | node len left nodeItem right ihLeft ihRight =>
    obtain ⟨rfl, hl, hr, even⟩ := WeightBalanced.node_iff.mp balanced
    simp only [toList_node, size_node]
    refine .bind (compares nodeItem) fun order isOrder => ?_
    cases order with
    | lt =>
      refine .bind (ihLeft hl) fun left' ⟨hl', le, le', content⟩ => ?_
      have parted (law : lawful) (increasing : Increasing cmp key (left.toList ++ nodeItem :: right.toList)) :=
        Inserted.of_lt increasing (isOrder law).symm (content law (increasing_append_cons.mp increasing).1)
      refine .bind (isUnchanged left' left) fun same isSame => ?_
      cases same with
      | true =>
        obtain rfl := isSame rfl
        exact .pure ⟨balanced, le_rfl, Nat.le_succ _, by rwa [toList_node]⟩
      | false =>
        obtain ⟨tree', built, balanced', items, size⟩ :=
          (@balanceLeft_builds _ nodeItem _ _ hl' hr (Leans.grown even le le')).of_node
        rw [List.length_append, List.length_cons, hl'.length_toList, hr.length_toList] at size
        exact .expect built ⟨balanced', by omega, by omega, by rwa [items]⟩
    | eq =>
      refine .bind (isEqual nodeItem) fun replacement isReplacement => ?_
      have parted (law : lawful) (increasing : Increasing cmp key (left.toList ++ nodeItem :: right.toList)) :=
        Inserted.of_eq increasing item (isOrder law).symm isReplacement
      cases replacement with
      | none => exact .pure ⟨balanced, le_rfl, Nat.le_succ _, by rwa [toList_node]⟩
      | some put =>
        exact .pure ⟨TreeNode.balanced_new hl hr even, (TreeNode.size_new ..).ge,
          (TreeNode.size_new ..).le.trans (Nat.le_succ _), by rwa [TreeNode.toList_new]⟩
    | gt =>
      refine .bind (ihRight hr) fun right' ⟨hr', le, le', content⟩ => ?_
      have parted (law : lawful) (increasing : Increasing cmp key (left.toList ++ nodeItem :: right.toList)) :=
        Inserted.of_gt increasing (isOrder law).symm (content law (increasing_append_cons.mp increasing).2.1)
      refine .bind (isUnchanged right' right) fun same isSame => ?_
      cases same with
      | true =>
        obtain rfl := isSame rfl
        exact .pure ⟨balanced, le_rfl, Nat.le_succ _, by rwa [toList_node]⟩
      | false =>
        obtain ⟨tree', built, balanced', items, size⟩ :=
          (@balanceRight_builds _ nodeItem _ _ hl hr' (Leans.grown even.symm le le')).of_node
        rw [List.length_append, List.length_cons, hl.length_toList, hr'.length_toList] at size
        exact .expect built ⟨balanced', by omega, by omega, by rwa [items]⟩

theorem remove_ensures [TransCmp cmp] {compare : T → Fallible σ ε Ordering}
    (compares : Compares cmp key bound lawful compare) (tree : Tree T) (balanced : WeightBalanced tree) :
    Ensures (remove compare tree) fun tree' =>
      WeightBalanced tree' ∧ tree'.size ≤ tree.size ∧ tree.size ≤ tree'.size + 1 ∧
        (lawful → Increasing cmp key tree.toList →
          tree'.toList = below cmp key bound tree.toList ++ above cmp key bound tree.toList) := by
  induction tree with
  | nil => exact .pure ⟨.nil, le_rfl, by simp, fun _ _ => rfl⟩
  | node len left item right ihLeft ihRight =>
    obtain ⟨rfl, hl, hr, even⟩ := WeightBalanced.node_iff.mp balanced
    simp only [toList_node, size_node]
    refine .bind (compares item) fun order isOrder => ?_
    cases order with
    | lt =>
      refine .bind (ihLeft hl) fun left' ⟨hl', le, le', content⟩ => ?_
      obtain ⟨tree', built, balanced', items, size⟩ :=
        (@balanceRight_builds _ item _ _ hl' hr (Leans.shrunk even.symm le le')).of_node
      rw [List.length_append, List.length_cons, hl'.length_toList, hr.length_toList] at size
      refine .expect built ⟨balanced', by omega, by omega, fun law increasing => ?_⟩
      obtain ⟨lower, upper, -⟩ := part_lt increasing (isOrder law).symm
      rw [items, lower, upper, content law (increasing_append_cons.mp increasing).1, List.append_assoc]
    | eq =>
      obtain ⟨tree', built, balanced', items, size⟩ := (glue_builds hl hr even).of_node
      rw [List.length_append, hl.length_toList, hr.length_toList] at size
      refine .expect built ⟨balanced', by omega, by omega, fun law increasing => ?_⟩
      obtain ⟨lower, upper, -⟩ := part_eq increasing (isOrder law).symm
      rw [items, lower, upper]
    | gt =>
      refine .bind (ihRight hr) fun right' ⟨hr', le, le', content⟩ => ?_
      obtain ⟨tree', built, balanced', items, size⟩ :=
        (@balanceLeft_builds _ item _ _ hl hr' (Leans.shrunk even le le')).of_node
      rw [List.length_append, List.length_cons, hl.length_toList, hr'.length_toList] at size
      refine .expect built ⟨balanced', by omega, by omega, fun law increasing => ?_⟩
      obtain ⟨lower, upper, -⟩ := part_gt increasing (isOrder law).symm
      rw [items, lower, upper, content law (increasing_append_cons.mp increasing).2.1,
        List.append_assoc, List.cons_append]

theorem splitLookup_ensures [TransCmp cmp] {compare : T → Fallible σ ε Ordering}
    (compares : Compares cmp key bound lawful compare) (tree : Tree T) (balanced : WeightBalanced tree) :
    Ensures (splitLookup compare tree) fun (lower, found, upper) =>
      WeightBalanced lower ∧ WeightBalanced upper ∧
        (lawful → Increasing cmp key tree.toList → lower.toList = below cmp key bound tree.toList ∧
          found = matching cmp key bound tree.toList ∧ upper.toList = above cmp key bound tree.toList) := by
  induction tree with
  | nil => exact .pure ⟨.nil, .nil, fun _ _ => ⟨rfl, rfl, rfl⟩⟩
  | node len left item right ihLeft ihRight =>
    obtain ⟨rfl, hl, hr, even⟩ := WeightBalanced.node_iff.mp balanced
    simp only [toList_node]
    refine .bind (compares item) fun order isOrder => ?_
    cases order with
    | lt =>
      refine .bind (ihLeft hl) fun (lower, found, upperLeft) ⟨hLower, hUpper, content⟩ => ?_
      obtain ⟨upper, built, hUpper, items⟩ := link_builds item _ _ hUpper hr
      refine .bind_expect built ?_
      refine .pure ⟨hLower, hUpper, fun law increasing => ?_⟩
      rw [items]
      obtain ⟨belowItems, aboveItems, matched⟩ := part_lt increasing (isOrder law).symm
      obtain ⟨lowerItems, isFound, upperItems⟩ := content law (increasing_append_cons.mp increasing).1
      rw [belowItems, aboveItems, matched, upperItems]
      exact ⟨lowerItems, isFound, rfl⟩
    | eq =>
      refine .pure ⟨hl, hr, fun law increasing => ?_⟩
      obtain ⟨belowItems, aboveItems, matched⟩ := part_eq increasing (isOrder law).symm
      rw [belowItems, aboveItems, matched]
      exact ⟨rfl, rfl, rfl⟩
    | gt =>
      refine .bind (ihRight hr) fun (lowerRight, found, upper) ⟨hLower, hUpper, content⟩ => ?_
      obtain ⟨lower, built, hLower, items⟩ := link_builds item _ _ hl hLower
      refine .bind_expect built ?_
      refine .pure ⟨hLower, hUpper, fun law increasing => ?_⟩
      rw [items]
      obtain ⟨belowItems, aboveItems, matched⟩ := part_gt increasing (isOrder law).symm
      obtain ⟨lowerItems, isFound, upperItems⟩ := content law (increasing_append_cons.mp increasing).2.1
      rw [belowItems, aboveItems, matched, lowerItems]
      exact ⟨rfl, isFound, upperItems⟩

end Specifications

end HellRs.Collections
