import HellRs.Collections.Keyed

/-! # The reviewed model of the comparator protocol

The model of `hell-testkit`, written apart from the runtime: the same trees, over indices into the list of keys. The answers
of its keys may be any, and a record of the questions is a state that the answers keep. Sizes do not saturate.
-/

namespace HellRs.Collections

open Ordnode Fallible

variable {κ α σ ε : Type}

namespace Reviewed

def delta : ℕ := 3
def ratio : ℕ := 2

def node (key : κ) (left right : Tree κ) : Tree κ := .node (1 + left.size + right.size) left key right

def rotateLeft : Tree κ → Option (Tree κ)
  | .node _ left key (.node _ rightLeft rightKey rightRight) =>
    some (node rightKey (node key left rightLeft) rightRight)
  | _ => none

def rotateRight : Tree κ → Option (Tree κ)
  | .node _ (.node _ leftLeft leftKey leftRight) key right =>
    some (node leftKey leftLeft (node key leftRight right))
  | _ => none

def balanceLeft : Tree κ → Option (Tree κ)
  | .nil => none
  | .node len left key right =>
    if left.size + right.size ≤ 1 ∨ left.size ≤ delta * right.size then some (.node len left key right)
    else match left with
      | .nil => none
      | .node leftLen leftLeft leftKey leftRight =>
        if leftRight.size < ratio * leftLeft.size then
          rotateRight (.node len (.node leftLen leftLeft leftKey leftRight) key right)
        else do
          let rotated ← rotateLeft (.node leftLen leftLeft leftKey leftRight)
          rotateRight (node key rotated right)

def balanceRight : Tree κ → Option (Tree κ)
  | .nil => none
  | .node len left key right =>
    if left.size + right.size ≤ 1 ∨ right.size ≤ delta * left.size then some (.node len left key right)
    else match right with
      | .nil => none
      | .node rightLen rightLeft rightKey rightRight =>
        if rightLeft.size < ratio * rightRight.size then
          rotateLeft (.node len left key (.node rightLen rightLeft rightKey rightRight))
        else do
          let rotated ← rotateRight (.node rightLen rightLeft rightKey rightRight)
          rotateLeft (node key left rotated)

def insertMin (key : κ) : Tree κ → Option (Tree κ)
  | .nil => some (node key .nil .nil)
  | .node _ left treeKey right => do
    let left ← insertMin key left
    balanceLeft (node treeKey left right)

def insertMax (key : κ) : Tree κ → Option (Tree κ)
  | .nil => some (node key .nil .nil)
  | .node _ left treeKey right => do
    let right ← insertMax key right
    balanceRight (node treeKey left right)

def link (key : κ) (left right : Tree κ) : Option (Tree κ) :=
  match left, right with
  | .nil, right => insertMin key right
  | left, .nil => insertMax key left
  | .node leftLen leftLeft leftKey leftRight, .node rightLen rightLeft rightKey rightRight =>
    if delta * leftLen < rightLen then do
      let left ← link key (.node leftLen leftLeft leftKey leftRight) rightLeft
      balanceLeft (node rightKey left rightRight)
    else if delta * rightLen < leftLen then do
      let right ← link key leftRight (.node rightLen rightLeft rightKey rightRight)
      balanceRight (node leftKey leftLeft right)
    else some (node key (.node leftLen leftLeft leftKey leftRight) (.node rightLen rightLeft rightKey rightRight))
termination_by sizeOf left + sizeOf right

def takeMin : Tree κ → Option (κ × Tree κ)
  | .nil => none
  | .node _ .nil key right => some (key, right)
  | .node _ (.node leftLen leftLeft leftKey leftRight) key right => do
    let (first, remaining) ← takeMin (.node leftLen leftLeft leftKey leftRight)
    let rest ← balanceRight (node key remaining right)
    some (first, rest)

def takeMax : Tree κ → Option (κ × Tree κ)
  | .nil => none
  | .node _ left key .nil => some (key, left)
  | .node _ left key (.node rightLen rightLeft rightKey rightRight) => do
    let (last, remaining) ← takeMax (.node rightLen rightLeft rightKey rightRight)
    let rest ← balanceLeft (node key left remaining)
    some (last, rest)

def glue (left right : Tree κ) : Option (Tree κ) :=
  match left, right with
  | .nil, right => some right
  | left, .nil => some left
  | .node leftLen leftLeft leftKey leftRight, .node rightLen rightLeft rightKey rightRight =>
    if leftLen > rightLen then do
      let (key, remaining) ← takeMax (.node leftLen leftLeft leftKey leftRight)
      balanceRight (node key remaining (.node rightLen rightLeft rightKey rightRight))
    else do
      let (key, remaining) ← takeMin (.node rightLen rightLeft rightKey rightRight)
      balanceLeft (node key (.node leftLen leftLeft leftKey leftRight) remaining)

def merge (left right : Tree κ) : Option (Tree κ) :=
  match left, right with
  -- `left.or(right)`
  | .nil, right => some right
  | left, .nil => some left
  | .node leftLen leftLeft leftKey leftRight, .node rightLen rightLeft rightKey rightRight =>
    if delta * leftLen < rightLen then do
      let left ← merge (.node leftLen leftLeft leftKey leftRight) rightLeft
      balanceLeft (node rightKey left rightRight)
    else if delta * rightLen < leftLen then do
      let right ← merge leftRight (.node rightLen rightLeft rightKey rightRight)
      balanceRight (node leftKey leftLeft right)
    else glue (.node leftLen leftLeft leftKey leftRight) (.node rightLen rightLeft rightKey rightRight)
termination_by sizeOf left + sizeOf right

def compare (answers : Answers κ σ ε) (left right : κ) : Fallible σ ε Ordering := do
  if ← ask (answers.equalValues left right) then return .eq
  let less ← ask (answers.less left right)
  if less then return .lt
  let greater ← ask (answers.greater left right)
  if greater then return .gt else return .gt

def notOrdered (answers : Answers κ σ ε) (left right : κ) : Fallible σ ε Bool := do
  if ← ask (answers.equalValues left right) then return true
  let greater ← ask (answers.greater left right)
  return greater

def split (answers : Answers κ σ ε) (key : κ) : Tree κ → Fallible σ ε (Tree κ × Option κ × Tree κ)
  | .nil => return (.nil, none, .nil)
  | .node _ left treeKey right => do
    match ← compare answers key treeKey with
    | .lt =>
      let (lower, found, upperLeft) ← split answers key left
      let upper ← expect (link treeKey upperLeft right)
      return (lower, found, upper)
    | .eq => return (left, some treeKey, right)
    | .gt =>
      let (lowerRight, found, upper) ← split answers key right
      let lower ← expect (link treeKey left lowerRight)
      return (lower, found, upper)

def insertReplacing [DecidableEq κ] (answers : Answers κ σ ε) (key : κ) : Tree κ → Fallible σ ε (Tree κ)
  | .nil => return node key .nil .nil
  | .node len left treeKey right => do
    match ← compare answers key treeKey with
    | .lt =>
      let left ← insertReplacing answers key left
      expect (balanceLeft (node treeKey left right))
    | .eq => do
      if ← ptrEq answers key treeKey then return .node len left treeKey right
      return node key left right
    | .gt =>
      let right ← insertReplacing answers key right
      expect (balanceRight (node treeKey left right))

def insertPreserving (answers : Answers κ σ ε) (key : κ) : Tree κ → Fallible σ ε (Kept κ)
  | .nil => return ⟨node key .nil .nil, false⟩
  | .node len left treeKey right => do
    match ← compare answers key treeKey with
    | .lt =>
      let inserted ← insertPreserving answers key left
      if inserted.same then return ⟨.node len left treeKey right, true⟩
      else
        let tree ← expect (balanceLeft (node treeKey inserted.tree right))
        return ⟨tree, false⟩
    | .eq => return ⟨.node len left treeKey right, true⟩
    | .gt =>
      let inserted ← insertPreserving answers key right
      if inserted.same then return ⟨.node len left treeKey right, true⟩
      else
        let tree ← expect (balanceRight (node treeKey left inserted.tree))
        return ⟨tree, false⟩

def delete (answers : Answers κ σ ε) (key : κ) : Tree κ → Fallible σ ε (Tree κ)
  | .nil => return .nil
  | .node _ left treeKey right => do
    match ← compare answers key treeKey with
    | .lt =>
      let left ← delete answers key left
      expect (balanceRight (node treeKey left right))
    | .eq => expect (glue left right)
    | .gt =>
      let right ← delete answers key right
      expect (balanceLeft (node treeKey left right))

def member (answers : Answers κ σ ε) (key : κ) : Tree κ → Fallible σ ε Bool
  | .nil => return false
  | .node _ left treeKey right => do
    match ← compare answers key treeKey with
    | .lt => member answers key left
    | .eq => return true
    | .gt => member answers key right

def union [DecidableEq κ] (answers : Answers κ σ ε) (left right : Tree κ) : Fallible σ ε (Kept κ) :=
  match left, right with
  | .nil, .nil => return ⟨.nil, true⟩
  | .nil, right => return ⟨right, false⟩
  | left, .nil => return ⟨left, true⟩
  | .node leftLen leftLeft leftKey leftRight, .node rightLen rightLeft rightKey rightRight =>
    if rightLen = 1 then insertPreserving answers rightKey (.node leftLen leftLeft leftKey leftRight)
    else if leftLen = 1 then do
      let tree ← insertReplacing answers leftKey (.node rightLen rightLeft rightKey rightRight)
      return ⟨tree, false⟩
    else do
      let (rightLower, _, rightUpper) ← split answers leftKey (.node rightLen rightLeft rightKey rightRight)
      let joinedLeft ← union answers leftLeft rightLower
      let joinedRight ← union answers leftRight rightUpper
      if joinedLeft.same ∧ joinedRight.same then return ⟨.node leftLen leftLeft leftKey leftRight, true⟩
      else
        let tree ← expect (link leftKey joinedLeft.tree joinedRight.tree)
        return ⟨tree, false⟩

def difference (answers : Answers κ σ ε) (left : Tree κ) : Tree κ → Fallible σ ε (Tree κ)
  | .nil => return left
  | .node _ rightLeft rightKey rightRight =>
    match left with
    | .nil => return .nil
    | .node leftLen leftLeft leftKey leftRight => do
      let (leftLower, _, leftUpper) ← split answers rightKey (.node leftLen leftLeft leftKey leftRight)
      let lower ← difference answers leftLower rightLeft
      let upper ← difference answers leftUpper rightRight
      if lower.size + upper.size = leftLen then return .node leftLen leftLeft leftKey leftRight
      expect (merge lower upper)

def intersection (answers : Answers κ σ ε) (left right : Tree κ) : Fallible σ ε (Kept κ) :=
  match left with
  | .nil => return ⟨.nil, true⟩
  | .node leftLen leftLeft leftKey leftRight =>
    match right with
    | .nil => return ⟨.nil, false⟩
    | .node rightLen rightLeft rightKey rightRight => do
      let (rightLower, found, rightUpper) ← split answers leftKey (.node rightLen rightLeft rightKey rightRight)
      let lower ← intersection answers leftLeft rightLower
      let upper ← intersection answers leftRight rightUpper
      if found.isSome then
        if lower.same ∧ upper.same then return ⟨.node leftLen leftLeft leftKey leftRight, true⟩
        else
          let tree ← expect (link leftKey lower.tree upper.tree)
          return ⟨tree, false⟩
      else
        let tree ← expect (merge lower.tree upper.tree)
        return ⟨tree, false⟩

structure Created (κ : Type) where
  tree : Tree κ
  next : ℕ
  unordered : Bool

/-- With `create` for half of the size. -/
def createWide (answers : Answers κ σ ε) (input : List κ) (create : ℕ → Fallible σ ε (Created κ)) (index : ℕ) :
    Fallible σ ε (Created κ) := do
  let left ← create index
  if left.unordered then return left
  match input[left.next]?, input[left.next + 1]? with
  | none, _ => return left
  | some pivot, none =>
    let tree ← expect (insertMax pivot left.tree)
    return ⟨tree, input.length, false⟩
  | some pivot, some next => do
    if ← notOrdered answers pivot next then return ⟨left.tree, left.next, true⟩
    let right ← create (left.next + 1)
    let tree ← expect (link pivot left.tree right.tree)
    return ⟨tree, right.next, right.unordered⟩

def create (answers : Answers κ σ ε) (input : List κ) (index size : ℕ) : Fallible σ ε (Created κ) :=
  match input[index]? with
  | none => return ⟨.nil, index, false⟩
  | some key =>
    if size = 1 then
      match input[index + 1]? with
      | none => return ⟨node key .nil .nil, index + 1, false⟩
      | some next => do
        let unordered ← notOrdered answers key next
        return ⟨node key .nil .nil, index + 1, unordered⟩
    else if _ : size = 0 then
      -- the recursion has no end
      throw .panic
    else createWide answers input (fun index => create answers input index (size / 2)) index
termination_by size
decreasing_by omega

def insertRemaining [DecidableEq κ] (answers : Answers κ σ ε) (tree : Tree κ) (input : List κ) (index : ℕ) :
    Fallible σ ε (Tree κ) :=
  (input.drop index).foldlM (fun tree key => insertReplacing answers key tree) tree

/-- The turns of the loop; each takes keys, so that there are fewer turns than keys. -/
def orderedPrefix [DecidableEq κ] (answers : Answers κ σ ε) (input : List κ) :
    (turns : ℕ) → (left : Tree κ) → (index size : ℕ) → Fallible σ ε (Tree κ)
  | 0, _, _, _ => throw .panic
  | turns + 1, left, index, size =>
    match input[index]?, input[index + 1]? with
    | none, _ => return left
    | some key, none => expect (insertMax key left)
    | some pivot, some next => do
      if ← notOrdered answers pivot next then insertRemaining answers left input index
      else
        let created ← create answers input (index + 1) size
        let left ← expect (link pivot left created.tree)
        if created.unordered then insertRemaining answers left input created.next
        else orderedPrefix answers input turns left created.next (size * 2)

def fromList [DecidableEq κ] (answers : Answers κ σ ε) (input : List κ) : Fallible σ ε (Tree κ) :=
  match input[0]?, input[1]? with
  | none, _ => return .nil
  | some first, none => return node first .nil .nil
  | some first, some next => do
    if ← notOrdered answers first next then insertRemaining answers (node first .nil .nil) input 1
    else orderedPrefix answers input input.length (node first .nil .nil) 1 1

section Trees

variable {key : κ} {left right : Tree κ} {len : ℕ}

theorem rotateLeft_eq (len : ℕ) (key : κ) (left right : Tree κ) :
    rotateLeft (.node len left key right) = Collections.rotateLeft key left right := by
  cases right <;> rfl

theorem rotateRight_eq (len : ℕ) (key : κ) (left right : Tree κ) :
    rotateRight (.node len left key right) = Collections.rotateRight key left right := by
  cases left <;> rfl

theorem balanceLeft_eq (key : κ) (left right : Tree κ) :
    balanceLeft (node key left right) = Collections.balanceLeft key left right := by
  unfold node balanceLeft Collections.balanceLeft
  simp only [delta, ratio, sizeBalanceDelta, sizeBalanceRatio, node, rotateLeft_eq, rotateRight_eq]
  by_cases light : left.size + right.size ≤ 1 ∨ left.size ≤ 3 * right.size
  · simp only [light, if_true]
    rfl
  · simp only [light, if_false]
    cases left <;> rfl

theorem balanceRight_eq (key : κ) (left right : Tree κ) :
    balanceRight (node key left right) = Collections.balanceRight key left right := by
  unfold node balanceRight Collections.balanceRight
  simp only [delta, ratio, sizeBalanceDelta, sizeBalanceRatio, node, rotateLeft_eq, rotateRight_eq]
  by_cases light : left.size + right.size ≤ 1 ∨ right.size ≤ 3 * left.size
  · simp only [light, if_true]
    rfl
  · simp only [light, if_false]
    cases right <;> rfl

theorem insertMin_eq (key : κ) (tree : Tree κ) : insertMin key tree = Collections.insertMin key tree := by
  induction tree with
  | nil => rfl
  | node len left treeKey right ihLeft _ => simp only [insertMin, Collections.insertMin, ihLeft, balanceLeft_eq]

theorem insertMax_eq (key : κ) (tree : Tree κ) : insertMax key tree = Collections.insertMax key tree := by
  induction tree with
  | nil => rfl
  | node len left treeKey right _ ihRight => simp only [insertMax, Collections.insertMax, ihRight, balanceRight_eq]

theorem link_eq (key : κ) (left right : Tree κ) : link key left right = Collections.link key left right := by
  fun_induction Collections.link key left right with
  | case1 right => rw [link, insertMin_eq]
  | case2 left isNode =>
    cases left with
    | nil => exact absurd rfl isNode
    | node => rw [link, insertMax_eq]; exact isNode
  | case3 _ _ _ _ _ _ _ _ light ih =>
    unfold link
    rw [if_pos (show delta * _ < _ from light), ih]
    simp only [balanceLeft_eq]
  | case4 _ _ _ _ _ _ _ _ notLight light ih =>
    unfold link
    rw [if_neg (show ¬ delta * _ < _ from notLight), if_pos (show delta * _ < _ from light), ih]
    simp only [balanceRight_eq]
  | case5 _ _ _ _ _ _ _ _ notLight notLight' =>
    unfold link
    rw [if_neg (show ¬ delta * _ < _ from notLight), if_neg (show ¬ delta * _ < _ from notLight')]
    rfl

theorem takeMin_eq (len : ℕ) (key : κ) (left right : Tree κ) :
    takeMin (.node len left key right) = Collections.takeMin key left right := by
  induction left generalizing len key right with
  | nil => rfl
  | node leftLen leftLeft leftKey leftRight ihLeft _ => simp only [takeMin, Collections.takeMin, ihLeft, balanceRight_eq]

theorem takeMax_eq (len : ℕ) (key : κ) (left right : Tree κ) :
    takeMax (.node len left key right) = Collections.takeMax key left right := by
  induction right generalizing len key left with
  | nil => cases left <;> rfl
  | node rightLen rightLeft rightKey rightRight _ ihRight => simp only [takeMax, Collections.takeMax, ihRight, balanceLeft_eq]

theorem glue_eq (left right : Tree κ) : glue left right = Collections.glue left right := by
  cases left <;> cases right <;> unfold glue Collections.glue <;>
    simp only [takeMin_eq, takeMax_eq, balanceLeft_eq, balanceRight_eq]

theorem merge_eq (left right : Tree κ) : merge left right = mergeNodes left right := by
  fun_induction mergeNodes left right with
  | case1 right => rw [merge]
  | case2 left isNode =>
    cases left with
    | nil => exact absurd rfl isNode
    | node => rw [merge]; exact isNode
  | case3 _ _ _ _ _ _ _ _ light ih =>
    unfold merge
    rw [if_pos (show delta * _ < _ from light), ih]
    simp only [balanceLeft_eq]
  | case4 _ _ _ _ _ _ _ _ notLight light ih =>
    unfold merge
    rw [if_neg (show ¬ delta * _ < _ from notLight), if_pos (show delta * _ < _ from light), ih]
    simp only [balanceRight_eq]
  | case5 _ _ _ _ _ _ _ _ notLight notLight' =>
    unfold merge
    rw [if_neg (show ¬ delta * _ < _ from notLight), if_neg (show ¬ delta * _ < _ from notLight'), glue_eq]

end Trees

section Questions

variable (answers : Answers κ σ ε) (memory memory' : σ → Bool) (key : κ)

theorem compare_eq (left right : κ) : compare answers left right = compareKeysWithOrdAdapters answers left right := by
  rfl

theorem notOrdered_eq (current next : κ) : notOrdered (answers.withMemory memory) current next =
    entriesNotOrdered (answers.withMemory memory') current (some next) := by
  unfold notOrdered entriesNotOrdered Answers.withMemory
  simp

theorem split_eq (tree : Tree κ) : split answers key tree = splitLookup (compareKeysWithOrdAdapters answers key) tree := by
  induction tree with
  | nil => rfl
  | node len left treeKey right ihLeft ihRight =>
    simp only [split, splitLookup, compare_eq, ihLeft, ihRight, link_eq] <;>
      exact congrArg _ (funext fun order => by cases order <;> rfl)

theorem delete_eq (tree : Tree κ) : delete answers key tree = setDelete answers key tree := by
  unfold setDelete
  induction tree with
  | nil => rfl
  | node len left treeKey right ihLeft ihRight =>
    simp only [delete, remove, compare_eq, ihLeft, ihRight, balanceLeft_eq, balanceRight_eq, glue_eq] <;>
      exact congrArg _ (funext fun order => by cases order <;> rfl)

theorem member_eq (tree : Tree κ) : member answers key tree = setMember answers key tree := by
  unfold setMember
  induction tree with
  | nil => rfl
  | node len left treeKey right ihLeft ihRight =>
    simp only [member, find, compare_eq, ihLeft, ihRight, bind_assoc] <;>
      exact congrArg _ (funext fun order => by cases order <;> rfl)

theorem insertPreserving_eq (tree : Tree κ) : insertPreserving answers key tree =
    insertKeeping (compareKeysWithOrdAdapters answers key) (fun _ => return none) key tree := by
  induction tree with
  | nil => rfl
  | node len left treeKey right ihLeft ihRight =>
    simp only [insertPreserving, insertKeeping, compare_eq, ihLeft, ihRight, balanceLeft_eq, balanceRight_eq, pure_bind] <;>
      exact congrArg _ (funext fun order => by cases order <;> rfl)

theorem insertReplacing_eq [DecidableEq κ] {tree : Tree κ} (balanced : WeightBalanced tree) :
    insertReplacing (answers.withMemory memory) key tree = setInsertReplacing (answers.withMemory memory') key tree := by
  rw [setInsertReplacing_eq_plain answers memory' key balanced]
  induction tree with
  | nil => rfl
  | node len left treeKey right ihLeft ihRight =>
    obtain ⟨isLen, hl, hr, -⟩ := WeightBalanced.node_iff.mp balanced
    unfold insertReplacing insertNode
    refine congrArg _ (funext fun order => ?_)
    cases order with
    | lt => simp [ihLeft hl, balanceLeft_eq]
    | eq =>
      simp only [pure_bind]
      refine (ptrEq_reads answers memory key treeKey).bind_eq fun same isSame => ?_
      cases same with
      | true =>
        obtain rfl := isSame rfl
        simp [isLen, TreeNode.new_eq]
      | false => rfl
    | gt => simp [ihRight hr, balanceRight_eq]

theorem union_eq [DecidableEq κ] (left right : Tree κ) (balanced : WeightBalanced right) :
    union (answers.withMemory memory) left right = setUnionKeeping (answers.withMemory memory') left right := by
  induction left generalizing right with
  | nil => cases right <;> (unfold union setUnionKeeping; rfl)
  | node leftLen leftLeft leftKey leftRight ihLeft ihRight =>
    cases right with
    | nil =>
      unfold union setUnionKeeping
      rfl
    | node rightLen rightLeft rightKey rightRight =>
      unfold union setUnionKeeping
      rw [insertPreserving_eq, insertReplacing_eq answers memory memory' leftKey balanced, split_eq]
      refine if_congr Iff.rfl rfl (if_congr Iff.rfl rfl ?_)
      refine (splitLookup_balanced answers leftKey balanced).bind_congr ?_
      rintro ⟨rightLower, _, rightUpper⟩ ⟨hLower, hUpper⟩
      simp only [ihLeft rightLower hLower, ihRight rightUpper hUpper, link_eq]

theorem difference_eq (left right : Tree κ) :
    difference (answers.withMemory memory) left right = setDifferenceTree (answers.withMemory memory') left right := by
  induction right generalizing left with
  | nil => rfl
  | node rightLen rightLeft rightKey rightRight ihLeft ihRight =>
    cases left with
    | nil => rfl
    | node leftLen leftLeft leftKey leftRight =>
      simp only [difference, setDifferenceTree, split_eq, ihLeft, ihRight, merge_eq] <;> rfl

theorem intersection_eq (left right : Tree κ) :
    intersection (answers.withMemory memory) left right = setIntersectionKeeping (answers.withMemory memory') left right := by
  induction left generalizing right with
  | nil => rfl
  | node leftLen leftLeft leftKey leftRight ihLeft ihRight =>
    cases right with
    | nil => rfl
    | node rightLen rightLeft rightKey rightRight =>
      simp only [intersection, setIntersectionKeeping, split_eq, ihLeft, ihRight, link_eq, merge_eq] <;> rfl

end Questions

section Lists

variable {T : Type} (answers : Answers κ σ ε) (memory memory' : σ → Bool) (key : T → κ) {input : List T}

/-- The keys of what was created of the items from an index on, with the index of the rest. -/
def Created.ofResult (key : T → κ) (input : List T) {items : List T} (result : CreateResult items) : Created κ :=
  ⟨result.root.map key, input.length - result.rest.length, result.unordered⟩

theorem drop_of_suffix {rest : List T} (suffix : rest <:+ input) : input.drop (input.length - rest.length) = rest := by
  obtain ⟨before, rfl⟩ := suffix
  simp

theorem getElem?_of_drop {index : ℕ} {items : List T} (isRest : input.drop index = items) (offset : ℕ) :
    (input.map key)[index + offset]? = (items.map key)[offset]? := by
  rw [← isRest, List.getElem?_map, List.getElem?_map, List.getElem?_drop]

theorem length_of_drop {index : ℕ} {items : List T} (isRest : input.drop index = items) (within : index ≤ input.length) :
    input.length = index + items.length := by
  rw [← isRest, List.length_drop]
  omega

theorem create_nil {index size : ℕ} (isRest : input.drop index = []) (within : index ≤ input.length) :
    create (answers.withMemory memory) (input.map key) index size = pure ⟨.nil, input.length, false⟩ := by
  have isEnd : input.length = index := length_of_drop isRest within
  unfold create
  rw [← isEnd, List.getElem?_eq_none (by simp)]

/-- `create` with half of the size does what the two halves of the runtime do. -/
theorem createWide_eq {create : ℕ → Fallible σ ε (Created κ)} {level index : ℕ} {item : T} {items : List T}
    (isRest : input.drop index = item :: items)
    (ih : ∀ index ≤ input.length, create index =
      Created.ofResult key input <$> createEntries (answers.withMemory memory') key level (input.drop index))
    (within : index ≤ input.length) :
    createWide (answers.withMemory memory) (input.map key) create index =
      Created.ofResult key input <$> createEntries (answers.withMemory memory') key (level + 1) (item :: items) := by
  unfold createWide createEntries
  rw [ih index within, isRest, bind_map_left, map_bind]
  refine congrArg _ (funext fun left => ?_)
  obtain ⟨root, rest, suffix, unordered⟩ := left
  have isRest' : input.drop (input.length - rest.length) = rest :=
    drop_of_suffix (suffix.trans (isRest ▸ List.drop_suffix index input))
  have first := getElem?_of_drop key isRest' 0
  have second := getElem?_of_drop key isRest' 1
  rw [Nat.add_zero] at first
  cases unordered with
  | true => rfl
  | false =>
    simp only [Created.ofResult, Bool.false_eq_true, if_false, first, second]
    match rest with
    | [] => simp [Created.ofResult]
    | [pivot] => simp [insertMax_eq, insertMax_map, Created.ofResult, ← map_expect]
    | pivot :: next :: rest =>
      have within' : input.length - (pivot :: next :: rest).length + 1 ≤ input.length := by
        have length := length_of_drop isRest' (Nat.sub_le ..)
        simp only [List.length_cons] at length ⊢
        omega
      have isRight : input.drop (input.length - (pivot :: next :: rest).length + 1) = next :: rest := by
        rw [← List.drop_drop, isRest', List.drop_one, List.tail_cons]
      simp only [List.map_cons, List.getElem?_cons_zero, List.getElem?_cons_succ, notOrdered_eq answers memory memory', map_bind]
      refine congrArg _ (funext fun unordered => ?_)
      cases unordered with
      | true => rfl
      | false =>
        rw [ih _ within', isRight]
        simp [link_eq, link_map, Created.ofResult, ← map_expect]

theorem create_eq (level : ℕ) (index : ℕ) (within : index ≤ input.length) :
    create (answers.withMemory memory) (input.map key) index (2 ^ level) =
      Created.ofResult key input <$> createEntries (answers.withMemory memory') key level (input.drop index) := by
  induction level generalizing index with
  | zero =>
    cases isRest : input.drop index with
    | nil =>
      rw [create_nil answers memory key isRest within]
      unfold createEntries
      simp [Created.ofResult, Ordnode.map]
    | cons item rest =>
      have first := getElem?_of_drop key isRest 0
      have second := getElem?_of_drop key isRest 1
      have length := length_of_drop isRest within
      have isNext : input.length - rest.length = index + 1 := by
        rw [List.length_cons] at length
        omega
      rw [Nat.add_zero] at first
      unfold create createEntries
      rw [first, second]
      cases rest with
      | nil => simp [entriesNotOrdered, Created.ofResult, node, TreeNode.new, Ordnode.map, ← isNext]
      | cons next rest =>
        simp [notOrdered_eq answers memory memory', Created.ofResult, node, TreeNode.new, Ordnode.map, ← isNext]
  | succ level ih =>
    cases isRest : input.drop index with
    | nil =>
      rw [create_nil answers memory key isRest within]
      unfold createEntries
      simp [Created.ofResult, Ordnode.map]
    | cons item rest =>
      have first := getElem?_of_drop key isRest 0
      rw [Nat.add_zero] at first
      unfold create
      have half : 2 ^ (level + 1) / 2 = 2 ^ level := by
        rw [pow_succ]
        omega
      have wide : 2 ^ (level + 1) ≠ 1 ∧ 2 ^ (level + 1) ≠ 0 := by
        have := Nat.one_le_two_pow (n := level)
        rw [pow_succ]
        omega
      simp only [first, List.map_cons, List.getElem?_cons_zero, wide.1, wide.2, if_false, dif_neg, half, not_false_eq_true]
      exact createWide_eq answers memory memory' key isRest ih within

variable [DecidableEq κ]

/-- Inserting items is inserting their keys. -/
def InsertsKeys (answers : Answers κ σ ε) (key : T → κ) (insertEntries : Tree T → List T → Fallible σ ε (Tree T)) : Prop :=
  ∀ (memory : σ → Bool) (tree : Tree T) (items : List T), WeightBalanced tree →
    items.foldlM (fun tree item => insertReplacing (answers.withMemory memory) (key item) tree) (tree.map key) =
      Ordnode.map key <$> insertEntries tree items

theorem insertRemaining_eq {insertEntries : Tree T → List T → Fallible σ ε (Tree T)}
    (inserts : InsertsKeys answers key insertEntries) {tree : Tree T} (balanced : WeightBalanced tree) (index : ℕ) :
    insertRemaining (answers.withMemory memory) (tree.map key) (input.map key) index =
      Ordnode.map key <$> insertEntries tree (input.drop index) := by
  rw [insertRemaining, ← List.map_drop, List.foldlM_map]
  exact inserts memory tree (input.drop index) balanced

theorem orderedPrefix_eq {insertEntries : Tree T → List T → Fallible σ ε (Tree T)}
    (inserts : InsertsKeys answers key insertEntries) (turns level index : ℕ) {left : Tree T}
    (balanced : WeightBalanced left) (within : index ≤ input.length) (enough : input.length < index + turns) :
    orderedPrefix (answers.withMemory memory) (input.map key) turns (left.map key) index (2 ^ level) =
      Ordnode.map key <$> fromOrderedEntries (answers.withMemory memory') key insertEntries level left
        (input.drop index) := by
  induction turns generalizing level index left with
  | zero => omega
  | succ turns ih =>
    cases isRest : input.drop index with
    | nil =>
      have isEnd : input.length = index := length_of_drop isRest within
      unfold orderedPrefix fromOrderedEntries
      rw [List.getElem?_eq_none (by simp [isEnd])]
      simp
    | cons pivot rest =>
      have first := getElem?_of_drop key isRest 0
      have second := getElem?_of_drop key isRest 1
      rw [Nat.add_zero] at first
      unfold orderedPrefix fromOrderedEntries
      rw [first, second]
      cases rest with
      | nil =>
        simp only [List.map_cons, List.map_nil, List.getElem?_cons_zero, List.getElem?_cons_succ, List.getElem?_nil,
          insertMax_eq, insertMax_map, map_expect]
      | cons next rest =>
        simp only [List.map_cons, List.getElem?_cons_zero, List.getElem?_cons_succ,
          notOrdered_eq answers memory memory', map_bind]
        refine congrArg _ (funext fun unordered => ?_)
        cases unordered with
        | true =>
          simp only [if_true]
          rw [← isRest]
          exact insertRemaining_eq answers memory key inserts balanced index
        | false =>
          have isRest' : input.drop (index + 1) = next :: rest := by
            rw [← List.drop_drop, isRest, List.drop_one, List.tail_cons]
          have length := length_of_drop isRest within
          simp only [List.length_cons] at length
          have created : create (answers.withMemory memory) (input.map key) (index + 1) (2 ^ level) = _ :=
            create_eq answers memory memory' key level (index + 1) (by omega)
          simp only [Bool.false_eq_true, if_false]
          rw [created, isRest', bind_map_left, map_bind]
          refine (createEntries_balanced _ key level (next :: rest)).bind_congr fun created balancedRoot => ?_
          obtain ⟨root, later, suffix, unordered⟩ := created
          obtain ⟨linked, built, balancedLinked, -⟩ := link_builds pivot left root balanced balancedRoot
          have isNext : input.drop (input.length - later.length) = later :=
            drop_of_suffix (suffix.trans (isRest' ▸ List.drop_suffix (index + 1) input))
          have shorter := suffix.length_le
          rw [List.length_cons] at shorter
          cases unordered with
          | true =>
            simp only [Created.ofResult, link_eq, link_map, built, Option.map_some, expect, pure_bind, if_true]
            rw [insertRemaining_eq answers memory key inserts balancedLinked, isNext]
          | false =>
            simp only [Created.ofResult, link_eq, link_map, built, Option.map_some, expect, pure_bind, Bool.false_eq_true,
              if_false]
            rw [← pow_succ, ih (level + 1) _ balancedLinked (by omega) (by omega), isNext]

theorem insertsKeys_set : InsertsKeys answers id (setTreeInsertRemaining (answers.withMemory memory')) := by
  intro memory tree items balanced
  unfold setTreeInsertRemaining
  induction items generalizing tree with
  | nil => simp
  | cons item items ih =>
    simp only [List.foldlM_cons, map_id_eq, id_eq, map_bind, insertReplacing_eq answers memory memory' item balanced]
    refine (setInsertReplacing_grows _ item balanced).bind_congr fun tree ⟨balanced, _⟩ => ?_
    simpa only [map_id_eq, id_eq] using ih tree balanced

theorem insertsKeys_map : InsertsKeys answers Prod.fst
    (mapInsertEntries (answers.withMemory memory') : Tree (κ × α) → List (κ × α) → Fallible σ ε (Tree (κ × α))) := by
  intro memory tree entries balanced
  unfold mapInsertEntries
  induction entries generalizing tree with
  | nil => simp
  | cons entry entries ih =>
    simp only [List.foldlM_cons, map_bind]
    have inserted : insertReplacing (answers.withMemory memory) entry.1 (tree.map Prod.fst) =
        Ordnode.map Prod.fst <$> insert (fun left right => compareEntry (answers.withMemory memory') left.1 right) entry tree := by
      rw [insertReplacing_eq answers memory memory' entry.1 (balanced_map balanced _), setInsertReplacing_eq_plain answers memory' _ (balanced_map balanced _)]
      exact (insertNode_map (compareKeysWithOrdAdapters answers entry.1) Prod.fst entry tree).symm
    rw [inserted, bind_map_left]
    refine (mapInsert_balanced _ entry balanced).bind_congr fun tree balanced => ih tree balanced

/-- A list of two keys at least. -/
theorem fromList_cons {insertEntries : Tree T → List T → Fallible σ ε (Tree T)}
    (inserts : InsertsKeys answers key insertEntries) (first next : T) (rest : List T) :
    fromList (answers.withMemory memory) ((first :: next :: rest).map key) = Ordnode.map key <$> (do
      if ← entriesNotOrdered (answers.withMemory memory') (key first) (some (key next)) then
        insertEntries (TreeNode.new first .nil .nil) (next :: rest)
      else fromOrderedEntries (answers.withMemory memory') key insertEntries 0 (TreeNode.new first .nil .nil) (next :: rest)) := by
  have isNew : node (key first) .nil .nil = (TreeNode.new first .nil .nil).map key := (map_new key first .nil .nil).symm
  have within : 1 ≤ (first :: next :: rest).length := by simp
  unfold fromList
  simp only [List.map_cons, List.getElem?_cons_zero, List.getElem?_cons_succ, notOrdered_eq answers memory memory', map_bind]
  refine congrArg _ (funext fun unordered => ?_)
  cases unordered with
  | true =>
    simp only [if_true, isNew, ← List.map_cons]
    exact insertRemaining_eq answers memory key inserts (singleton_balanced first) 1
  | false =>
    simp only [Bool.false_eq_true, if_false, isNew, ← List.map_cons]
    exact orderedPrefix_eq answers memory memory' key inserts _ 0 1 (singleton_balanced first) within (by simp)

theorem fromList_eq (input : List κ) :
    fromList (answers.withMemory memory) input = setTreeFromList (answers.withMemory memory') input := by
  match input with
  | [] => rfl
  | [first] => rfl
  | first :: next :: rest =>
    have same := fromList_cons answers memory memory' id (insertsKeys_set answers memory') first next rest
    simpa [setTreeFromList, show (Ordnode.map id : Tree κ → Tree κ) = id from funext map_id_eq] using same

theorem fromList_keys (entries : List (κ × α)) :
    fromList (answers.withMemory memory) (entries.map Prod.fst) =
      Ordnode.map Prod.fst <$> mapFromEntries (answers.withMemory memory') entries := by
  match entries with
  | [] => rfl
  | [first] =>
    unfold mapFromEntries fromOrderedEntries
    simp [fromList, entriesNotOrdered, node, TreeNode.new, Ordnode.map]
  | first :: next :: rest =>
    exact fromList_cons answers memory memory' Prod.fst (insertsKeys_map answers memory') first next rest

end Lists

end Reviewed

section Protocol

/-- The operations that are reviewed, on sets that were made of lists. -/
inductive Operation (κ : Type) where
  | fromList (values : List κ)
  | insert (key : κ) (values : List κ)
  | member (key : κ) (values : List κ)
  | delete (key : κ) (values : List κ)
  | union (left right : List κ)
  | difference (left right : List κ)
  | intersection (left right : List κ)
  | selfUnion (values : List κ)
  | selfIntersection (values : List κ)

inductive ReviewedResult (κ : Type) where
  | set (tree : Tree κ)
  | bool (value : Bool)

variable [DecidableEq κ]

/-- `execute_reviewed`, where the questions for the lists are asked, too. -/
def Reviewed.execute (answers : Answers κ σ ε) : Operation κ → Fallible σ ε (ReviewedResult κ)
  | .fromList values => do return .set (← fromList answers values)
  | .insert key values => do
    let tree ← fromList answers values
    return .set (← insertReplacing answers key tree)
  | .member key values => do
    let tree ← fromList answers values
    return .bool (← member answers key tree)
  | .delete key values => do
    let tree ← fromList answers values
    return .set (← delete answers key tree)
  | .union left right => do
    let left ← fromList answers left
    let right ← fromList answers right
    return .set (← union answers left right).tree
  | .difference left right => do
    let left ← fromList answers left
    let right ← fromList answers right
    return .set (← difference answers left right)
  | .intersection left right => do
    let left ← fromList answers left
    let right ← fromList answers right
    return .set (← intersection answers left right).tree
  | .selfUnion values => do
    let tree ← fromList answers values
    return .set (← union answers tree tree).tree
  | .selfIntersection values => do
    let tree ← fromList answers values
    return .set (← intersection answers tree tree).tree

/-- What the builtins of the runtime do. -/
def Operation.run (answers : Answers κ σ ε) : Operation κ → Fallible σ ε (ReviewedResult κ)
  | .fromList values => do return .set (← setTreeFromList answers values)
  | .insert key values => do
    let set ← setTreeFromList answers values
    return .set (← setInsertReplacing answers key set)
  | .member key values => do
    let set ← setTreeFromList answers values
    return .bool (← setMember answers key set)
  | .delete key values => do
    let set ← setTreeFromList answers values
    return .set (← setDelete answers key set)
  | .union left right => do
    let left ← setTreeFromList answers left
    let right ← setTreeFromList answers right
    return .set (← setUnionKeeping answers left right).tree
  | .difference left right => do
    let left ← setTreeFromList answers left
    let right ← setTreeFromList answers right
    return .set (← setDifferenceTree answers left right)
  | .intersection left right => do
    let left ← setTreeFromList answers left
    let right ← setTreeFromList answers right
    return .set (← setIntersectionKeeping answers left right).tree
  | .selfUnion values => do
    let set ← setTreeFromList answers values
    return .set (← setUnionKeeping answers set set).tree
  | .selfIntersection values => do
    let set ← setTreeFromList answers values
    return .set (← setIntersectionKeeping answers set set).tree

theorem Operation.run_eq (answers : Answers κ σ ε) (memory memory' : σ → Bool) (operation : Operation κ) :
    operation.run (answers.withMemory memory) = Reviewed.execute (answers.withMemory memory') operation := by
  have built (values : List κ) := setTreeFromList_balanced (answers.withMemory memory) values
  have fromList (values : List κ) := Reviewed.fromList_eq answers memory' memory values
  cases operation with
  | fromList values => simp only [run, Reviewed.execute, fromList]
  | insert key values =>
    simp only [run, Reviewed.execute, fromList]
    refine (built values).bind_congr fun set balanced => ?_
    rw [Reviewed.insertReplacing_eq answers memory' memory key balanced]
  | member key values =>
    simp only [run, Reviewed.execute, fromList, Reviewed.member_eq]
    rfl
  | delete key values =>
    simp only [run, Reviewed.execute, fromList, Reviewed.delete_eq]
    rfl
  | union left right =>
    simp only [run, Reviewed.execute, fromList]
    refine (built left).bind_congr fun left _ => (built right).bind_congr fun right balanced => ?_
    rw [Reviewed.union_eq answers memory' memory left right balanced]
  | difference left right =>
    simp only [run, Reviewed.execute, fromList, Reviewed.difference_eq answers memory' memory]
  | intersection left right =>
    simp only [run, Reviewed.execute, fromList, Reviewed.intersection_eq answers memory' memory]
  | selfUnion values =>
    simp only [run, Reviewed.execute, fromList]
    refine (built values).bind_congr fun set balanced => ?_
    rw [Reviewed.union_eq answers memory' memory set set balanced]
  | selfIntersection values =>
    simp only [run, Reviewed.execute, fromList, Reviewed.intersection_eq answers memory' memory]

/-- Whatever the comparisons answer, and wherever the nodes are in memory, the runtime asks the questions that the reviewed
model asks, in the same order, and makes the same tree of the same keys; a map is made as the set of its keys is. -/
theorem comparator_protocol (answers : Answers κ σ ε) (memory memory' : σ → Bool) :
    (∀ operation : Operation κ,
      operation.run (answers.withMemory memory) = Reviewed.execute (answers.withMemory memory') operation) ∧
    ∀ entries : List (κ × α), Ordnode.map Prod.fst <$> mapFromEntries (answers.withMemory memory) entries =
      Reviewed.fromList (answers.withMemory memory') (entries.map Prod.fst) :=
  ⟨Operation.run_eq answers memory memory', fun entries => (Reviewed.fromList_keys answers memory' memory entries).symm⟩

end Protocol

end HellRs.Collections
