import HellRs.Collections.Build

/-! # Operations on maps

The function of an operation makes a thunk out of the values it gets, and is not run by the operation.
-/

namespace HellRs.Collections

open Ordnode Fallible Std

variable {κ α σ ε : Type}

def compareEntry (answers : Answers κ σ ε) (key : κ) (entry : κ × α) : Fallible σ ε Ordering :=
  compareKeysWithOrdAdapters answers key entry.1

def mapInsert (answers : Answers κ σ ε) (key : κ) (item : α) : Tree (κ × α) → Fallible σ ε (Tree (κ × α)) :=
  insert (fun left right => compareEntry answers left.1 right) (key, item)

def mapInsertEntries (answers : Answers κ σ ε) (tree : Tree (κ × α)) (items : List (κ × α)) :
    Fallible σ ε (Tree (κ × α)) :=
  items.foldlM (fun tree item => insert (fun left right => compareEntry answers left.1 right) item tree) tree

def mapFromEntries (answers : Answers κ σ ε) : List (κ × α) → Fallible σ ε (Tree (κ × α))
  | [] => return .nil
  | first :: rest => do
    if ← entriesNotOrdered answers first.1 (rest.head?.map Prod.fst) then
      mapInsertEntries answers (TreeNode.new first .nil .nil) rest
    else fromOrderedEntries answers Prod.fst (mapInsertEntries answers) 0 (TreeNode.new first .nil .nil) rest

def mapLookup (answers : Answers κ σ ε) (key : κ) (map : Tree (κ × α)) : Fallible σ ε (Option α) := do
  let found ← find (compareEntry answers key) map
  return found.map Prod.snd

def mapDelete (answers : Answers κ σ ε) (key : κ) : Tree (κ × α) → Fallible σ ε (Tree (κ × α)) :=
  remove (compareEntry answers key)

def mapInsertWith (answers : Answers κ σ ε) (function : α → α → α) (key : κ) (item : α) :
    Tree (κ × α) → Fallible σ ε (Tree (κ × α)) :=
  insertNode (compareEntry answers key) (fun _ _ => return false)
    (fun entry => return some (key, function item entry.2)) (key, item)

def mapAdjust (answers : Answers κ σ ε) (function : α → α) (key : κ) :
    Tree (κ × α) → Fallible σ ε (Tree (κ × α))
  | .nil => return .nil
  | .node _ left item right => do
    match ← compareEntry answers key item with
    | .lt =>
      let left ← mapAdjust answers function key left
      return TreeNode.new item left right
    | .eq => return TreeNode.new (item.1, function item.2) left right
    | .gt =>
      let right ← mapAdjust answers function key right
      return TreeNode.new item left right

def mapInsertUnionEntry (answers : Answers κ σ ε) (function : α → α → α) (item : κ × α) (itemIsLeft : Bool) :
    Tree (κ × α) → Fallible σ ε (Tree (κ × α)) :=
  insertNode (compareEntry answers item.1) (fun _ _ => return false)
    (fun entry =>
      return some (if itemIsLeft then (item.1, function item.2 entry.2) else (entry.1, function entry.2 item.2)))
    item

/-- The left entry, or the entry of two equal keys. -/
def unionItem (function : α → α → α) (leftItem : κ × α) : Option (κ × α) → κ × α
  | none => leftItem
  | some rightItem => (leftItem.1, function leftItem.2 rightItem.2)

def mapUnionEntries (answers : Answers κ σ ε) (function : α → α → α) (left right : Tree (κ × α)) :
    Fallible σ ε (Tree (κ × α)) :=
  match right with
  | .nil => return left
  | .node rightLen rightLeft rightItem rightRight =>
    if rightLen = 1 then mapInsertUnionEntry answers function rightItem false left
    else match left with
      | .nil => return .node rightLen rightLeft rightItem rightRight
      | .node leftLen leftLeft leftItem leftRight =>
        if leftLen = 1 then
          mapInsertUnionEntry answers function leftItem true (.node rightLen rightLeft rightItem rightRight)
        else do
          let (rightLower, matching, rightUpper) ←
            splitLookup (compareEntry answers leftItem.1) (.node rightLen rightLeft rightItem rightRight)
          let mergedLeft ← mapUnionEntries answers function leftLeft rightLower
          let mergedRight ← mapUnionEntries answers function leftRight rightUpper
          expect (link (unionItem function leftItem matching) mergedLeft mergedRight)

/-- The entries the predicate keeps. -/
def filterEntries (predicate : κ → α → StateT σ (Except ε) Bool) : List (κ × α) → Fallible σ ε (List (κ × α))
  | [] => return []
  | entry :: entries => do
    let keep ← ask (predicate entry.1 entry.2)
    let filtered ← filterEntries predicate entries
    return if keep then entry :: filtered else filtered

def mapFilter (predicate : κ → α → StateT σ (Except ε) Bool) (map : Tree (κ × α)) : Fallible σ ε (Tree (κ × α)) := do
  let filtered ← filterEntries predicate map.toList
  return fromSorted filtered

def mapValues (function : α → α) (map : Tree (κ × α)) : Tree (κ × α) :=
  fromSorted (map.toList.map fun entry => (entry.1, function entry.2))

section Specifications

variable {cmp : κ → κ → Ordering} [TransCmp cmp] {lawful : Prop} {answers : Answers κ σ ε} {among : κ → Prop}
  (isLawful : lawful → answers.Lawful cmp)
include isLawful

omit [TransCmp cmp] in
theorem compareEntry_compares (key : κ) :
    Compares cmp Prod.fst key lawful fun entry : κ × α => compareEntry answers key entry :=
  compareKeysWithOrdAdapters_compares isLawful key Prod.fst

theorem mapInsert_arranged (key : κ) (item : α) {map : Tree (κ × α)}
    (arranged : Arranged cmp Prod.fst lawful among map) (isAmong : lawful → among key) :
    Ensures (mapInsert answers key item map) (Arranged cmp Prod.fst lawful among) :=
  insertNode_arranged (compareEntry_compares isLawful key) (fun _ _ => .pure (by simp)) (fun _ => .pure (.inl rfl))
    arranged isAmong

theorem mapInsertEntries_inserts :
    InsertsEntries cmp Prod.fst lawful (mapInsertEntries answers : Tree (κ × α) → List (κ × α) → _) :=
  fun _ _ inOrder => .foldlM (fun _ item inOrder => mapInsert_arranged isLawful item.1 item.2 inOrder fun _ => trivial) inOrder

theorem mapFromEntries_inOrder (entries : List (κ × α)) :
    Ensures (mapFromEntries answers entries) (InOrder cmp Prod.fst lawful) := by
  match entries with
  | [] => exact .pure .nil
  | [first] =>
    exact fromOrderedEntries_ensures isLawful (mapInsertEntries_inserts isLawful) 0 _ _ (singleton_balanced first)
      fun _ => List.pairwise_singleton ..
  | first :: next :: rest =>
    refine .bind (entriesNotOrdered_ensures isLawful first.1 next.1) fun unordered isOrdered => ?_
    cases unordered with
    | true => exact mapInsertEntries_inserts isLawful _ _ (.singleton fun _ => trivial)
    | false =>
      exact fromOrderedEntries_ensures isLawful (mapInsertEntries_inserts isLawful) 0 _ _ (singleton_balanced first)
        fun law => .cons (isOrdered law rfl) (List.pairwise_singleton ..)

theorem mapDelete_arranged (key : κ) {map : Tree (κ × α)} (arranged : Arranged cmp Prod.fst lawful among map) :
    Ensures (mapDelete answers key map) (Arranged cmp Prod.fst lawful among) :=
  remove_arranged (compareEntry_compares isLawful key) arranged

theorem mapInsertWith_arranged (function : α → α → α) (key : κ) (item : α) {map : Tree (κ × α)}
    (arranged : Arranged cmp Prod.fst lawful among map) (isAmong : lawful → among key) :
    Ensures (mapInsertWith answers function key item map) (Arranged cmp Prod.fst lawful among) :=
  insertNode_arranged (compareEntry_compares isLawful key) (fun _ _ => .pure (by simp)) (fun _ => .pure (.inl rfl))
    arranged isAmong

theorem mapInsertUnionEntry_arranged (function : α → α → α) (item : κ × α) (itemIsLeft : Bool) {map : Tree (κ × α)}
    (arranged : Arranged cmp Prod.fst lawful among map) (isAmong : lawful → among item.1) :
    Ensures (mapInsertUnionEntry answers function item itemIsLeft map) (Arranged cmp Prod.fst lawful among) := by
  refine insertNode_arranged (compareEntry_compares isLawful item.1) (fun _ _ => .pure (by simp)) (fun _ => .pure ?_)
    arranged isAmong
  cases itemIsLeft with
  | true => exact .inl rfl
  | false => exact .inr rfl

omit [TransCmp cmp] isLawful in
/-- The keys of the tree and its shape stay. -/
theorem mapAdjust_ensures (function : α → α) (key : κ) (map : Tree (κ × α)) (balanced : WeightBalanced map) :
    Ensures (mapAdjust answers function key map) fun map' =>
      WeightBalanced map' ∧ map'.toList.map Prod.fst = map.toList.map Prod.fst := by
  have same_size {map map' : Tree (κ × α)} (balanced : WeightBalanced map) (balanced' : WeightBalanced map')
      (keys : map'.toList.map Prod.fst = map.toList.map Prod.fst) : map'.size = map.size := by
    have := congrArg List.length keys
    rwa [List.length_map, List.length_map, balanced.length_toList, balanced'.length_toList] at this
  induction map with
  | nil => exact .pure ⟨.nil, rfl⟩
  | node len left item right ihLeft ihRight =>
    obtain ⟨rfl, hl, hr, even⟩ := WeightBalanced.node_iff.mp balanced
    refine .bind (compareKeysWithOrdAdapters_total answers key item.1) fun order _ => ?_
    cases order with
    | lt =>
      refine .bind (ihLeft hl) fun left' ⟨hl', keys⟩ => .pure ⟨TreeNode.balanced_new hl' hr ?_, ?_⟩
      · rwa [same_size hl hl' keys]
      · simp [TreeNode.toList_new, keys]
    | eq => exact .pure ⟨TreeNode.balanced_new hl hr even, by simp [TreeNode.toList_new]⟩
    | gt =>
      refine .bind (ihRight hr) fun right' ⟨hr', keys⟩ => .pure ⟨TreeNode.balanced_new hl hr' ?_, ?_⟩
      · rwa [same_size hr hr' keys]
      · simp [TreeNode.toList_new, keys]

theorem mapUnionEntries_arranged (function : α → α → α) (left right : Tree (κ × α)) {among : κ → Prop}
    (hl : Arranged cmp Prod.fst lawful among left) (hr : Arranged cmp Prod.fst lawful among right) :
    Ensures (mapUnionEntries answers function left right) (Arranged cmp Prod.fst lawful among) := by
  induction left generalizing right among with
  | nil =>
    cases right with
    | nil => exact .pure hl
    | node rightLen rightLeft rightItem rightRight =>
      unfold mapUnionEntries
      split_ifs
      · exact mapInsertUnionEntry_arranged isLawful function rightItem false hl hr.sides.2.1
      · exact .pure hr
  | node leftLen leftLeft leftItem leftRight ihLeft ihRight =>
    cases right with
    | nil => exact .pure hl
    | node rightLen rightLeft rightItem rightRight =>
      unfold mapUnionEntries
      obtain ⟨lower, isAmong, upper⟩ := hl.sides
      dsimp only
      split_ifs
      · exact mapInsertUnionEntry_arranged isLawful function rightItem false hl hr.sides.2.1
      · exact mapInsertUnionEntry_arranged isLawful function leftItem true hr isAmong
      · refine .bind (splitLookup_arranged (compareEntry_compares isLawful leftItem.1) hr)
          fun (rightLower, found, rightUpper) ⟨hLower, hUpper⟩ => ?_
        refine .bind (ihLeft rightLower lower hLower) fun mergedLeft hMergedLeft => ?_
        refine .bind (ihRight rightUpper upper hUpper) fun mergedRight hMergedRight => ?_
        have key : (unionItem function leftItem found).1 = leftItem.1 := by cases found <;> rfl
        rw [← key] at hMergedLeft hMergedRight isAmong
        obtain ⟨tree, built, arranged⟩ := Arranged.of_builds_node
          (link_builds _ _ _ hMergedLeft.balanced hMergedRight.balanced) hMergedLeft isAmong hMergedRight
        exact .expect built arranged

omit [TransCmp cmp] isLawful in
theorem filterEntries_sublist (predicate : κ → α → StateT σ (Except ε) Bool) (entries : List (κ × α)) :
    Ensures (filterEntries predicate entries) fun filtered => filtered.Sublist entries := by
  induction entries with
  | nil => exact .pure (List.Sublist.refl _)
  | cons entry entries ih =>
    refine .bind_ask fun keep => ?_
    refine .bind ih fun filtered sublist => .pure ?_
    cases keep with
    | true => exact sublist.cons_cons entry
    | false => exact sublist.cons entry

omit [TransCmp cmp] isLawful in
theorem mapFilter_arranged (predicate : κ → α → StateT σ (Except ε) Bool) {map : Tree (κ × α)}
    (arranged : Arranged cmp Prod.fst lawful among map) :
    Ensures (mapFilter predicate map) (Arranged cmp Prod.fst lawful among) :=
  .bind (filterEntries_sublist predicate map.toList) fun _ sublist => .pure <| .of_sorted
    (fun law => (arranged.increasing law).sublist sublist)
    fun law item member => arranged.among law item (sublist.subset member)

omit [TransCmp cmp] isLawful in
theorem mapValues_arranged (function : α → α) {map : Tree (κ × α)}
    (arranged : Arranged cmp Prod.fst lawful among map) :
    Arranged cmp Prod.fst lawful among (mapValues function map) := by
  refine .of_sorted (fun law => ?_) fun law item member => ?_
  · exact List.pairwise_map.mpr (arranged.increasing law)
  · obtain ⟨entry, isEntry, rfl⟩ := List.mem_map.mp member
    exact arranged.among law entry isEntry

end Specifications

end HellRs.Collections
