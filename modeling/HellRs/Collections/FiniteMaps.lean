import HellRs.Collections.Algebra

/-! # Maps are finite maps

The contents of a map are a finite map from keys, up to equal ones, to entries. Each operation does to them what its
name says; an entry also tells which of two equal keys is kept, and what the function of the operation was applied to.
-/

namespace HellRs.Collections

open Ordnode Fallible Std Contents

section Iteration

variable {T : Type}

/-- `TreeIter::push_left` on a stack of nodes. -/
def TreeIter.pushLeft (stack : List (Tree T)) : Tree T → List (Tree T)
  | .nil => stack
  | .node len left item right => TreeIter.pushLeft (.node len left item right :: stack) left

/-- `TreeIter::next`, with the stack after it. -/
def TreeIter.next_ : List (Tree T) → Option (T × List (Tree T))
  | .node _ _ item right :: stack => some (item, TreeIter.pushLeft stack right)
  | _ => none

/-- What is still to come from a stack of nodes: their items and right sides. -/
def TreeIter.remaining (stack : List (Tree T)) : List T :=
  stack.flatMap fun
    | .node _ _ item right => item :: right.toList
    | .nil => []

theorem TreeIter.remaining_pushLeft (stack : List (Tree T)) (tree : Tree T) :
    TreeIter.remaining (TreeIter.pushLeft stack tree) = tree.toList ++ TreeIter.remaining stack := by
  induction tree generalizing stack with
  | nil => rfl
  | node len left item right ihLeft _ =>
    rw [TreeIter.pushLeft, ihLeft, toList_node, List.append_assoc]
    rfl

theorem TreeIter.next_some {stack stack' : List (Tree T)} {item : T} (came : TreeIter.next_ stack = some (item, stack')) :
    ∃ len left right rest, stack = .node len left item right :: rest ∧ stack' = TreeIter.pushLeft rest right := by
  match stack with
  | .node len left item' right :: rest =>
    obtain ⟨rfl, rfl⟩ := Prod.mk.inj (Option.some.inj came)
    exact ⟨len, left, right, rest, rfl, rfl⟩
  | .nil :: _ => cases came
  | [] => cases came

theorem TreeIter.remaining_next {stack stack' : List (Tree T)} {item : T} (came : TreeIter.next_ stack = some (item, stack')) :
    TreeIter.remaining stack = item :: TreeIter.remaining stack' := by
  obtain ⟨len, left, right, rest, rfl, rfl⟩ := TreeIter.next_some came
  rw [TreeIter.remaining_pushLeft]
  rfl

/-- The items of an iterator that is run to its end. -/
def TreeIter.collect (stack : List (Tree T)) : List T :=
  match _came : TreeIter.next_ stack with
  | none => []
  | some (item, stack') => item :: TreeIter.collect stack'
termination_by (TreeIter.remaining stack).length
decreasing_by
  rw [TreeIter.remaining_next _came]
  exact Nat.lt_succ_self _

theorem TreeIter.remaining_of_none {stack : List (Tree T)} (nodes : ∀ tree ∈ stack, tree ≠ .nil)
    (ended : TreeIter.next_ stack = none) : TreeIter.remaining stack = [] := by
  match stack, nodes with
  | [], _ => rfl
  | .nil :: _, nodes => exact absurd rfl (nodes .nil (List.mem_cons_self ..))
  | .node .. :: _, _ => cases ended

theorem TreeIter.pushLeft_nodes {stack : List (Tree T)} (nodes : ∀ tree ∈ stack, tree ≠ .nil) (tree : Tree T) :
    ∀ other ∈ TreeIter.pushLeft stack tree, other ≠ .nil := by
  induction tree generalizing stack with
  | nil => exact nodes
  | node len left item right ihLeft _ =>
    refine ihLeft fun other member => ?_
    rcases List.mem_cons.mp member with rfl | member
    · exact nofun
    · exact nodes other member

theorem TreeIter.collect_eq {stack : List (Tree T)} (nodes : ∀ tree ∈ stack, tree ≠ .nil) :
    TreeIter.collect stack = TreeIter.remaining stack := by
  fun_induction TreeIter.collect stack with
  | case1 stack ended => exact (TreeIter.remaining_of_none nodes ended).symm
  | case2 stack item stack' came ih =>
    rw [TreeIter.remaining_next came]
    obtain ⟨len, left, right, rest, rfl, rfl⟩ := TreeIter.next_some came
    rw [ih (TreeIter.pushLeft_nodes (fun tree member => nodes tree (List.mem_cons_of_mem _ member)) right)]

/-- `PersistentTree::iter` collected. -/
def iter (tree : Tree T) : List T := TreeIter.collect (TreeIter.pushLeft [] tree)

theorem iter_eq (tree : Tree T) : iter tree = tree.toList := by
  rw [iter, TreeIter.collect_eq (TreeIter.pushLeft_nodes (by simp) tree), TreeIter.remaining_pushLeft]
  exact List.append_nil _

end Iteration

variable {κ α σ ε : Type} {cmp : κ → κ → Ordering} [TransCmp cmp] {answers : Answers κ σ ε} {among : κ → Prop}
  {held : Contents κ (κ × α)} {map left right : Tree (κ × α)}

def mapToList (map : Tree (κ × α)) : List (κ × α) := iter map

def mapSize (map : Tree (κ × α)) : ℕ := map.size

/-- The contents of a map by its keys. -/
abbrev entriesOf (cmp : κ → κ → Ordering) (map : Tree (κ × α)) : Contents κ (κ × α) := contents cmp Prod.fst map.toList

section Operations

variable (lawful : answers.Lawful cmp)
include lawful

theorem mapInsert_holds (key : κ) (item : α) (holds : Holds cmp Prod.fst held map) :
    Ensures (mapInsert answers key item map) (Holds cmp Prod.fst (held.put cmp key (key, item))) := by
  have same : (held key).elim (key, item) (fun _ => (key, item)) = (key, item) := by cases held key <;> rfl
  suffices Ensures (mapInsert answers key item map)
      (Holds cmp Prod.fst (held.put cmp key ((held key).elim (key, item) fun _ => (key, item)))) by rwa [same] at this
  exact insertNode_holds (compareEntry_compares (fun _ => lawful) key) (fun _ _ => .pure (by simp))
    (fun _ => .pure rfl) (fun _ => .inl rfl) holds

theorem mapInsertWith_holds (function : α → α → α) (key : κ) (item : α) (holds : Holds cmp Prod.fst held map) :
    Ensures (mapInsertWith answers function key item map)
      (Holds cmp Prod.fst (held.put cmp key ((held key).elim (key, item) fun old => (key, function item old.2)))) :=
  insertNode_holds (compareEntry_compares (fun _ => lawful) key) (fun _ _ => .pure (by simp))
    (fun _ => .pure rfl) (fun _ => .inl rfl) holds

theorem mapInsertUnionEntry_holds (function : α → α → α) (item : κ × α) (itemIsLeft : Bool)
    (holds : Holds cmp Prod.fst held map) :
    Ensures (mapInsertUnionEntry answers function item itemIsLeft map)
      (Holds cmp Prod.fst (held.put cmp item.1 ((held item.1).elim item fun old =>
        if itemIsLeft then (item.1, function item.2 old.2) else (old.1, function old.2 item.2)))) := by
  refine insertNode_holds (compareEntry_compares (fun _ => lawful) item.1) (fun _ _ => .pure (by simp))
    (fun _ => .pure rfl) (fun _ => ?_) holds
  cases itemIsLeft with
  | true => exact .inl rfl
  | false => exact .inr rfl

theorem mapAdjust_holds (function : α → α) (key : κ) (arranged : Arranged cmp Prod.fst True among map) :
    Ensures (mapAdjust answers function key map) fun map' =>
      map'.toList.map Prod.fst = map.toList.map Prod.fst ∧
      entriesOf cmp map' = (entriesOf cmp map).adjust cmp key fun entry => (entry.1, function entry.2) := by
  induction map generalizing among with
  | nil => exact .pure ⟨rfl, funext fun other => (ite_self _).symm⟩
  | node len left item right ihLeft ihRight =>
    obtain ⟨lower, -, upper⟩ := arranged.sides
    have increasing := arranged.increasing trivial
    have node {left' right' : Tree (κ × α)} {item' : κ × α} (keys : (left'.toList ++ item' :: right'.toList).map Prod.fst =
        (Ordnode.node len left item right).toList.map Prod.fst) : entriesOf cmp (TreeNode.new item' left' right') =
          parted cmp item'.1 (entriesOf cmp left') (some item') (entriesOf cmp right') := by
      rw [increasing_iff_keys, ← keys, ← increasing_iff_keys] at increasing
      rw [entriesOf, TreeNode.toList_new]
      exact contents_append_cons increasing
    rw [entriesOf, contents_node arranged]
    refine .bind (@compareEntry_compares κ α σ ε cmp True answers (fun _ => lawful) key item) fun order isOrder => ?_
    have isOrder := (isOrder trivial).symm
    cases order with
    | lt =>
      refine .bind (ihLeft lower) fun left' ⟨keys, holds⟩ => ?_
      have keys : (left'.toList ++ item :: right.toList).map Prod.fst =
          (Ordnode.node len left item right).toList.map Prod.fst := by
        rw [toList_node, List.map_append, List.map_append, keys]
      exact .pure ⟨by rw [TreeNode.toList_new, keys], by rw [node keys, holds, adjust_parted_lt _ _ isOrder]⟩
    | eq =>
      have keys : (left.toList ++ (item.1, function item.2) :: right.toList).map Prod.fst =
          (Ordnode.node len left item right).toList.map Prod.fst := by
        rw [toList_node, List.map_append, List.map_append]
        rfl
      exact .pure ⟨by rw [TreeNode.toList_new, keys], by rw [node keys, adjust_parted_eq _ _ isOrder]; rfl⟩
    | gt =>
      refine .bind (ihRight upper) fun right' ⟨keys, holds⟩ => ?_
      have keys : (left.toList ++ item :: right'.toList).map Prod.fst =
          (Ordnode.node len left item right).toList.map Prod.fst := by
        rw [toList_node, List.map_append, List.map_append, List.map_cons, keys]
        rfl
      exact .pure ⟨by rw [TreeNode.toList_new, keys], by rw [node keys, holds, adjust_parted_gt _ _ isOrder]⟩

/-- The entry of two equal keys. -/
def collide (function : α → α → α) (leftItem rightItem : κ × α) : κ × α := (leftItem.1, function leftItem.2 rightItem.2)

theorem mapUnionEntries_single (function : α → α → α) {left rightLeft rightRight : Tree (κ × α)} {rightItem : κ × α}
    (hl : Arranged cmp Prod.fst True among left) (hr : WeightBalanced (.node 1 rightLeft rightItem rightRight)) :
    Ensures (mapInsertUnionEntry answers function rightItem false left) fun map => entriesOf cmp map =
      (entriesOf cmp left).unionWith (collide function) (entriesOf cmp (Ordnode.node 1 rightLeft rightItem rightRight)) := by
  rw [entriesOf, entriesOf, toList_of_single hr, unionWith_singleton]
  exact (mapInsertUnionEntry_holds lawful function rightItem false
    (holds_self (hl.mono fun _ _ => trivial))).mono fun map holds => holds.contents

theorem mapUnionEntries_holds (function : α → α → α) (left right : Tree (κ × α)) {among : κ → Prop}
    (hl : Arranged cmp Prod.fst True among left) (hr : Arranged cmp Prod.fst True among right) :
    Ensures (mapUnionEntries answers function left right) fun map =>
      entriesOf cmp map = (entriesOf cmp left).unionWith (collide function) (entriesOf cmp right) := by
  induction left generalizing right among with
  | nil =>
    cases right with
    | nil => exact .pure rfl
    | node rightLen rightLeft rightItem rightRight =>
      unfold mapUnionEntries
      split_ifs with single
      · subst single
        exact mapUnionEntries_single lawful function hl hr.balanced
      · exact .pure (empty_unionWith _ _).symm
  | node leftLen leftLeft leftItem leftRight ihLeft ihRight =>
    cases right with
    | nil =>
      unfold mapUnionEntries
      exact .pure (unionWith_empty _ _).symm
    | node rightLen rightLeft rightItem rightRight =>
      unfold mapUnionEntries
      obtain ⟨lower, isAmong, upper⟩ := hl.sides
      dsimp only
      split_ifs with single single'
      · subst single
        exact mapUnionEntries_single lawful function hl hr.balanced
      · subst single'
        rw [entriesOf, entriesOf, toList_of_single hl.balanced, singleton_unionWith]
        exact (mapInsertUnionEntry_holds lawful function leftItem true
          (holds_self (hr.mono fun _ _ => trivial))).mono fun map holds => holds.contents
      · rw [entriesOf, contents_node hl]
        refine .bind (splitLookup_parts (compareEntry_compares (fun _ => lawful) leftItem.1) hr) ?_
        rintro ⟨rightLower, found, rightUpper⟩ ⟨hLower, hUpper, parts⟩
        rw [entriesOf, parts, parted_unionWith]
        refine .bind ((mapUnionEntries_arranged (fun _ => lawful) function leftLeft rightLower lower hLower).and
          (ihLeft rightLower lower hLower)) ?_
        rintro mergedLeft ⟨hMergedLeft, low⟩
        refine .bind ((mapUnionEntries_arranged (fun _ => lawful) function leftRight rightUpper upper hUpper).and
          (ihRight rightUpper upper hUpper)) ?_
        rintro mergedRight ⟨hMergedRight, up⟩
        rw [← low, ← up]
        have item : (some leftItem).merge (collide function) found = some (unionItem function leftItem found) := by
          cases found <;> rfl
        have key : (unionItem function leftItem found).1 = leftItem.1 := by cases found <;> rfl
        rw [item]
        rw [← key] at hMergedLeft hMergedRight isAmong ⊢
        exact link_contents hMergedLeft isAmong hMergedRight

end Operations

section Total

variable (total : answers.Total)
include total

theorem compareEntry_total (key : κ) (entry : κ × α) : NeverFails (compareEntry answers key entry) :=
  compareKeys_total total key entry.1

theorem mapInsert_total (key : κ) (item : α) (map : Tree (κ × α)) : NeverFails (mapInsert answers key item map) :=
  insertNode_total (compareEntry_total total key) (fun _ _ => .pure _) (fun _ => .pure _) (key, item) map

theorem mapAdjust_total (function : α → α) (key : κ) (map : Tree (κ × α)) :
    NeverFails (mapAdjust answers function key map) := by
  induction map with
  | nil => exact .pure _
  | node len left item right ihLeft ihRight =>
    refine .bind (compareEntry_total total key item) fun order => ?_
    cases order with
    | lt => exact .bind ihLeft fun _ => .pure _
    | eq => exact .pure _
    | gt => exact .bind ihRight fun _ => .pure _

theorem mapInsertUnionEntry_total (function : α → α → α) (item : κ × α) (itemIsLeft : Bool) (map : Tree (κ × α)) :
    NeverFails (mapInsertUnionEntry answers function item itemIsLeft map) :=
  insertNode_total (compareEntry_total total item.1) (fun _ _ => .pure _) (fun _ => .pure _) item map

theorem mapUnionEntries_total (function : α → α → α) (left right : Tree (κ × α)) :
    NeverFails (mapUnionEntries answers function left right) := by
  induction left generalizing right with
  | nil =>
    cases right with
    | nil => exact .pure _
    | node rightLen rightLeft rightItem rightRight =>
      unfold mapUnionEntries
      split_ifs
      · exact mapInsertUnionEntry_total total function rightItem false .nil
      · exact .pure _
  | node leftLen leftLeft leftItem leftRight ihLeft ihRight =>
    cases right with
    | nil =>
      unfold mapUnionEntries
      exact .pure _
    | node rightLen rightLeft rightItem rightRight =>
      unfold mapUnionEntries
      dsimp only
      split_ifs
      · exact mapInsertUnionEntry_total total function _ _ _
      · exact mapInsertUnionEntry_total total function _ _ _
      · refine .bind (splitLookup_total (compareEntry_total total leftItem.1) _) ?_
        rintro ⟨rightLower, _, rightUpper⟩
        exact .bind (ihLeft rightLower) fun _ => .bind (ihRight rightUpper) fun _ => .expect _

end Total

section Results

/-- On maps that a program has made, the operations are those of finite maps. -/
theorem finite_maps (lawful : answers.Lawful cmp) (total : answers.Total) {accepted : List (κ × α) → Prop}
    (increasing : ∀ entries, accepted entries → Increasing cmp Prod.fst entries) (made : MapMade answers accepted map)
    (madeLeft : MapMade answers accepted left) (madeRight : MapMade answers accepted right) (key : κ) (item : α)
    (change : α → α) (function : α → α → α) :
    Succeeds (mapLookup answers key map) (fun found => found = (entriesOf cmp map key).map Prod.snd) ∧
    Succeeds (mapInsert answers key item map) (Holds cmp Prod.fst ((entriesOf cmp map).put cmp key (key, item))) ∧
    Succeeds (mapInsertWith answers function key item map) (Holds cmp Prod.fst ((entriesOf cmp map).put cmp key
      (key, (entriesOf cmp map key).elim item fun old => function item old.2))) ∧
    Succeeds (mapAdjust answers change key map)
      (Holds cmp Prod.fst ((entriesOf cmp map).adjust cmp key fun entry => (entry.1, change entry.2))) ∧
    Succeeds (mapDelete answers key map) (Holds cmp Prod.fst ((entriesOf cmp map).drop cmp key)) ∧
    Succeeds (mapUnionEntries answers function left right) (Holds cmp Prod.fst ((entriesOf cmp left).unionWith
      (fun leftEntry rightEntry => (leftEntry.1, function leftEntry.2 rightEntry.2)) (entriesOf cmp right))) ∧
    (Increasing cmp Prod.fst (mapToList map) ∧
      ∀ entry, entry ∈ mapToList map ↔ entriesOf cmp map entry.1 = some entry) ∧
    mapSize map = (mapToList map).length := by
  have inOrder {map : Tree (κ × α)} (made : MapMade answers accepted map) : InOrder cmp Prod.fst True map :=
    MapMade.inOrder cmp True (fun _ => lawful) (fun _ => increasing) made
  have compares (entry : κ × α) := compareEntry_total total key entry
  have holds := holds_self (inOrder made)
  refine ⟨?_, ?_, ?_, ?_, ?_, ?_, ?_, ?_⟩
  · refine Ensures.succeeds ?_ (.bind (find_total compares map) fun _ => .pure _)
    exact .bind (find_holds (compareEntry_compares (fun _ => lawful) key) (inOrder made)) fun found isFound =>
      .pure (by rw [isFound])
  · exact (mapInsert_holds lawful key item holds).succeeds (mapInsert_total total key item map)
  · have put : (entriesOf cmp map key).elim (key, item) (fun old => (key, function item old.2)) =
        (key, (entriesOf cmp map key).elim item fun old => function item old.2) := by
      cases entriesOf cmp map key <;> rfl
    rw [← put]
    exact (mapInsertWith_holds lawful function key item holds).succeeds
      (insertNode_total compares (fun _ _ => .pure _) (fun _ => .pure _) _ map)
  · refine Ensures.succeeds ?_ (mapAdjust_total total change key map)
    refine ((mapAdjust_ensures change key map (inOrder made).balanced).and
      (mapAdjust_holds lawful change key (inOrder made))).mono fun map' ⟨⟨balanced, keys⟩, _, holds⟩ => ?_
    refine ⟨⟨balanced, fun _ => ?_, by simp⟩, holds⟩
    rw [increasing_iff_keys, keys, ← increasing_iff_keys]
    exact (inOrder made).increasing trivial
  · exact (remove_holds (compareEntry_compares (fun _ => lawful) key) holds).succeeds (remove_total compares map)
  · exact (((mapUnionEntries_arranged (fun _ => lawful) function left right (inOrder madeLeft) (inOrder madeRight)).and
      (mapUnionEntries_holds lawful function left right (inOrder madeLeft) (inOrder madeRight))).mono
        fun map' ⟨inOrder, holds⟩ => ⟨inOrder, holds⟩).succeeds (mapUnionEntries_total total function left right)
  · rw [mapToList, iter_eq]
    exact ⟨(inOrder made).increasing trivial, fun entry => (contents_self ((inOrder made).increasing trivial)).symm⟩
  · rw [mapToList, iter_eq, (inOrder made).balanced.length_toList]
    rfl

theorem finite_maps_numbers : Succeeds (mapInsertWith numberAnswers (· - ·) 1 5 (TreeNode.new (1, 3) .nil .nil))
    (Holds compare Prod.fst ((contents compare Prod.fst [(1, 3)]).put compare 1 (1, 5 - 3))) := by
  have made : MapMade numberAnswers (fun _ => False) (TreeNode.new (1, 3) .nil .nil : Tree (ℕ × ℕ)) :=
    .call (.tree (.singleton (1, 3))) trivial (by simp [MapCall.operands, TreeCall.operands]) () () _ rfl
  exact (finite_maps numberAnswers_lawful numberAnswers_total (by simp) made made made 1 5 id (· - ·)).2.2.1

end Results

end HellRs.Collections
