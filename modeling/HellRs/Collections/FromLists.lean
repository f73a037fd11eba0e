import HellRs.Collections.FiniteMaps

/-! # Trees from lists are trees of insertions

A list that is put together from its sorted prefix and insertions of the rest holds what insertions of all its items
hold: the prefix has no two equal keys, so no item of it replaces another.
-/

namespace HellRs.Collections

open Ordnode Fallible Std Contents

variable {T κ α σ ε : Type} {cmp : κ → κ → Ordering} [TransCmp cmp] {key : T → κ} {answers : Answers κ σ ε}

/-- The contents with items put one after the other. -/
def putAll (cmp : κ → κ → Ordering) (key : T → κ) (held : Contents κ T) (items : List T) : Contents κ T :=
  items.foldl (fun held item => held.put cmp (key item) item) held

/-- Items inserted one after the other are put one after the other. -/
def InsertsAll (cmp : κ → κ → Ordering) (key : T → κ) (insertEntries : Tree T → List T → Fallible σ ε (Tree T)) : Prop :=
  ∀ tree items held, Holds cmp key held tree → Ensures (insertEntries tree items) (Holds cmp key (putAll cmp key held items))

theorem insertsAll_foldlM {insertOne : Tree T → T → Fallible σ ε (Tree T)}
    (inserts : ∀ tree item held, Holds cmp key held tree →
      Ensures (insertOne tree item) (Holds cmp key (held.put cmp (key item) item))) :
    InsertsAll cmp key fun tree items => items.foldlM insertOne tree := by
  intro tree items held holds
  induction items generalizing tree held with
  | nil => exact .pure holds
  | cons item items ih => exact .bind (inserts tree item held holds) fun tree' holds' => ih tree' _ holds'

theorem mapInsertEntries_insertsAll (lawful : answers.Lawful cmp) :
    InsertsAll cmp Prod.fst (mapInsertEntries answers : Tree (κ × α) → List (κ × α) → _) :=
  insertsAll_foldlM fun _ entry _ holds => mapInsert_holds lawful entry.1 entry.2 holds

theorem setTreeInsertRemaining_insertsAll [DecidableEq κ] (lawful : answers.Lawful cmp) :
    InsertsAll cmp id (setTreeInsertRemaining answers) :=
  insertsAll_foldlM fun _ element _ holds => setInsertReplacing_holds lawful element holds

section Contents

theorem holds_of_builds {tree : Tree T} {items lower upper : List T} (balanced : WeightBalanced tree)
    (toList : tree.toList = items) (increasing : Increasing cmp key items) (parts : items = lower ++ upper) :
    Holds cmp key (putAll cmp key (contents cmp key lower) upper) tree := by
  subst parts
  refine ⟨⟨balanced, fun _ => by rwa [toList], by simp⟩, ?_⟩
  rw [toList]
  exact contents_append_foldl increasing

theorem fromOrderedEntries_holds (lawful : answers.Lawful cmp) {insertEntries : Tree T → List T → Fallible σ ε (Tree T)}
    (inserts : InsertsAll cmp key insertEntries) (level : ℕ) (left : Tree T) (items : List T)
    (balanced : WeightBalanced left) (increasing : Increasing cmp key (left.toList ++ items.head?.toList)) :
    Ensures (fromOrderedEntries answers key insertEntries level left items)
      (Holds cmp key (putAll cmp key (contents cmp key left.toList) items)) := by
  have isLawful (_ : True) : answers.Lawful cmp := lawful
  fun_induction fromOrderedEntries answers key insertEntries level left items with
  | case1 level left => exact .pure (holds_of_builds balanced rfl (by simpa using increasing) (List.append_nil _).symm)
  | case2 level left item =>
    obtain ⟨tree, built, balanced', toList⟩ := insertMax_builds item left balanced
    exact .expect built (holds_of_builds balanced' toList increasing rfl)
  | case3 level left item next rest ih =>
    have first : Increasing cmp key (left.toList ++ [item]) := by simpa using increasing
    refine .bind (entriesNotOrdered_ensures isLawful (key item) (key next))
      fun unordered isOrdered => ?_
    cases unordered with
    | true => exact inserts left _ _ (holds_self ⟨balanced, fun _ => (increasing_append.mp first).1, by simp⟩)
    | false =>
      refine .bind (createEntries_ensures isLawful level (next :: rest)) fun created good => ?_
      obtain ⟨balancedRoot, items, ordered⟩ := good
      obtain ⟨linked, built, balanced', toList⟩ := link_builds item left created.root balanced balancedRoot
      refine .bind_expect built ?_
      have lt := isOrdered trivial rfl
      have prefixed := increasing_link first lt items (ordered trivial).1
      have holds := holds_of_builds balanced' toList prefixed rfl
      have all : putAll cmp key (contents cmp key left.toList) (item :: next :: rest) =
          putAll cmp key (contents cmp key linked.toList) created.rest := by
        rw [holds.contents]
        exact (congrArg (putAll cmp key _ ∘ List.cons item) items.symm).trans List.foldl_append
      rw [all]
      cases unordered : created.unordered with
      | true => exact inserts linked _ _ (holds_self holds.inOrder)
      | false =>
        refine ih created linked balanced' ?_
        have more := (append_head?_tail created.root.toList created.rest).trans items
        rw [toList, List.append_assoc, List.cons_append]
        exact increasing_link first lt more ((ordered trivial).2 unordered)

theorem fromOrderedEntries_first (lawful : answers.Lawful cmp)
    {insertEntries : Tree T → List T → Fallible σ ε (Tree T)} (inserts : InsertsAll cmp key insertEntries) (first : T)
    (items : List T) (increasing : Increasing cmp key (first :: items.head?.toList)) :
    Ensures (fromOrderedEntries answers key insertEntries 0 (TreeNode.new first .nil .nil) items)
      (Holds cmp key (putAll cmp key empty (first :: items))) := by
  have one : contents cmp key (TreeNode.new first .nil .nil).toList = empty.put cmp (key first) first := contents_singleton first
  have holds := fromOrderedEntries_holds lawful inserts 0 _ items (singleton_balanced first) increasing
  rwa [one] at holds

theorem insertsAll_first {insertEntries : Tree T → List T → Fallible σ ε (Tree T)} (inserts : InsertsAll cmp key insertEntries)
    (first : T) (items : List T) : Ensures (insertEntries (TreeNode.new first .nil .nil) items)
      (Holds cmp key (putAll cmp key empty (first :: items))) :=
  inserts _ _ _ ⟨.singleton fun _ => trivial, contents_singleton first⟩

theorem mapFromEntries_holds (lawful : answers.Lawful cmp) (entries : List (κ × α)) :
    Ensures (mapFromEntries answers entries) (Holds cmp Prod.fst (putAll cmp Prod.fst empty entries)) := by
  have isLawful (_ : True) : answers.Lawful cmp := lawful
  have inserts := @mapInsertEntries_insertsAll κ α σ ε cmp _ answers lawful
  match entries with
  | [] => exact .pure ⟨.nil, rfl⟩
  | [first] => exact fromOrderedEntries_first lawful inserts first [] (List.pairwise_singleton ..)
  | first :: next :: rest =>
    refine .bind (entriesNotOrdered_ensures isLawful first.1 next.1) fun unordered isOrdered => ?_
    cases unordered with
    | true => exact insertsAll_first inserts first (next :: rest)
    | false =>
      exact fromOrderedEntries_first lawful inserts first (next :: rest)
        (.cons (isOrdered trivial rfl) (List.pairwise_singleton ..))

theorem setTreeFromList_holds [DecidableEq κ] (lawful : answers.Lawful cmp) (input : List κ) :
    Ensures (setTreeFromList answers input) (Holds cmp id (putAll cmp id empty input)) := by
  have isLawful (_ : True) : answers.Lawful cmp := lawful
  have inserts := setTreeInsertRemaining_insertsAll lawful
  match input with
  | [] => exact .pure ⟨.nil, rfl⟩
  | [first] => exact .pure ⟨.singleton fun _ => trivial, contents_singleton first⟩
  | first :: next :: rest =>
    refine .bind (entriesNotOrdered_ensures isLawful first next) fun unordered isOrdered => ?_
    cases unordered with
    | true => exact insertsAll_first inserts first (next :: rest)
    | false =>
      exact fromOrderedEntries_first lawful inserts first (next :: rest)
        (.cons (isOrdered trivial rfl) (List.pairwise_singleton ..))

/-- Trees that hold the same have the same items in the same order. -/
theorem Holds.toList_eq {held : Contents κ T} {tree tree' : Tree T} (holds : Holds cmp key held tree)
    (holds' : Holds cmp key held tree') : tree.toList = tree'.toList :=
  contents_injective (holds.inOrder.increasing trivial) (holds'.inOrder.increasing trivial)
    (holds.contents.trans holds'.contents.symm)

end Contents

section Total

variable (total : answers.Total)
include total

theorem entriesNotOrdered_total (current : κ) (following : Option κ) :
    NeverFails (entriesNotOrdered answers current following) := by
  cases following with
  | none => exact .pure _
  | some next =>
    refine .bind (.ask (total.equalValues current next)) fun equal => ?_
    cases equal with
    | true => exact .pure _
    | false => exact .ask (total.greater current next)

theorem createEntries_total (key : T → κ) (level : ℕ) (items : List T) : NeverFails (createEntries answers key level items) := by
  induction level generalizing items with
  | zero =>
    cases items with
    | nil => exact .pure _
    | cons item rest => exact .bind (entriesNotOrdered_total total _ _) fun _ => .pure _
  | succ level ih =>
    cases items with
    | nil => exact .pure _
    | cons item items =>
      refine .bind (ih (item :: items)) fun left => ?_
      obtain ⟨root, left, suffix, unordered⟩ := left
      cases unordered with
      | true => exact .pure _
      | false =>
        match left, suffix with
        | [], _ => exact .pure _
        | [pivot], _ => exact .bind (.expect _) fun _ => .pure _
        | pivot :: next :: rest, _ =>
          refine .bind (entriesNotOrdered_total total _ _) fun unordered => ?_
          cases unordered with
          | true => exact .pure _
          | false => exact .bind (ih (next :: rest)) fun _ => .bind (.expect _) fun _ => .pure _

theorem fromOrderedEntries_total (key : T → κ) {insertEntries : Tree T → List T → Fallible σ ε (Tree T)}
    (inserts : ∀ tree items, NeverFails (insertEntries tree items)) (level : ℕ) (left : Tree T) (items : List T) :
    NeverFails (fromOrderedEntries answers key insertEntries level left items) := by
  fun_induction fromOrderedEntries answers key insertEntries level left items with
  | case1 level left => exact .pure _
  | case2 level left item => exact .expect _
  | case3 level left item next rest ih =>
    refine .bind (entriesNotOrdered_total total _ _) fun unordered => ?_
    cases unordered with
    | true => exact inserts _ _
    | false =>
      refine .bind (createEntries_total total key level (next :: rest)) fun created => .bind (.expect _) fun linked => ?_
      split
      · exact inserts _ _
      · exact ih created linked

theorem mapInsertEntries_total (tree : Tree (κ × α)) (items : List (κ × α)) :
    NeverFails (mapInsertEntries answers tree items) := by
  refine NeverFails.foldlM (fun tree item => ?_) items tree
  exact mapInsert_total total item.1 item.2 tree

theorem mapFromEntries_total (entries : List (κ × α)) : NeverFails (mapFromEntries answers entries) := by
  cases entries with
  | nil => exact .pure _
  | cons first rest =>
    refine .bind (entriesNotOrdered_total total _ _) fun unordered => ?_
    cases unordered with
    | true => exact mapInsertEntries_total total _ _
    | false => exact fromOrderedEntries_total total _ (mapInsertEntries_total total) _ _ _

theorem setTreeInsertRemaining_total [DecidableEq κ] (tree : Tree κ) (input : List κ) :
    NeverFails (setTreeInsertRemaining answers tree input) :=
  .foldlM (fun tree element => setInsertReplacing_total total element tree) input tree

theorem setTreeFromList_total [DecidableEq κ] (input : List κ) : NeverFails (setTreeFromList answers input) := by
  match input with
  | [] => exact .pure _
  | [first] => exact .pure _
  | first :: next :: rest =>
    refine .bind (entriesNotOrdered_total total _ _) fun unordered => ?_
    cases unordered with
    | true => exact setTreeInsertRemaining_total total _ _
    | false => exact fromOrderedEntries_total total _ (setTreeInsertRemaining_total total) _ _ _

end Total

/-- Trees made from lists are balanced, and they have the items of the trees that insertions make. -/
theorem from_lists_insert [DecidableEq κ] (lawful : answers.Lawful cmp) (total : answers.Total) :
    (∀ entries : List (κ × α), Succeeds (mapFromEntries answers entries) fun map => WeightBalanced map ∧
      Succeeds (mapInsertEntries answers .nil entries) fun inserted => inserted.toList = map.toList) ∧
    (∀ input : List κ, Succeeds (setTreeFromList answers input) fun set => WeightBalanced set ∧
      Succeeds (setTreeInsertRemaining answers .nil input) fun inserted => inserted.toList = set.toList) ∧
    ∀ entries : List (κ × α), Increasing cmp Prod.fst entries → WeightBalanced (fromSorted entries) ∧
      Succeeds (mapInsertEntries answers .nil entries) fun inserted => inserted.toList = (fromSorted entries).toList := by
  have maps (entries : List (κ × α)) {map : Tree (κ × α)} (holds : Holds cmp Prod.fst (putAll cmp Prod.fst empty entries) map) :
      Succeeds (mapInsertEntries answers .nil entries) fun inserted => inserted.toList = map.toList :=
    ((mapInsertEntries_insertsAll lawful .nil entries empty ⟨.nil, rfl⟩).mono fun inserted same =>
      same.toList_eq holds).succeeds (mapInsertEntries_total total _ _)
  refine ⟨fun entries => ?_, fun input => ?_, fun entries increasing => ?_⟩
  · refine ((mapFromEntries_holds lawful entries).mono fun map holds => ?_).succeeds (mapFromEntries_total total entries)
    exact ⟨holds.inOrder.balanced, maps entries holds⟩
  · refine ((setTreeFromList_holds lawful input).mono fun set holds => ?_).succeeds (setTreeFromList_total total input)
    refine ⟨holds.inOrder.balanced, ?_⟩
    exact ((setTreeInsertRemaining_insertsAll lawful .nil input empty ⟨.nil, rfl⟩).mono fun inserted same =>
      same.toList_eq holds).succeeds (setTreeInsertRemaining_total total _ _)
  · obtain ⟨balanced, same⟩ := fromSorted_builds entries
    exact ⟨balanced, maps entries (@holds_of_builds _ _ cmp _ _ _ entries [] _ balanced same increasing rfl)⟩

theorem from_lists_insert_numbers :
    Succeeds (setTreeFromList numberAnswers [1, 2, 2, 1]) fun set => WeightBalanced set ∧
      Succeeds (setTreeInsertRemaining numberAnswers .nil [1, 2, 2, 1]) fun inserted => inserted.toList = set.toList :=
  (@from_lists_insert ℕ Unit Unit Unit compare _ numberAnswers _ numberAnswers_lawful numberAnswers_total).2.1 _

end HellRs.Collections
