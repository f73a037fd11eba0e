import HellRs.Collections.Arranged

/-! # Trees from lists

As long as a list is in order, trees of doubling sizes are linked; at the first item out of order the rest is
inserted. Indices are suffixes of the list, and a size is given by its exponent.
-/

namespace HellRs.Collections

open Ordnode Fallible Std

variable {T κ σ ε : Type}

/-- Whether an item and the one after it are out of order. -/
def entriesNotOrdered (answers : Answers κ σ ε) (current : κ) : Option κ → Fallible σ ε Bool
  | none => return false
  | some next => do
    if ← ask (answers.equalValues current next) then return true
    ask (answers.greater current next)

/-- A tree of the first of the items, and the items after them. -/
structure CreateResult (items : List T) where
  root : Tree T
  rest : List T
  suffix : rest <:+ items
  unordered : Bool

/-- `map_create_entries` and `set_tree_create` with the size `2 ^ level`. -/
def createEntries (answers : Answers κ σ ε) (key : T → κ) :
    (level : ℕ) → (items : List T) → Fallible σ ε (CreateResult items)
  | _, [] => return ⟨.nil, [], List.suffix_rfl, false⟩
  | 0, item :: rest => do
    let unordered ← entriesNotOrdered answers (key item) (rest.head?.map key)
    return ⟨TreeNode.new item .nil .nil, rest, List.suffix_cons .., unordered⟩
  | level + 1, item :: items => do
    let left ← createEntries answers key level (item :: items)
    if left.unordered then return left
    match left with
    | ⟨root, [], suffix, _⟩ => return ⟨root, [], suffix, false⟩
    | ⟨root, [pivot], _, _⟩ =>
      let root ← expect (insertMax pivot root)
      return ⟨root, [], List.nil_suffix, false⟩
    | ⟨root, pivot :: next :: rest, suffix, _⟩ =>
      if ← entriesNotOrdered answers (key pivot) (some (key next)) then
        return ⟨root, pivot :: next :: rest, suffix, true⟩
      let right ← createEntries answers key level (next :: rest)
      let root ← expect (link pivot root right.root)
      return ⟨root, right.rest, right.suffix.trans ((List.suffix_cons ..).trans suffix), right.unordered⟩

/-- `map_from_ordered_entries` and `set_tree_from_ordered_prefix`. -/
def fromOrderedEntries (answers : Answers κ σ ε) (key : T → κ)
    (insertEntries : Tree T → List T → Fallible σ ε (Tree T)) (level : ℕ) (left : Tree T) (items : List T) :
    Fallible σ ε (Tree T) :=
  match items with
  | [] => return left
  | [item] => expect (insertMax item left)
  | item :: next :: rest => do
    if ← entriesNotOrdered answers (key item) (some (key next)) then insertEntries left (item :: next :: rest)
    else
      let created ← createEntries answers key level (next :: rest)
      let linked ← expect (link item left created.root)
      if created.unordered then insertEntries linked created.rest
      else fromOrderedEntries answers key insertEntries (level + 1) linked created.rest
termination_by items.length
decreasing_by
  have := created.suffix.length_le
  simp only [List.length_cons] at *
  omega

section Specifications

variable {cmp : κ → κ → Ordering} {key : T → κ} {lawful : Prop} {answers : Answers κ σ ε}

theorem entriesNotOrdered_ensures (isLawful : lawful → answers.Lawful cmp) (current next : κ) :
    Ensures (entriesNotOrdered answers current (some next)) fun unordered =>
      lawful → unordered = false → cmp current next = .lt := by
  refine .bind (.ask fun _ _ _ answered law => (isLawful law).equalValues answered) fun equal isEqual => ?_
  cases equal with
  | true => exact .pure fun _ ordered => by simp at ordered
  | false =>
    refine .ask fun _ greater _ answered law ordered => ?_
    have notEqual := isEqual law
    have notGreater := (isLawful law).greater answered
    subst ordered
    cases order : cmp current next <;> simp [order] at notEqual notGreater ⊢

/-- The tree holds the first items. They are in order, as is the item after them unless that is known not to be. -/
def CreateResult.Good (cmp : κ → κ → Ordering) (key : T → κ) (lawful : Prop) {items : List T}
    (result : CreateResult items) : Prop :=
  WeightBalanced result.root ∧ result.root.toList ++ result.rest = items ∧
    (lawful → Increasing cmp key result.root.toList ∧
      (result.unordered = false → Increasing cmp key (result.root.toList ++ result.rest.head?.toList)))

theorem append_head?_tail (upper rest : List T) : (upper ++ rest.head?.toList) ++ rest.tail = upper ++ rest := by
  cases rest <;> simp

theorem increasing_link [TransCmp cmp] {lower upper rest later : List T} {item next : T}
    (increasing : Increasing cmp key (lower ++ [item])) (lt : cmp (key item) (key next) = .lt)
    (items : upper ++ rest = next :: later) (increasing' : Increasing cmp key upper) :
    Increasing cmp key (lower ++ item :: upper) := by
  cases upper with
  | nil => exact increasing
  | cons first upper =>
    obtain ⟨rfl, -⟩ := List.cons.inj items
    exact increasing.join (.cons lt increasing')

theorem createEntries_ensures [TransCmp cmp] (isLawful : lawful → answers.Lawful cmp) (level : ℕ) (items : List T) :
    Ensures (createEntries answers key level items) (CreateResult.Good cmp key lawful) := by
  induction level generalizing items with
  | zero =>
    cases items with
    | nil => exact .pure ⟨.nil, rfl, fun _ => ⟨.nil, fun _ => .nil⟩⟩
    | cons item rest =>
      cases rest with
      | nil =>
        exact .pure ⟨singleton_balanced item, rfl, fun _ => ⟨List.pairwise_singleton .., fun _ =>
          List.pairwise_singleton ..⟩⟩
      | cons next rest =>
        refine .bind (entriesNotOrdered_ensures isLawful (key item) (key next)) fun unordered isOrdered => ?_
        exact .pure ⟨singleton_balanced item, rfl, fun law => ⟨List.pairwise_singleton .., fun ordered =>
          .cons (isOrdered law ordered) (List.pairwise_singleton ..)⟩⟩
  | succ level ih =>
    cases items with
    | nil => exact .pure ⟨.nil, rfl, fun _ => ⟨.nil, fun _ => .nil⟩⟩
    | cons item items =>
      refine .bind (ih (item :: items)) fun left good => ?_
      obtain ⟨root, left, suffix, unordered⟩ := left
      obtain ⟨balanced, isItems, ordered⟩ := good
      cases unordered with
      | true => exact .pure ⟨balanced, isItems, ordered⟩
      | false =>
        match left, suffix with
        | [], suffix => exact .pure ⟨balanced, isItems, ordered⟩
        | [pivot], suffix =>
          obtain ⟨tree, built, balanced', toList⟩ := insertMax_builds pivot root balanced
          refine .bind_expect built ?_
          refine .pure ⟨balanced', by simpa [toList] using isItems, fun law => ?_⟩
          have increasing := (ordered law).2 rfl
          simp only [List.head?_cons, Option.toList_some] at increasing
          exact ⟨by rwa [toList], fun _ => by simpa [toList] using increasing⟩
        | pivot :: next :: rest, suffix =>
          refine .bind (entriesNotOrdered_ensures isLawful (key pivot) (key next)) fun unordered isOrdered => ?_
          cases unordered with
          | true => exact .pure ⟨balanced, isItems, fun law => ⟨(ordered law).1, by simp⟩⟩
          | false =>
            refine .bind (ih (next :: rest)) fun right ⟨balancedRight, rightItems, rightOrdered⟩ => ?_
            obtain ⟨tree, built, balanced', toList⟩ := link_builds pivot root right.root balanced balancedRight
            refine .bind_expect built ?_
            refine .pure ⟨balanced', ?_, fun law => ?_⟩
            · have : tree.toList ++ right.rest = root.toList ++ pivot :: next :: rest := by
                rw [toList, List.append_assoc, List.cons_append, rightItems]
              exact this.trans isItems
            · have first := (ordered law).2 rfl
              have lt := isOrdered law rfl
              have more := (append_head?_tail right.root.toList right.rest).trans rightItems
              rw [toList]
              refine ⟨increasing_link first lt rightItems (rightOrdered law).1, fun unordered => ?_⟩
              rw [List.append_assoc, List.cons_append]
              exact increasing_link first lt more ((rightOrdered law).2 unordered)

/-- Items inserted one after the other keep the tree in order. -/
def InsertsEntries (cmp : κ → κ → Ordering) (key : T → κ) (lawful : Prop)
    (insertEntries : Tree T → List T → Fallible σ ε (Tree T)) : Prop :=
  ∀ tree items, InOrder cmp key lawful tree → Ensures (insertEntries tree items) (InOrder cmp key lawful)

theorem fromOrderedEntries_ensures [TransCmp cmp] (isLawful : lawful → answers.Lawful cmp)
    {insertEntries : Tree T → List T → Fallible σ ε (Tree T)} (inserts : InsertsEntries cmp key lawful insertEntries)
    (level : ℕ) (left : Tree T) (items : List T) (balanced : WeightBalanced left)
    (increasing : lawful → Increasing cmp key (left.toList ++ items.head?.toList)) :
    Ensures (fromOrderedEntries answers key insertEntries level left items) (InOrder cmp key lawful) := by
  fun_induction fromOrderedEntries answers key insertEntries level left items with
  | case1 level left => exact .pure ⟨balanced, fun law => by simpa using increasing law, by simp⟩
  | case2 level left item =>
    obtain ⟨tree, built, balanced', toList⟩ := insertMax_builds item left balanced
    exact .expect built ⟨balanced', fun law => by simpa [toList] using increasing law, by simp⟩
  | case3 level left item next rest ih =>
    have first (law : lawful) : Increasing cmp key (left.toList ++ [item]) := by simpa using increasing law
    refine .bind (entriesNotOrdered_ensures isLawful (key item) (key next)) fun unordered isOrdered => ?_
    cases unordered with
    | true => exact inserts left _ ⟨balanced, fun law => (increasing_append.mp (first law)).1, by simp⟩
    | false =>
      refine .bind (createEntries_ensures isLawful level (next :: rest)) fun created good => ?_
      obtain ⟨balancedRoot, items, ordered⟩ := good
      obtain ⟨linked, built, balanced', toList⟩ := link_builds item left created.root balanced balancedRoot
      refine .bind_expect built ?_
      have lt (law : lawful) := isOrdered law rfl
      cases unordered : created.unordered with
      | true =>
        refine inserts linked _ ⟨balanced', fun law => ?_, by simp⟩
        rw [toList]
        exact increasing_link (first law) (lt law) items (ordered law).1
      | false =>
        refine ih created linked balanced' fun law => ?_
        have more := (append_head?_tail created.root.toList created.rest).trans items
        rw [toList, List.append_assoc, List.cons_append]
        exact increasing_link (first law) (lt law) more ((ordered law).2 unordered)

end Specifications

end HellRs.Collections
