import HellRs.Collections.Search

/-! # What every operation keeps

A tree is balanced, whatever the comparisons answered; its keys are increasing if they answered lawfully.
-/

namespace HellRs.Collections

open Ordnode Fallible Std

variable {T κ σ ε : Type} {cmp : κ → κ → Ordering} {key : T → κ} {lawful : Prop} {among : κ → Prop} {bound : κ}

/-- The keys of the tree are among some, which tells the two sides of a node apart. -/
structure Arranged (cmp : κ → κ → Ordering) (key : T → κ) (lawful : Prop) (among : κ → Prop) (tree : Tree T) : Prop where
  balanced : WeightBalanced tree
  increasing : lawful → Increasing cmp key tree.toList
  among : lawful → ∀ item ∈ tree.toList, among (key item)

abbrev InOrder (cmp : κ → κ → Ordering) (key : T → κ) (lawful : Prop) : Tree T → Prop :=
  Arranged cmp key lawful fun _ => True

/-- The keys below a bound, among some. -/
def Lower (cmp : κ → κ → Ordering) (bound : κ) (among : κ → Prop) (key : κ) : Prop := among key ∧ cmp key bound = .lt

def Upper (cmp : κ → κ → Ordering) (bound : κ) (among : κ → Prop) (key : κ) : Prop := among key ∧ cmp bound key = .lt

namespace Arranged

theorem nil : Arranged cmp key lawful among .nil := ⟨.nil, fun _ => .nil, by simp⟩

theorem mono {among' : κ → Prop} {tree : Tree T} (arranged : Arranged cmp key lawful among tree)
    (weaker : ∀ key, among key → among' key) : Arranged cmp key lawful among' tree :=
  ⟨arranged.balanced, arranged.increasing, fun law item member => weaker _ (arranged.among law item member)⟩

theorem singleton {item : T} (isAmong : lawful → among (key item)) :
    Arranged cmp key lawful among (TreeNode.new item .nil .nil) :=
  ⟨singleton_balanced item, fun _ => List.pairwise_singleton .., fun law other member => by
    obtain rfl : other = item := List.mem_singleton.mp member
    exact isAmong law⟩

theorem of_sorted {items : List T} (increasing : lawful → Increasing cmp key items)
    (isAmong : lawful → ∀ item ∈ items, among (key item)) : Arranged cmp key lawful among (fromSorted items) := by
  obtain ⟨balanced, same⟩ := fromSorted_builds items
  exact ⟨balanced, by rwa [same], by rwa [same]⟩

section Lawful

variable [TransCmp cmp]

theorem sides {len : ℕ} {left right : Tree T} {item : T}
    (arranged : Arranged cmp key lawful among (.node len left item right)) :
    Arranged cmp key lawful (Lower cmp (key item) among) left ∧ (lawful → among (key item)) ∧
      Arranged cmp key lawful (Upper cmp (key item) among) right := by
  obtain ⟨balanced, increasing, isAmong⟩ := arranged
  obtain ⟨-, hl, hr, -⟩ := WeightBalanced.node_iff.mp balanced
  simp only [toList_node, increasing_append_cons, List.mem_append, List.mem_cons] at increasing isAmong
  exact ⟨⟨hl, fun law => (increasing law).1, fun law other member =>
      ⟨isAmong law other (.inl member), (increasing law).2.2.1 other member⟩⟩,
    fun law => isAmong law item (.inr (.inl rfl)),
    ⟨hr, fun law => (increasing law).2.1, fun law other member =>
      ⟨isAmong law other (.inr (.inr member)), (increasing law).2.2.2 other member⟩⟩⟩

theorem of_builds_node {result : Option (Tree T)} {left right : Tree T} {item : T}
    (builds : Builds result (left.toList ++ item :: right.toList))
    (hl : Arranged cmp key lawful (Lower cmp (key item) among) left) (isAmong : lawful → among (key item))
    (hr : Arranged cmp key lawful (Upper cmp (key item) among) right) :
    ∃ tree, result = some tree ∧ Arranged cmp key lawful among tree := by
  obtain ⟨tree, built, balanced, items⟩ := builds
  refine ⟨tree, built, balanced, fun law => ?_, fun law other member => ?_⟩
  · rw [items]
    exact increasing_append_cons.mpr ⟨hl.increasing law, hr.increasing law,
      fun other member => (hl.among law other member).2, fun other member => (hr.among law other member).2⟩
  · rw [items, List.mem_append, List.mem_cons] at member
    rcases member with member | rfl | member
    · exact (hl.among law other member).1
    · exact isAmong law
    · exact (hr.among law other member).1

theorem of_builds_append {result : Option (Tree T)} {left right : Tree T}
    (builds : Builds result (left.toList ++ right.toList)) (hl : Arranged cmp key lawful (Lower cmp bound among) left)
    (hr : Arranged cmp key lawful (Upper cmp bound among) right) :
    ∃ tree, result = some tree ∧ Arranged cmp key lawful among tree := by
  obtain ⟨tree, built, balanced, items⟩ := builds
  refine ⟨tree, built, balanced, fun law => ?_, fun law other member => ?_⟩
  · rw [items]
    exact increasing_append.mpr ⟨hl.increasing law, hr.increasing law, fun item member item' member' =>
      TransCmp.lt_trans (hl.among law item member).2 (hr.among law item' member').2⟩
  · rw [items, List.mem_append] at member
    rcases member with member | member
    · exact (hl.among law other member).1
    · exact (hr.among law other member).1

end Lawful

end Arranged

section Operations

variable [TransCmp cmp] {compare : T → Fallible σ ε Ordering} {tree : Tree T}

theorem insertNode_arranged {unchanged : Tree T → Tree T → Fallible σ ε Bool} {equal : T → Fallible σ ε (Option T)}
    {item : T} (compares : Compares cmp key (key item) lawful compare)
    (isUnchanged : ∀ inserted old, Ensures (unchanged inserted old) fun same => same = true → inserted = old)
    (isEqual : ∀ old, Ensures (equal old) fun replacement =>
      key (replacement.getD old) = key item ∨ key (replacement.getD old) = key old)
    (arranged : Arranged cmp key lawful among tree) (isAmong : lawful → among (key item)) :
    Ensures (insertNode compare unchanged equal item tree) (Arranged cmp key lawful among) := by
  refine (insertNode_ensures (fun old put => key put = key item ∨ key put = key old)
    compares isUnchanged isEqual tree arranged.balanced).mono fun tree' ⟨balanced, _, _, content⟩ => ?_
  have inserted (law : lawful) := content law (arranged.increasing law)
  refine ⟨balanced, fun law => (inserted law).increasing (fun _ _ => id) (arranged.increasing law),
    fun law other member => ?_⟩
  rcases (inserted law).key_mem (fun _ _ => id) member with same | ⟨old, member, same⟩
  · rw [same]
    exact isAmong law
  · rw [same]
    exact arranged.among law old member

theorem remove_arranged (compares : Compares cmp key bound lawful compare)
    (arranged : Arranged cmp key lawful among tree) :
    Ensures (remove compare tree) (Arranged cmp key lawful among) := by
  refine (remove_ensures compares tree arranged.balanced).mono fun tree' ⟨balanced, _, _, content⟩ => ?_
  have items (law : lawful) := content law (arranged.increasing law)
  refine ⟨balanced, fun law => ?_, fun law other member => ?_⟩
  · rw [items law]
    exact (arranged.increasing law).remove bound
  · rw [items law, List.mem_append, mem_below, mem_above, ← and_or_left] at member
    exact arranged.among law other member.1

theorem splitLookup_arranged (compares : Compares cmp key bound lawful compare)
    (arranged : Arranged cmp key lawful among tree) :
    Ensures (splitLookup compare tree) fun (lower, _, upper) =>
      Arranged cmp key lawful (Lower cmp bound among) lower ∧ Arranged cmp key lawful (Upper cmp bound among) upper := by
  refine (splitLookup_ensures compares tree arranged.balanced).mono fun (lower, _, upper) ⟨hLower, hUpper, content⟩ => ?_
  have parts (law : lawful) := content law (arranged.increasing law)
  refine ⟨⟨hLower, fun law => ?_, fun law other member => ?_⟩, ⟨hUpper, fun law => ?_, fun law other member => ?_⟩⟩
  · rw [(parts law).1]
    exact (arranged.increasing law).below bound
  · rw [(parts law).1] at member
    exact ⟨arranged.among law other (mem_below.mp member).1, lt_of_mem_below member⟩
  · rw [(parts law).2.2]
    exact (arranged.increasing law).above bound
  · rw [(parts law).2.2] at member
    exact ⟨arranged.among law other (mem_above.mp member).1, lt_of_mem_above member⟩

end Operations

end HellRs.Collections
