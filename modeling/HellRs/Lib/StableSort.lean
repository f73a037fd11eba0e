import Mathlib
import HellRs.Lib.Increasing

/-! # Stable sorting

A list is the stable sort of another if it is a permutation of it, its keys do not decrease, and the items of each key stand
in the order in which the other list has them. There is one such list. It can be put together from runs: a run that strictly
decreases may be reversed, and two neighbouring runs may be merged.
-/

namespace HellRs

open Std

variable {α κ : Type*} (cmp : κ → κ → Ordering) (key : α → κ)

/-- The keys of the items do not decrease. -/
def NonDecreasing (items : List α) : Prop := items.Pairwise fun item item' => (cmp (key item) (key item')).isLE = true

/-- The keys of the items strictly decrease. -/
def Decreasing (items : List α) : Prop := items.Pairwise fun item item' => cmp (key item) (key item') = .gt

/-- The items of a key. -/
def alike (bound : κ) (items : List α) : List α := items.filter fun item => cmp bound (key item) == .eq

structure StableSort (input output : List α) : Prop where
  perm : output.Perm input
  inOrder : NonDecreasing cmp key output
  stable : ∀ bound, alike cmp key bound output = alike cmp key bound input

/-- The runs hold the items of a list in an order from which merging makes the stable sort. -/
structure StableRuns (input : List α) (runs : List (List α)) : Prop where
  perm : runs.flatten.Perm input
  inOrder : ∀ run ∈ runs, NonDecreasing cmp key run
  stable : ∀ bound, alike cmp key bound runs.flatten = alike cmp key bound input

variable {cmp key} {bound : κ} {items left right input output output' : List α}

@[simp] theorem alike_nil : alike cmp key bound ([] : List α) = [] := rfl

@[simp] theorem alike_append : alike cmp key bound (left ++ right) = alike cmp key bound left ++ alike cmp key bound right :=
  List.filter_append ..

theorem mem_alike {item : α} : item ∈ alike cmp key bound items ↔ item ∈ items ∧ cmp bound (key item) = .eq := by
  simp [alike]

theorem alike_cons_of_eq {item : α} (same : cmp bound (key item) = .eq) :
    alike cmp key bound (item :: items) = item :: alike cmp key bound items :=
  List.filter_cons_of_pos (by simp [same])

theorem alike_cons_of_ne {item : α} (other : cmp bound (key item) ≠ .eq) :
    alike cmp key bound (item :: items) = alike cmp key bound items :=
  List.filter_cons_of_neg (by simpa using other)

/-- A single run is the stable sort. -/
theorem StableRuns.single (stable : StableRuns cmp key input [output]) : StableSort cmp key input output := by
  obtain ⟨perm, inOrder, stable⟩ := stable
  rw [List.flatten_singleton] at perm
  simp only [List.flatten_singleton] at stable
  exact ⟨perm, inOrder output List.mem_cons_self, stable⟩

/-- The stable sort of a list of images. -/
theorem StableSort.map {β : Type*} {key' : β → κ} {image : α → β} (stable : StableSort cmp key input output)
    (same : ∀ item, key' (image item) = key item) : StableSort cmp key' (input.map image) (output.map image) where
  perm := stable.perm.map image
  inOrder := by
    rw [NonDecreasing, List.pairwise_map]
    simp only [same]
    exact stable.inOrder
  stable bound := by
    simp only [alike, List.filter_map, Function.comp_def, same]
    exact congrArg _ (stable.stable bound)

/-- A run that is the stable sort of the items before. -/
theorem StableSort.cons {run : List α} {runs : List (List α)} (stable : StableSort cmp key items run)
    (rest : StableRuns cmp key input runs) : StableRuns cmp key (items ++ input) (run :: runs) where
  perm := stable.perm.append rest.perm
  inOrder run' member := (List.mem_cons.mp member).elim (fun same => same ▸ stable.inOrder) (rest.inOrder run')
  stable bound := by
    rw [List.flatten_cons, alike_append, alike_append, stable.stable bound, rest.stable bound]

section Merge

variable [TransCmp cmp]

theorem isLE_total (first second : κ) : ((cmp first second).isLE || (cmp second first).isLE) = true := by
  rw [Bool.or_eq_true, ← @OrientedCmp.isGE_iff_isLE _ cmp _ first]
  cases cmp first second <;> simp

/-- Before an item that is greater than the least of a run, no item of the run is alike. -/
theorem alike_eq_nil_of_lt (bounded : ∀ item ∈ items, cmp bound (key item) = .lt) : alike cmp key bound items = [] := by
  rw [List.eq_nil_iff_forall_not_mem]
  intro item member
  obtain ⟨member, same⟩ := mem_alike.mp member
  rw [bounded item member] at same
  cases same

/-- Merging prefers the left list, so alike items of the left list come first. -/
theorem alike_merge (leftInOrder : NonDecreasing cmp key left) : alike cmp key bound
    (left.merge right fun item item' => (cmp (key item) (key item')).isLE) =
      alike cmp key bound left ++ alike cmp key bound right := by
  induction left generalizing right with
  | nil => simp
  | cons first left ihLeft =>
    induction right with
    | nil => simp
    | cons first' right ihRight =>
      rw [List.cons_merge_cons]
      split
      next =>
        by_cases same : cmp bound (key first) = .eq
        · rw [alike_cons_of_eq same, alike_cons_of_eq same, ihLeft leftInOrder.tail, List.cons_append]
        · rw [alike_cons_of_ne same, alike_cons_of_ne same, ihLeft leftInOrder.tail]
      next greater =>
        by_cases same : cmp bound (key first') = .eq
        · -- the least item of the left list is greater already, so none of them is alike
          have below : cmp bound (key first) = .lt := by
            have below : cmp (key first') (key first) = .lt := by
              rw [← OrientedCmp.gt_iff_lt]
              cases order : cmp (key first) (key first') <;> simp_all
            exact TransCmp.lt_of_eq_of_lt same below
          have none : alike cmp key bound (first :: left) = [] := by
            refine alike_eq_nil_of_lt fun item member => ?_
            rcases List.mem_cons.mp member with rfl | member
            · exact below
            · exact TransCmp.lt_of_lt_of_isLE below (List.rel_of_pairwise_cons leftInOrder member)
          rw [alike_cons_of_eq same, alike_cons_of_eq same, ihRight, none, List.nil_append, List.nil_append]
        · rw [alike_cons_of_ne same, alike_cons_of_ne same, ihRight]

theorem nonDecreasing_merge (leftInOrder : NonDecreasing cmp key left) (rightInOrder : NonDecreasing cmp key right) :
    NonDecreasing cmp key (left.merge right fun item item' => (cmp (key item) (key item')).isLE) :=
  List.pairwise_merge (fun _ _ _ => TransCmp.isLE_trans) (fun _ _ => isLE_total _ _) _ _ leftInOrder rightInOrder

/-- Two neighbouring runs may be merged. -/
theorem StableRuns.merge {before after : List (List α)} (stable : StableRuns cmp key input (before ++ left :: right :: after)) :
    StableRuns cmp key input
      (before ++ (left.merge right fun item item' => (cmp (key item) (key item')).isLE) :: after) := by
  obtain ⟨perm, inOrder, stable⟩ := stable
  have leftInOrder := inOrder left (by simp)
  refine ⟨?_, fun run member => ?_, fun bound => ?_⟩
  · refine List.Perm.trans ?_ perm
    simp only [List.flatten_append, List.flatten_cons]
    rw [← List.append_assoc left]
    exact (List.Perm.append_right _ (List.merge_perm_append _)).append_left _
  · rcases List.mem_append.mp member with inBefore | inAfter
    · exact inOrder run (List.mem_append_left _ inBefore)
    · rcases List.mem_cons.mp inAfter with rfl | inAfter
      · exact nonDecreasing_merge leftInOrder (inOrder right (by simp))
      · exact inOrder run (by simp [inAfter])
  · rw [← stable bound]
    simp only [List.flatten_append, List.flatten_cons, alike_append, alike_merge leftInOrder, List.append_assoc]

/-- A strictly decreasing run has at most one item of each key, so it may be reversed. -/
theorem alike_reverse (decreasing : Decreasing cmp key items) :
    alike cmp key bound items.reverse = alike cmp key bound items := by
  induction items with
  | nil => rfl
  | cons first items ih =>
    rw [List.reverse_cons, alike_append, ih decreasing.tail]
    by_cases same : cmp bound (key first) = .eq
    · have none : alike cmp key bound items = [] := by
        rw [List.eq_nil_iff_forall_not_mem]
        intro item member
        obtain ⟨member, same'⟩ := mem_alike.mp member
        have greater := List.rel_of_pairwise_cons decreasing member
        rw [← TransCmp.congr_left same, same'] at greater
        cases greater
      rw [alike_cons_of_eq same, alike_cons_of_eq same, none]
      rfl
    · rw [alike_cons_of_ne same, alike_cons_of_ne same, alike_nil, List.append_nil]

theorem nonDecreasing_reverse (decreasing : Decreasing cmp key items) : NonDecreasing cmp key items.reverse := by
  rw [NonDecreasing, List.pairwise_reverse]
  refine List.Pairwise.imp (fun greater => ?_) decreasing
  rw [← OrientedCmp.isGE_iff_isLE, greater]
  rfl

/-- The stable sort is unique. -/
theorem StableSort.unique (stable : StableSort cmp key input output) (stable' : StableSort cmp key input output') :
    output = output' := by
  -- the induction is on a list that agrees with the other in the items of each key
  have unique (output output' : List α) (perm : output.Perm output') (inOrder : NonDecreasing cmp key output)
      (inOrder' : NonDecreasing cmp key output')
      (same : ∀ bound, alike cmp key bound output = alike cmp key bound output') : output = output' := by
    induction output generalizing output' with
    | nil => exact (List.nil_perm.mp perm).symm
    | cons first output ih =>
      cases output' with
      | nil => exact absurd (List.perm_nil.mp perm) (List.cons_ne_nil _ _)
      | cons first' output' =>
        have least : (cmp (key first) (key first')).isLE = true := by
          rcases List.mem_cons.mp (perm.symm.subset List.mem_cons_self) with rfl | member
          · rw [@ReflCmp.compare_self _ cmp _ _]
            rfl
          · exact List.rel_of_pairwise_cons inOrder member
        have least' : (cmp (key first') (key first)).isLE = true := by
          rcases List.mem_cons.mp (perm.subset List.mem_cons_self) with rfl | member
          · rw [@ReflCmp.compare_self _ cmp _ _]
            rfl
          · exact List.rel_of_pairwise_cons inOrder' member
        have alikes := same (key first)
        rw [alike_cons_of_eq ReflCmp.compare_self, alike_cons_of_eq (OrientedCmp.isLE_antisymm least least')] at alikes
        obtain ⟨rfl, -⟩ := List.cons.inj alikes
        refine congrArg _ (ih output' perm.cons_inv inOrder.tail inOrder'.tail fun bound => ?_)
        have alikes := same bound
        by_cases eq : cmp bound (key first) = .eq
        · rw [alike_cons_of_eq eq, alike_cons_of_eq eq] at alikes
          exact (List.cons.inj alikes).2
        · rwa [alike_cons_of_ne eq, alike_cons_of_ne eq] at alikes
  exact unique output output' (stable.perm.trans stable'.perm.symm) stable.inOrder stable'.inOrder
    fun bound => (stable.stable bound).trans (stable'.stable bound).symm

/-- The stable sort exists. -/
theorem stableSort_mergeSort (cmp : κ → κ → Ordering) [TransCmp cmp] (key : α → κ) (input : List α) :
    StableSort cmp key input (input.mergeSort fun item item' => (cmp (key item) (key item')).isLE) := by
  have trans (a b c : α) : (cmp (key a) (key b)).isLE = true → (cmp (key b) (key c)).isLE = true →
      (cmp (key a) (key c)).isLE = true := TransCmp.isLE_trans
  have total (a b : α) : ((cmp (key a) (key b)).isLE || (cmp (key b) (key a)).isLE) = true := isLE_total _ _
  have perm := input.mergeSort_perm fun item item' => (cmp (key item) (key item')).isLE
  refine ⟨perm, List.pairwise_mergeSort trans total input, fun bound => ?_⟩
  have inOrder : (alike cmp key bound input).Pairwise fun item item' => (cmp (key item) (key item')).isLE = true := by
    refine List.pairwise_of_forall_mem_list fun item member item' member' => ?_
    rw [← TransCmp.congr_left (mem_alike.mp member).2, (mem_alike.mp member').2]
    rfl
  have sublist := (List.sublist_mergeSort trans total inOrder List.filter_sublist).filter
    fun item => cmp bound (key item) == .eq
  rw [alike, List.filter_filter] at sublist
  simp only [Bool.and_self] at sublist
  exact (sublist.eq_of_length (perm.filter _).length_eq.symm).symm

end Merge

end HellRs
