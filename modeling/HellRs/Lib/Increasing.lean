import Mathlib

/-! # Lists with increasing keys

The keys are compared by a lawful three-way comparison. A key parts an increasing list into the items below it, the
item it matches, and the items above it.
-/

namespace HellRs

open Std

variable {α κ : Type*} (cmp : κ → κ → Ordering) (key : α → κ)

/-- The keys of the items are strictly increasing. -/
def Increasing (items : List α) : Prop := items.Pairwise fun item item' => cmp (key item) (key item') = .lt

def below (bound : κ) (items : List α) : List α := items.filter fun item => cmp bound (key item) == .gt

def above (bound : κ) (items : List α) : List α := items.filter fun item => cmp bound (key item) == .lt

def matching (bound : κ) (items : List α) : Option α := items.find? fun item => cmp bound (key item) == .eq

variable {cmp key} {bound : κ} {item : α} {items lower upper : List α}

theorem Increasing.nil : Increasing cmp key ([] : List α) := List.Pairwise.nil

theorem mem_below : item ∈ below cmp key bound items ↔ item ∈ items ∧ cmp bound (key item) = .gt := by
  simp [below]

theorem mem_above : item ∈ above cmp key bound items ↔ item ∈ items ∧ cmp bound (key item) = .lt := by
  simp [above]

theorem matching_some (found : matching cmp key bound items = some item) :
    item ∈ items ∧ cmp bound (key item) = .eq :=
  ⟨List.mem_of_find?_eq_some found, by simpa using List.find?_some found⟩

theorem Increasing.below (increasing : Increasing cmp key items) (bound : κ) :
    Increasing cmp key (below cmp key bound items) := List.Pairwise.filter _ increasing

theorem Increasing.above (increasing : Increasing cmp key items) (bound : κ) :
    Increasing cmp key (above cmp key bound items) := List.Pairwise.filter _ increasing

theorem increasing_iff_keys : Increasing cmp key items ↔
    (items.map key).Pairwise fun bound bound' => cmp bound bound' = .lt := by
  rw [Increasing, List.pairwise_map]

theorem increasing_append : Increasing cmp key (lower ++ upper) ↔
    Increasing cmp key lower ∧ Increasing cmp key upper ∧
      ∀ item ∈ lower, ∀ item' ∈ upper, cmp (key item) (key item') = .lt := List.pairwise_append

theorem lt_of_mem_above (member : item ∈ above cmp key bound items) : cmp bound (key item) = .lt :=
  (mem_above.mp member).2

/-- Where a list is parted at a bound of which all its items are on one side. -/
theorem part_of_forall {order : Ordering} (all : ∀ item ∈ items, cmp bound (key item) = order) :
    below cmp key bound items = (if order = .gt then items else []) ∧
      above cmp key bound items = (if order = .lt then items else []) ∧
      (order ≠ .eq → matching cmp key bound items = none) := by
  refine ⟨?_, ?_, fun distinct => ?_⟩
  · split_ifs with same
    · exact List.filter_eq_self.mpr fun item member => by simp [all item member, same]
    · exact List.filter_eq_nil_iff.mpr fun item member => by simp [all item member, same]
  · split_ifs with same
    · exact List.filter_eq_self.mpr fun item member => by simp [all item member, same]
    · exact List.filter_eq_nil_iff.mpr fun item member => by simp [all item member, same]
  · exact List.find?_eq_none.mpr fun item member => by simp [all item member, distinct]

/-- What stands at the place of an inserted item. -/
def Puts (replaces : α → α → Prop) (item : α) : Option α → α → Prop
  | none, put => put = item
  | some old, put => replaces old put

/-- The items with one at the place of the bound. -/
def Inserted (cmp : κ → κ → Ordering) (key : α → κ) (bound : κ) (replaces : α → α → Prop) (item : α)
    (items items' : List α) : Prop :=
  ∃ put, Puts replaces item (matching cmp key bound items) put ∧
    items' = below cmp key bound items ++ put :: above cmp key bound items

section Lawful

variable [TransCmp cmp]

theorem increasing_append_cons : Increasing cmp key (lower ++ item :: upper) ↔
    Increasing cmp key lower ∧ Increasing cmp key upper ∧
      (∀ other ∈ lower, cmp (key other) (key item) = .lt) ∧ ∀ other ∈ upper, cmp (key item) (key other) = .lt := by
  simp only [Increasing, List.pairwise_append, List.pairwise_cons, List.mem_cons, forall_eq_or_imp]
  constructor
  · rintro ⟨lower, ⟨high, upper⟩, apart⟩
    exact ⟨lower, upper, fun other member => (apart other member).1, high⟩
  · rintro ⟨lower, upper, low, high⟩
    exact ⟨lower, ⟨high, upper⟩, fun other member =>
      ⟨low other member, fun last member' => TransCmp.lt_trans (low other member) (high last member')⟩⟩

/-- Two increasing lists that share an item. -/
theorem Increasing.join (increasing : Increasing cmp key (lower ++ [item]))
    (increasing' : Increasing cmp key (item :: upper)) : Increasing cmp key (lower ++ item :: upper) := by
  obtain ⟨low, -, before, -⟩ := increasing_append_cons.mp increasing
  obtain ⟨-, high, -, after⟩ := increasing_append_cons.mp (show Increasing cmp key ([] ++ item :: upper) from increasing')
  exact increasing_append_cons.mpr ⟨low, high, before, after⟩

theorem Increasing.cons {next : α} (lt : cmp (key item) (key next) = .lt)
    (increasing : Increasing cmp key (next :: upper)) : Increasing cmp key (item :: next :: upper) :=
  List.pairwise_cons.mpr ⟨fun other member => by
    rcases List.mem_cons.mp member with rfl | member
    · exact lt
    · exact TransCmp.lt_trans lt ((List.pairwise_cons.mp increasing).1 other member), increasing⟩

theorem lt_of_mem_below (member : item ∈ below cmp key bound items) : cmp (key item) bound = .lt :=
  OrientedCmp.lt_of_gt (mem_below.mp member).2

theorem Increasing.replace (increasing : Increasing cmp key items) (same : cmp bound (key item) = .eq) :
    Increasing cmp key (HellRs.below cmp key bound items ++ item :: HellRs.above cmp key bound items) :=
  increasing_append_cons.mpr ⟨increasing.below bound, increasing.above bound,
    fun _ member => TransCmp.lt_of_lt_of_eq (lt_of_mem_below member) same,
    fun _ member => TransCmp.lt_of_eq_of_lt (OrientedCmp.eq_symm same) (lt_of_mem_above member)⟩

theorem Increasing.remove (increasing : Increasing cmp key items) (bound : κ) :
    Increasing cmp key (HellRs.below cmp key bound items ++ HellRs.above cmp key bound items) :=
  increasing_append.mpr ⟨increasing.below bound, increasing.above bound, fun _ member _ member' =>
    TransCmp.lt_trans (lt_of_mem_below member) (lt_of_mem_above member')⟩

section Middle

variable (increasing : Increasing cmp key (lower ++ item :: upper))
include increasing

theorem part_lt (lt : cmp bound (key item) = .lt) :
    below cmp key bound (lower ++ item :: upper) = below cmp key bound lower ∧
      above cmp key bound (lower ++ item :: upper) = above cmp key bound lower ++ item :: upper ∧
      matching cmp key bound (lower ++ item :: upper) = matching cmp key bound lower := by
  obtain ⟨-, -, -, high⟩ := increasing_append_cons.mp increasing
  obtain ⟨none, all, unmatched⟩ := part_of_forall fun other (member : other ∈ upper) =>
    TransCmp.lt_trans lt (high other member)
  simp only [below, above, matching] at none all unmatched ⊢
  simp [List.find?_append, none, all, unmatched, lt]

theorem part_eq (eq : cmp bound (key item) = .eq) :
    below cmp key bound (lower ++ item :: upper) = lower ∧
      above cmp key bound (lower ++ item :: upper) = upper ∧
      matching cmp key bound (lower ++ item :: upper) = some item := by
  obtain ⟨-, -, low, high⟩ := increasing_append_cons.mp increasing
  obtain ⟨allLow, noneLow, unmatched⟩ := part_of_forall fun other (member : other ∈ lower) =>
    OrientedCmp.gt_of_lt (TransCmp.lt_of_lt_of_eq (low other member) (OrientedCmp.eq_symm eq))
  obtain ⟨noneHigh, allHigh, -⟩ := part_of_forall fun other (member : other ∈ upper) =>
    TransCmp.lt_of_eq_of_lt eq (high other member)
  simp only [below, above, matching] at allLow noneLow unmatched noneHigh allHigh ⊢
  simp [List.find?_append, *]

theorem part_gt (gt : cmp bound (key item) = .gt) :
    below cmp key bound (lower ++ item :: upper) = lower ++ item :: below cmp key bound upper ∧
      above cmp key bound (lower ++ item :: upper) = above cmp key bound upper ∧
      matching cmp key bound (lower ++ item :: upper) = matching cmp key bound upper := by
  obtain ⟨-, -, low, -⟩ := increasing_append_cons.mp increasing
  obtain ⟨all, none, unmatched⟩ := part_of_forall fun other (member : other ∈ lower) =>
    TransCmp.gt_trans gt (OrientedCmp.gt_of_lt (low other member))
  simp only [below, above, matching] at none all unmatched ⊢
  simp [List.find?_append, none, all, unmatched, gt]

variable {replaces : α → α → Prop} {put new : α} {lower' upper' : List α}

theorem Inserted.of_lt (lt : cmp bound (key item) = .lt)
    (inserted : Inserted cmp key bound replaces new lower lower') :
    Inserted cmp key bound replaces new (lower ++ item :: upper) (lower' ++ item :: upper) := by
  obtain ⟨put, puts, rfl⟩ := inserted
  obtain ⟨belowItems, aboveItems, found⟩ := part_lt increasing lt
  exact ⟨put, by rwa [found], by rw [belowItems, aboveItems, List.append_assoc, List.cons_append]⟩

theorem Inserted.of_eq (new : α) (eq : cmp bound (key item) = .eq) (replaced : replaces item put) :
    Inserted cmp key bound replaces new (lower ++ item :: upper) (lower ++ put :: upper) := by
  obtain ⟨belowItems, aboveItems, found⟩ := part_eq increasing eq
  exact ⟨put, by rwa [found], by rw [belowItems, aboveItems]⟩

theorem Inserted.of_gt (gt : cmp bound (key item) = .gt)
    (inserted : Inserted cmp key bound replaces new upper upper') :
    Inserted cmp key bound replaces new (lower ++ item :: upper) (lower ++ item :: upper') := by
  obtain ⟨put, puts, rfl⟩ := inserted
  obtain ⟨belowItems, aboveItems, found⟩ := part_gt increasing gt
  exact ⟨put, by rwa [found], by rw [belowItems, aboveItems, List.append_assoc, List.cons_append]⟩

end Middle

section Inserted

variable {replaces : α → α → Prop} {items' : List α} (inserted : Inserted cmp key (key item) replaces item items items')
  (kept : ∀ old put, replaces old put → key put = key item ∨ key put = key old)
include inserted kept

theorem Inserted.increasing (increasing : Increasing cmp key items) : Increasing cmp key items' := by
  obtain ⟨put, puts, rfl⟩ := inserted
  refine increasing.replace ?_
  cases found : matching cmp key (key item) items with
  | none =>
    rw [found] at puts
    rw [show put = item from puts]
    exact ReflCmp.compare_self
  | some old =>
    rw [found] at puts
    rcases kept old put puts with same | same
    · rw [same]
      exact ReflCmp.compare_self
    · rw [same, (matching_some found).2]

omit [TransCmp cmp] in
theorem Inserted.key_mem {other : α} (member : other ∈ items') :
    key other = key item ∨ ∃ old ∈ items, key other = key old := by
  obtain ⟨put, puts, rfl⟩ := inserted
  rcases List.mem_append.mp member with low | high
  · exact .inr ⟨other, (mem_below.mp low).1, rfl⟩
  · rcases List.mem_cons.mp high with rfl | high
    · cases found : matching cmp key (key item) items with
      | none =>
        rw [found] at puts
        exact .inl (congrArg key puts)
      | some old =>
        rw [found] at puts
        exact (kept old other puts).imp_right fun same => ⟨old, (matching_some found).1, same⟩
    · exact .inr ⟨other, (mem_above.mp high).1, rfl⟩

end Inserted

end Lawful

end HellRs
