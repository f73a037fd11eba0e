import Mathlib
import HellRs.Lib.Increasing

/-! # What a list with increasing keys holds

The contents of a list are the partial function from bounds to the items that they match. Lists with increasing keys
and the same contents are equal, so an operation on them is known by its effect on contents.
-/

namespace HellRs

open Std

variable {α κ : Type*} {cmp : κ → κ → Ordering} {key : α → κ} {bound : κ} {item : α} {items items' lower upper : List α}

/-- The item of each key. -/
abbrev Contents (κ α : Type*) := κ → Option α

def contents (cmp : κ → κ → Ordering) (key : α → κ) (items : List α) : Contents κ α := fun bound =>
  matching cmp key bound items

namespace Contents

variable (cmp)

def empty : Contents κ α := fun _ => none

/-- The contents with an item at a key. -/
def put (bound : κ) (item : α) (held : Contents κ α) : Contents κ α := fun other =>
  if cmp other bound = .eq then some item else held other

def drop (bound : κ) (held : Contents κ α) : Contents κ α := fun other =>
  if cmp other bound = .eq then none else held other

/-- The contents with the item at a key changed. -/
def adjust (bound : κ) (change : α → α) (held : Contents κ α) : Contents κ α := fun other =>
  if cmp other bound = .eq then (held other).map change else held other

variable {cmp}

/-- The union, with the items of common keys combined. -/
def unionWith (combine : α → α → α) (held held' : Contents κ α) : Contents κ α := fun other =>
  (held other).merge combine (held' other)

/-- The union, with the items of the left operand at common keys. -/
abbrev union : Contents κ α → Contents κ α → Contents κ α := unionWith fun item _ => item

def difference (held held' : Contents κ α) : Contents κ α := fun other =>
  if (held' other).isSome then none else held other

def intersection (held held' : Contents κ α) : Contents κ α := fun other =>
  if (held' other).isSome then held other else none

/-- The contents on both sides of a bound. -/
def parted (cmp : κ → κ → Ordering) (bound : κ) (lower : Contents κ α) (found : Option α) (upper : Contents κ α) :
    Contents κ α := fun other =>
  match cmp other bound with
  | .lt => lower other
  | .eq => found
  | .gt => upper other

section Parted

variable {low up low' up' : Contents κ α} {found found' : Option α}

theorem parted_unionWith (combine : α → α → α) :
    (parted cmp bound low found up).unionWith combine (parted cmp bound low' found' up') =
      parted cmp bound (low.unionWith combine low') (found.merge combine found') (up.unionWith combine up') := by
  funext other
  simp only [unionWith, parted]
  cases cmp other bound <;> rfl

theorem parted_difference :
    (parted cmp bound low found up).difference (parted cmp bound low' found' up') =
      parted cmp bound (low.difference low') (if found'.isSome then none else found) (up.difference up') := by
  funext other
  cases order : cmp other bound <;> simp only [difference, parted, order]

theorem parted_intersection :
    (parted cmp bound low found up).intersection (parted cmp bound low' found' up') =
      parted cmp bound (low.intersection low') (if found'.isSome then found else none) (up.intersection up') := by
  funext other
  cases order : cmp other bound <;> simp only [intersection, parted, order]

end Parted

theorem of_difference {held held' : Contents κ α} (left : held.difference held' bound = some item) :
    held bound = some item := by
  simp only [difference] at left
  split at left
  · cases left
  · exact left

section Adjust

variable [TransCmp cmp] {low up : Contents κ α} {other : κ} (found : Option α) (change : α → α)

theorem adjust_parted_lt (lt : cmp bound other = .lt) :
    (parted cmp other low found up).adjust cmp bound change = parted cmp other (low.adjust cmp bound change) found up := by
  funext place
  by_cases same : cmp place bound = .eq
  · simp only [adjust, parted, same, TransCmp.lt_of_eq_of_lt same lt, if_true]
  · cases order : cmp place other <;> simp only [adjust, parted, order, same, if_false]

theorem adjust_parted_eq (eq : cmp bound other = .eq) :
    (parted cmp other low found up).adjust cmp bound change = parted cmp other low (found.map change) up := by
  funext place
  by_cases same : cmp place bound = .eq
  · simp only [adjust, parted, same, TransCmp.eq_trans same eq, if_true]
  · have apart : cmp place other ≠ .eq := fun same' => same (TransCmp.eq_trans same' (OrientedCmp.eq_symm eq))
    cases order : cmp place other with
    | eq => exact absurd order apart
    | _ => simp only [adjust, parted, order, same, if_false]

theorem adjust_parted_gt (gt : cmp bound other = .gt) :
    (parted cmp other low found up).adjust cmp bound change = parted cmp other low found (up.adjust cmp bound change) := by
  funext place
  by_cases same : cmp place bound = .eq
  · simp only [adjust, parted, same, TransCmp.gt_of_eq_of_gt same gt, if_true]
  · cases order : cmp place other <;> simp only [adjust, parted, order, same, if_false]

end Adjust

section Empty

variable (held : Contents κ α)

theorem empty_unionWith (combine : α → α → α) : empty.unionWith combine held = held :=
  funext fun _ => Option.merge_none_left

theorem unionWith_empty (combine : α → α → α) : held.unionWith combine empty = held :=
  funext fun _ => Option.merge_none_right

theorem empty_difference : empty.difference held = empty := by
  funext other
  simp [difference, empty]

theorem difference_empty : held.difference empty = held := rfl

theorem empty_intersection : empty.intersection held = empty := by
  funext other
  simp [intersection, empty]

theorem intersection_empty : held.intersection empty = empty := rfl

end Empty

end Contents

open Contents

theorem contents_nil : contents cmp key ([] : List α) = empty := rfl

section Lawful

variable [TransCmp cmp]

theorem contents_eq_some (increasing : Increasing cmp key items) :
    contents cmp key items bound = some item ↔ item ∈ items ∧ cmp bound (key item) = .eq := by
  refine ⟨matching_some, fun ⟨member, same⟩ => ?_⟩
  obtain ⟨lower, upper, rfl⟩ := List.append_of_mem member
  exact (part_eq increasing same).2.2

theorem contents_self (increasing : Increasing cmp key items) :
    contents cmp key items (key item) = some item ↔ item ∈ items := by
  rw [contents_eq_some increasing]
  exact and_iff_left ReflCmp.compare_self

/-- Lists with increasing keys are known by their contents. -/
theorem contents_injective (increasing : Increasing cmp key items) (increasing' : Increasing cmp key items')
    (same : contents cmp key items = contents cmp key items') : items = items' := by
  have : Std.Irrefl fun item item' : α => cmp (key item) (key item') = .lt :=
    ⟨fun item less => nomatch less.symm.trans (@ReflCmp.compare_self _ cmp _ _)⟩
  have : Std.Antisymm fun item item' : α => cmp (key item) (key item') = .lt :=
    ⟨fun item item' less greater => by rw [OrientedCmp.gt_of_lt less] at greater; cases greater⟩
  refine List.Pairwise.eq_of_mem_iff increasing increasing' fun item => ?_
  rw [← contents_self increasing, ← contents_self increasing', same]

theorem Increasing.nodup (increasing : Increasing cmp key items) : items.Nodup :=
  List.Pairwise.imp (fun less => by
    rintro rfl
    exact nomatch less.symm.trans (@ReflCmp.compare_self _ cmp _ _)) increasing

/-- Bounds that compare equal match the same item. -/
theorem contents_congr {other : κ} (same : cmp bound other = .eq) :
    contents cmp key items bound = contents cmp key items other := by
  simp only [contents, matching, TransCmp.congr_left same]

theorem contents_singleton (item : α) : contents cmp key [item] = empty.put cmp (key item) item := by
  funext other
  cases order : cmp other (key item) <;> simp [contents, matching, Contents.put, empty, order]

/-- A union with one item puts the item, combined with the one that stands at its key. -/
theorem singleton_unionWith (combine : α → α → α) (item : α) (items : List α) :
    (contents cmp key [item]).unionWith combine (contents cmp key items) = (contents cmp key items).put cmp (key item)
      ((contents cmp key items (key item)).elim item (combine item)) := by
  funext other
  simp only [contents_singleton, unionWith, Contents.put]
  split
  next same =>
    rw [contents_congr same]
    cases contents cmp key items (key item) <;> rfl
  next => exact Option.merge_none_left

theorem unionWith_singleton (combine : α → α → α) (item : α) (items : List α) :
    (contents cmp key items).unionWith combine (contents cmp key [item]) = (contents cmp key items).put cmp (key item)
      ((contents cmp key items (key item)).elim item fun old => combine old item) := by
  funext other
  simp only [contents_singleton, unionWith, Contents.put]
  split
  next same =>
    rw [contents_congr same]
    cases contents cmp key items (key item) <;> rfl
  next => exact Option.merge_none_right

section Parts

theorem contents_below (items : List α) (lt : cmp bound bound' = .lt) :
    contents cmp key (below cmp key bound' items) bound = contents cmp key items bound := by
  simp only [contents, matching, below, List.find?_filter]
  refine List.find?_congr fun item _ => ?_
  cases same : cmp bound (key item) with
  | eq => simp [TransCmp.gt_of_gt_of_eq (OrientedCmp.gt_of_lt lt) same]
  | _ => simp

theorem contents_above (items : List α) (gt : cmp bound bound' = .gt) :
    contents cmp key (above cmp key bound' items) bound = contents cmp key items bound := by
  simp only [contents, matching, above, List.find?_filter]
  refine List.find?_congr fun item _ => ?_
  cases same : cmp bound (key item) with
  | eq => simp [TransCmp.lt_of_lt_of_eq (OrientedCmp.lt_of_gt gt) same]
  | _ => simp

/-- The parts at a bound. -/
theorem contents_parts (items : List α) (bound : κ) :
    contents cmp key items = parted cmp bound (contents cmp key (below cmp key bound items))
      (contents cmp key items bound) (contents cmp key (above cmp key bound items)) := by
  funext other
  simp only [parted]
  split
  next lt => exact (contents_below items lt).symm
  next eq => exact contents_congr eq
  next gt => exact (contents_above items gt).symm

theorem contents_append_cons (increasing : Increasing cmp key (lower ++ item :: upper)) :
    contents cmp key (lower ++ item :: upper) =
      parted cmp (key item) (contents cmp key lower) (some item) (contents cmp key upper) := by
  funext other
  simp only [parted, contents]
  split
  next lt => exact (part_lt increasing lt).2.2
  next eq => exact (part_eq increasing eq).2.2
  next gt => exact (part_gt increasing gt).2.2

/-- No item between the two lists matches the bound that keeps them apart. -/
theorem contents_append (low : ∀ item ∈ lower, cmp (key item) bound = .lt)
    (up : ∀ item ∈ upper, cmp bound (key item) = .lt) :
    contents cmp key (lower ++ upper) =
      parted cmp bound (contents cmp key lower) none (contents cmp key upper) := by
  funext other
  simp only [parted, contents, matching, List.find?_append]
  have noLower (notLess : cmp other bound ≠ .lt) : lower.find? (fun item => cmp other (key item) == .eq) = none := by
    refine List.find?_eq_none.mpr fun item member same => notLess ?_
    exact TransCmp.lt_of_eq_of_lt (beq_iff_eq.mp same) (low item member)
  have noUpper (notGreater : cmp other bound ≠ .gt) : upper.find? (fun item => cmp other (key item) == .eq) = none := by
    refine List.find?_eq_none.mpr fun item member same => notGreater ?_
    exact OrientedCmp.gt_of_lt (TransCmp.lt_of_lt_of_eq (up item member) (OrientedCmp.eq_symm (beq_iff_eq.mp same)))
  split
  next lt => rw [noUpper (by simp [lt]), Option.or_none]
  next eq => rw [noLower (by simp [eq]), noUpper (by simp [eq]), Option.or_none]
  next gt => rw [noLower (by simp [gt]), Option.none_or]

end Parts

theorem contents_insertion (increasing : Increasing cmp key (below cmp key bound items ++ item :: above cmp key bound items))
    (same : cmp bound (key item) = .eq) :
    contents cmp key (below cmp key bound items ++ item :: above cmp key bound items) =
      (contents cmp key items).put cmp bound item := by
  rw [contents_append_cons increasing]
  funext other
  have order : cmp other (key item) = cmp other bound := (TransCmp.congr_right same).symm
  simp only [parted, Contents.put, order]
  split
  next lt => rw [contents_below items lt, if_neg (by simp [lt])]
  next eq => rw [if_pos eq]
  next gt => rw [contents_above items gt, if_neg (by simp [gt])]

theorem contents_removed (items : List α) (bound : κ) :
    contents cmp key (below cmp key bound items ++ above cmp key bound items) =
      (contents cmp key items).drop cmp bound := by
  rw [contents_append (fun _ member => lt_of_mem_below member) fun _ member => lt_of_mem_above member]
  funext other
  simp only [parted, Contents.drop]
  split
  next lt => rw [contents_below items lt, if_neg (by simp [lt])]
  next eq => rw [if_pos eq]
  next gt => rw [contents_above items gt, if_neg (by simp [gt])]

/-- Items in order are as if put one after the other. -/
theorem contents_foldl (increasing : Increasing cmp key items) :
    contents cmp key items = items.foldl (fun held item => held.put cmp (key item) item) empty := by
  induction items using List.reverseRecOn with
  | nil => rfl
  | append_singleton items item ih =>
    obtain ⟨before, -, less, -⟩ := increasing_append_cons.mp increasing
    rw [List.foldl_append, List.foldl_cons, List.foldl_nil, ← ih before, contents_append_cons increasing]
    funext other
    simp only [parted, Contents.put]
    split
    next lt => rw [if_neg (by simp [lt])]
    next eq => rw [if_pos eq]
    next gt =>
      rw [if_neg (by simp [gt])]
      refine (List.find?_eq_none.mpr fun item' member same => ?_).symm
      have := TransCmp.gt_of_eq_of_gt (OrientedCmp.eq_symm (beq_iff_eq.mp same)) gt
      rw [less item' member] at this
      cases this

theorem contents_append_foldl (increasing : Increasing cmp key (lower ++ upper)) :
    contents cmp key (lower ++ upper) = upper.foldl (fun held item => held.put cmp (key item) item) (contents cmp key lower) := by
  rw [contents_foldl increasing, List.foldl_append, ← contents_foldl (increasing_append.mp increasing).1]

/-- A part that is as long as the whole is the whole. -/
theorem eq_of_subset (increasing : Increasing cmp key items) (increasing' : Increasing cmp key items')
    (subset : items ⊆ items') (long : items'.length ≤ items.length) : items = items' := by
  have perm := (List.subperm_of_subset increasing.nodup subset).perm_of_length_le long
  exact contents_injective increasing increasing' (funext fun bound => Option.ext fun item => by
    rw [contents_eq_some increasing, contents_eq_some increasing', perm.mem_iff])

end Lawful

end HellRs
