import Mathlib
import HellRs.Lists.Producers

/-! # What the producers produce

Each thunk stands for a list: that of a stage of the permutations is the reference's inner loop. Forcing a thunk ends with the
first cell of its list, so by induction of the list any beginning of it can be demanded.
-/

namespace HellRs.Lists

variable {α : Type}

/-! ## Reference definitions -/

/-- `nonEmptySubsequences` of `Data.List`. -/
def nonEmptySubsequences : List α → List (List α)
  | [] => []
  | item :: items => [item] :: (nonEmptySubsequences items).foldr (fun subset rest => subset :: (item :: subset) :: rest) []

def subsequences (items : List α) : List (List α) := [] :: nonEmptySubsequences items

/-- `[head | (head : _) <- rows]`. -/
def heads (rows : List (List α)) : List α := rows.filterMap List.head?

/-- `[tail | (_ : tail) <- rows]`. -/
def tails (rows : List (List α)) : List (List α) := rows.filterMap List.tail?

@[simp] theorem heads_nil (rows : List (List α)) : heads ([] :: rows) = heads rows := List.filterMap_cons_none rfl

@[simp] theorem heads_cons (item : α) (items : List α) (rows : List (List α)) : heads ((item :: items) :: rows) = item :: heads rows :=
  List.filterMap_cons_some rfl

@[simp] theorem tails_nil (rows : List (List α)) : tails ([] :: rows) = tails rows := List.filterMap_cons_none rfl

@[simp] theorem tails_cons (item : α) (items : List α) (rows : List (List α)) : tails ((item :: items) :: rows) = items :: tails rows :=
  List.filterMap_cons_some rfl

theorem sum_tails (rows : List (List α)) :
    (tails rows).length + ((tails rows).map List.length).sum ≤ rows.length + (rows.map List.length).sum := by
  induction rows with
  | nil => exact Nat.le_refl _
  | cons row rows ih =>
    cases row with
    | nil =>
      rw [tails_nil, List.length_cons, List.map_cons, List.sum_cons]
      omega
    | cons item items =>
      rw [tails_cons]
      simp only [List.length_cons, List.map_cons, List.sum_cons]
      omega

/-- `transpose` of `Data.List`. -/
def transpose : List (List α) → List (List α)
  | [] => []
  | [] :: rows => transpose rows
  | (item :: items) :: rows => (item :: heads rows) :: transpose (items :: tails rows)
termination_by rows => rows.length + (rows.map List.length).sum
decreasing_by
  · simp
  · have fewer := sum_tails rows
    simp only [List.length_cons, List.map_cons, List.sum_cons]
    omega

/-- The inner loop of `permutations`: the item before each element of a permutation, whose beginning was passed. -/
def interleaved (item : α) (suffix passed : List α) : List α → List (List α)
  | [] => []
  | head :: tail => (passed ++ item :: (head :: tail) ++ suffix) :: interleaved item suffix (passed ++ [head]) tail

theorem interleaved_eq_map (item : α) (suffix passed items : List α) :
    interleaved item suffix passed items = (interleaved item suffix [] items).map (passed ++ ·) := by
  induction items generalizing passed with
  | nil => rfl
  | cons head tail ih =>
    rw [interleaved, interleaved, ih (passed ++ [head]), ih ([] ++ [head]), List.map_cons, List.map_map]
    simp [Function.comp_def]

theorem permutationsAux2_eq {β : Type} (item : α) (suffix : List α) (rest : List β) (items : List α) (change : List α → β) :
    (List.permutationsAux2 item suffix rest items change).2 = (interleaved item suffix [] items).map change ++ rest := by
  induction items generalizing change with
  | nil => rfl
  | cons head tail ih =>
    rw [List.permutationsAux2_snd_cons, ih, interleaved, interleaved_eq_map item suffix ([] ++ [head]), List.map_cons, List.map_map]
    simp [Function.comp_def]

/-- One stage: the item is inserted in the permutations of what was passed. -/
theorem permutationsAux_cons_eq (item : α) (suffix passed : List α) : List.permutationsAux (item :: suffix) passed =
    passed.permutations.flatMap (interleaved item suffix []) ++ List.permutationsAux suffix (item :: passed) := by
  rw [List.permutationsAux_cons]
  induction passed.permutations with
  | nil => rfl
  | cons prefix_ rest ih =>
    rw [List.foldr_cons, permutationsAux2_eq, ih, List.map_id, List.flatMap_cons, List.append_assoc]

theorem subsequences_eq (items : List α) : subsequences items = items.sublists := by
  induction items with
  | nil => rfl
  | cons item items ih =>
    have pairs (subsets : List (List α)) : subsets.foldr (fun subset rest => subset :: (item :: subset) :: rest) [] =
        subsets.flatMap fun subset => [subset, item :: subset] := by
      induction subsets with
      | nil => rfl
      | cons subset subsets ih => rw [List.foldr_cons, ih, List.flatMap_cons]; rfl
    rw [subsequences, nonEmptySubsequences, pairs, List.sublists_cons, ← ih]
    rfl

/-! ## Elements -/

/-- The list that a thunk stands for. -/
def Items.value : Items α → List α
  | .evaluated items => items
  | .cons head tail => head :: tail.value
  | .append left right => left.value ++ right.value

def cellValue : ListCell α (Items α) → List α
  | .nil => []
  | .cons head tail => head :: tail.value

section Equations

-- Made here once, and not by each proof that rewrites with them.
attribute [local simp] Items.force Items.value Items.demand Rows.force Rows.demand transpose

end Equations

theorem Items.force_value (items : Items α) : cellValue items.force = items.value := by
  induction items with
  | evaluated items => cases items <;> rfl
  | cons head tail => rfl
  | append left right first second =>
    rw [Items.force, Items.value, ← first]
    cases left.force with
    | nil => exact second
    | cons head tail => rfl

theorem Items.demand_eq (items : Items α) (count : ℕ) : items.demand count = items.value.take count := by
  induction count generalizing items with
  | zero => rfl
  | succ count ih =>
    rw [Items.demand, ← items.force_value]
    cases items.force with
    | nil => rfl
    | cons head tail => rw [cellValue, List.take_succ_cons, ← ih]

theorem Items.foldr_cons_value (passed : List α) (items : Items α) : (passed.foldr .cons items).value = passed ++ items.value := by
  induction passed with
  | nil => rfl
  | cons head passed ih => rw [List.foldr_cons, Items.value, ih, List.cons_append]

/-! ## Lists of lists -/

/-- With enough fuel, forcing the thunk ends with the cell. -/
def Forces (rows : Rows α) (cell : ListCell (Items α) (Rows α)) : Prop := ∃ bound, ∀ fuel ≥ bound, rows.force fuel = some cell

/-- What is forced one after the other are these lists. -/
inductive Produces : Rows α → List (List α) → Prop where
  | nil {rows : Rows α} (ends : Forces rows .nil) : Produces rows []
  | cons {rows tail : Rows α} {head : Items α} {values : List (List α)} (forces : Forces rows (.cons head tail))
      (rest : Produces tail values) : Produces rows (head.value :: values)

section Forcing

variable {rows other left right tail : Rows α} {cell : ListCell (Items α) (Rows α)} {head : Items α} {values more : List (List α)}

theorem Forces.now (forced : ∀ fuel, rows.force (fuel + 1) = some cell) : Forces rows cell := by
  refine ⟨1, fun fuel enough => ?_⟩
  obtain ⟨fuel, rfl⟩ := Nat.exists_eq_add_of_le' enough
  exact forced fuel

/-- A thunk that goes on with another one. -/
theorem Forces.step (follows : ∀ fuel, rows.force (fuel + 1) = other.force fuel) (forces : Forces other cell) : Forces rows cell := by
  obtain ⟨bound, forced⟩ := forces
  refine ⟨bound + 1, fun fuel enough => ?_⟩
  obtain ⟨fuel, rfl⟩ := Nat.exists_eq_add_of_le' enough
  rw [← Nat.add_assoc, follows]
  exact forced _ (Nat.le_add_left ..)

/-- A thunk that forces another one first. -/
theorem Forces.after {first : ListCell (Items α) (Rows α)} (forces : Forces other first)
    (follows : ∀ fuel, other.force fuel = some first → rows.force (fuel + 1) = some cell) : Forces rows cell := by
  obtain ⟨bound, forced⟩ := forces
  refine ⟨bound + 1, fun fuel enough => ?_⟩
  obtain ⟨fuel, rfl⟩ := Nat.exists_eq_add_of_le' enough
  exact follows _ (forced _ (Nat.le_add_left ..))

theorem Forces.append_cons (forces : Forces left (.cons head tail)) : Forces (.append left right) (.cons head (.append tail right)) :=
  forces.after fun fuel forced => by
    rw [Rows.force, forced]
    rfl

theorem Forces.append_nil (ends : Forces left .nil) (forces : Forces right cell) : Forces (.append left right) cell := by
  obtain ⟨bound, ended⟩ := ends
  obtain ⟨bound', forced⟩ := forces
  refine ⟨max bound bound' + 1, fun fuel enough => ?_⟩
  obtain ⟨fuel, rfl⟩ := Nat.exists_eq_add_of_le' enough
  rw [← Nat.add_assoc, Rows.force, ended _ (by omega)]
  exact forced _ (by omega)

theorem Produces.of_forces (same : ∀ cell, Forces other cell → Forces rows cell) (produces : Produces other values) :
    Produces rows values := by
  cases produces with
  | nil ends => exact .nil (same _ ends)
  | cons forces rest => exact .cons (same _ forces) rest

theorem Produces.append (produces : Produces left values) (produces' : Produces right more) :
    Produces (.append left right) (values ++ more) := by
  induction produces with
  | nil ends => exact produces'.of_forces fun _ => ends.append_nil
  | cons forces _ ih => exact .cons forces.append_cons ih

/-- Some elements of the first lists are what they are in the lists that are produced. -/
theorem Produces.demand (produces : Produces rows values) (counts : List ℕ) :
    ∃ bound, ∀ fuel ≥ bound, rows.demand fuel counts = some (counts.zipWith (fun count value => value.take count) values) := by
  induction counts generalizing rows values with
  | nil => exact ⟨0, fun _ _ => rfl⟩
  | cons count counts ih =>
    cases produces with
    | nil ends =>
      obtain ⟨bound, ended⟩ := ends
      refine ⟨bound, fun fuel enough => ?_⟩
      rw [Rows.demand, ended fuel enough]
      rfl
    | cons forces rest =>
      obtain ⟨bound, forced⟩ := forces
      obtain ⟨bound', demanded⟩ := ih rest
      refine ⟨max bound bound', fun fuel enough => ?_⟩
      rw [Rows.demand, forced fuel (by omega)]
      change (do return _ :: (← Rows.demand fuel counts _)) = _
      rw [demanded fuel (by omega), Items.demand_eq]
      rfl

end Forcing

section Producers

variable {item : α} {rows : Rows α} {values : List (List α)}

theorem interleaveNonfinal_produces (item : α) (remaining suffix : Items α) (passed : List α) :
    Produces (.interleaveNonfinal item remaining suffix passed) (interleaved item suffix.value passed remaining.value) := by
  generalize same : remaining.value = items
  induction items generalizing remaining passed with
  | nil =>
    have forced := remaining.force_value
    rw [same] at forced
    cases here : remaining.force with
    | nil => exact .nil (.now fun fuel => by rw [Rows.force, here])
    | cons head tail => rw [here] at forced; cases forced
  | cons first items ih =>
    have forced := remaining.force_value
    rw [same] at forced
    cases here : remaining.force with
    | nil => rw [here] at forced; cases forced
    | cons head tail =>
      rw [here, cellValue] at forced
      obtain ⟨rfl, rest⟩ := List.cons.inj forced
      have inserted : (passed.foldr .cons (Items.cons item (.append remaining suffix))).value =
          passed ++ item :: (head :: items) ++ suffix.value := by
        rw [Items.foldr_cons_value, Items.value, Items.value, same]
        simp
      rw [interleaved, ← inserted]
      exact .cons (.now fun fuel => by rw [Rows.force, here]) (ih tail (passed ++ [head]) rest)

theorem permutationStage_produces (item : α) (suffix : Items α) (produces : Produces rows values) :
    Produces (.permutationStage rows item suffix) (values.flatMap (interleaved item suffix.value [])) := by
  induction produces with
  | nil ends =>
    exact .nil (ends.after fun fuel ended => by rw [Rows.force, ended]; rfl)
  | @cons rows tail head values forces _ ih =>
    have both := (interleaveNonfinal_produces item head suffix []).append ih
    refine both.of_forces fun cell goes => ?_
    obtain ⟨bound, forced⟩ := forces
    obtain ⟨bound', gone⟩ := goes
    refine ⟨max bound bound' + 1, fun fuel enough => ?_⟩
    obtain ⟨fuel, rfl⟩ := Nat.exists_eq_add_of_le' enough
    rw [← Nat.add_assoc, Rows.force, forced _ (by omega)]
    exact gone _ (by omega)

/-- The stages produce the reference's loop, by its own induction. -/
theorem permutationStages_produces (suffix passed : List α) : ∀ input reversedPrefix : Items α, input.value = suffix →
    reversedPrefix.value = passed → Produces (.permutationStages input reversedPrefix) (List.permutationsAux suffix passed) := by
  induction suffix, passed using List.permutationsAux.rec with
  | H0 passed =>
    intro input reversedPrefix empty _
    have forced := input.force_value
    rw [empty] at forced
    rw [List.permutationsAux_nil]
    cases here : input.force with
    | nil => exact .nil (.now fun fuel => by rw [Rows.force, here])
    | cons head tail => rw [here] at forced; cases forced
  | H1 item suffix passed stages inner =>
    intro input reversedPrefix same prefixes
    have forced := input.force_value
    rw [same] at forced
    cases here : input.force with
    | nil => rw [here] at forced; cases forced
    | cons head tail =>
      rw [here, cellValue] at forced
      obtain ⟨rfl, rest⟩ := List.cons.inj forced
      have first : Produces (.permutations reversedPrefix) passed.permutations := by
        rw [List.permutations, ← prefixes]
        exact .cons (.now fun _ => rfl) (prefixes ▸ inner reversedPrefix (.evaluated []) prefixes rfl)
      have both := (permutationStage_produces head tail first).append
        (stages tail (.cons head reversedPrefix) rest (by rw [Items.value, prefixes]))
      rw [rest, ← permutationsAux_cons_eq] at both
      exact both.of_forces fun cell => .step fun fuel => by rw [Rows.force, here]

theorem permutations_produces (input : Items α) : Produces (.permutations input) input.value.permutations :=
  .cons (.now fun _ => rfl) (permutationStages_produces _ [] input (.evaluated []) rfl rfl)

theorem subsequencePairs_produces (item : α) (produces : Produces rows values) :
    Produces (.subsequencePairs item rows true)
      (values.foldr (fun subset rest => subset :: (item :: subset) :: rest) []) := by
  induction produces with
  | nil ends => exact .nil (ends.after fun fuel ended => by rw [Rows.force, ended]; rfl)
  | @cons rows tail head values forces _ ih =>
    have plain : Forces (.subsequencePairs item rows true) (.cons head (.subsequencePairs item rows false)) :=
      forces.after fun fuel forced => by rw [Rows.force, forced]; rfl
    have prefixed : Forces (.subsequencePairs item rows false) (.cons (.cons item head) (.subsequencePairs item tail true)) :=
      forces.after fun fuel forced => by rw [Rows.force, forced]; rfl
    exact .cons plain (.cons prefixed ih)

theorem nonEmptySubsequences_produces (input : Items α) :
    Produces (.nonEmptySubsequences input) (nonEmptySubsequences input.value) := by
  generalize same : input.value = items
  induction items generalizing input with
  | nil =>
    have forced := input.force_value
    rw [same] at forced
    cases here : input.force with
    | nil => exact .nil (.now fun fuel => by rw [Rows.force, here])
    | cons head tail => rw [here] at forced; cases forced
  | cons item items ih =>
    have forced := input.force_value
    rw [same] at forced
    cases here : input.force with
    | nil => rw [here] at forced; cases forced
    | cons head tail =>
      rw [here, cellValue] at forced
      obtain ⟨rfl, rest⟩ := List.cons.inj forced
      have single : Forces (.nonEmptySubsequences input)
          (.cons (.evaluated [head]) (.subsequencePairs head (.nonEmptySubsequences tail) true)) :=
        .now fun fuel => by rw [Rows.force, here]
      exact .cons single (subsequencePairs_produces head (ih tail rest))

theorem subsequences_produces (input : Items α) : Produces (.subsequences input) (subsequences input.value) :=
  have empty : Forces (.subsequences input) (.cons (.evaluated []) (.nonEmptySubsequences input)) := .now fun _ => rfl
  .cons empty (nonEmptySubsequences_produces input)

end Producers

/-! ## Transposition -/

namespace Table

/-- The rows that the thunk stands for. -/
def value : Table α → List (List α)
  | .evaluated rows => rows.map Items.value
  | .tails table => Lists.tails table.value

/-- How often the rows were projected. -/
def depth : Table α → ℕ
  | .evaluated _ => 0
  | .tails table => table.depth + 1

/-- A cell of the rows, behind which are as many projections. -/
def Cell (depth : ℕ) (rows : List (List α)) : ListCell (Items α) (Table α) → Prop
  | .nil => rows = []
  | .cons row rest => rows = row.value :: rest.value ∧ rest.depth = depth

/-- A cell of the projected rows. Empty rows are passed over. -/
def Projected (depth : ℕ) (rows : List (List α)) : ListCell (α × Items α) (Table α) → Prop
  | .nil => heads rows = [] ∧ Lists.tails rows = []
  | .cons (head, tail) rest =>
    heads rows = head :: heads rest.value ∧ Lists.tails rows = tail.value :: Lists.tails rest.value ∧ rest.depth = depth

/-- With enough fuel, the thunk is forced to a cell. -/
def Settles {β : Type} (run : ℕ → Option β) (holds : β → Prop) : Prop :=
  ∃ result, holds result ∧ ∃ bound, ∀ fuel ≥ bound, run fuel = some result

theorem project_succ (fuel : ℕ) (table : Table α) : table.project (fuel + 1) = (table.force fuel).bind fun cell =>
    match cell with
    | .nil => some .nil
    | .cons row remaining =>
      match row.force with
      | .nil => remaining.project fuel
      | .cons head tail => some (.cons (head, tail) remaining) := rfl

theorem force_tails (fuel : ℕ) (table : Table α) : (Table.tails table).force (fuel + 1) = (table.project fuel).bind fun cell =>
    match cell with
    | .nil => some .nil
    | .cons (_, tail) rest => some (.cons tail (.tails rest)) := rfl

theorem project_settles {level : ℕ} (each : ∀ table : Table α, table.depth = level → Settles (fun fuel => table.force fuel) (Cell level table.value))
    (table : Table α) (same : table.depth = level) : Settles (fun fuel => table.project fuel) (Projected level table.value) := by
  generalize rows : table.value = values
  induction values generalizing table with
  | nil =>
    obtain ⟨cell, holds, bound, forced⟩ := each table same
    dsimp only at forced
    rw [rows] at holds
    cases cell with
    | cons row rest => cases holds.1
    | nil =>
      refine ⟨.nil, ⟨rfl, rfl⟩, bound + 1, fun fuel enough => ?_⟩
      obtain ⟨fuel, rfl⟩ := Nat.exists_eq_add_of_le' enough
      dsimp only
      rw [← Nat.add_assoc, project_succ, forced _ (by omega)]
      rfl
  | cons first values ih =>
    obtain ⟨cell, holds, bound, forced⟩ := each table same
    dsimp only at forced
    rw [rows] at holds
    cases cell with
    | nil => cases holds
    | cons row rest =>
      obtain ⟨split, deep⟩ := holds
      obtain ⟨rfl, others⟩ := List.cons.inj split
      have cells := row.force_value
      cases here : row.force with
      | nil =>
        rw [here, cellValue] at cells
        obtain ⟨result, projected, bound', ran⟩ := ih rest deep others.symm
        dsimp only at ran
        refine ⟨result, ?_, max bound bound' + 1, fun fuel enough => ?_⟩
        · rw [← cells]
          cases result with
          | nil => simpa [Projected] using projected
          | cons pair remaining => simpa [Projected] using projected
        · obtain ⟨fuel, rfl⟩ := Nat.exists_eq_add_of_le' enough
          dsimp only
          rw [← Nat.add_assoc, project_succ, forced _ (by omega)]
          simp only [Option.bind_some, here]
          exact ran _ (by omega)
      | cons head tail =>
        rw [here, cellValue] at cells
        refine ⟨.cons (head, tail) rest, ?_, bound + 1, fun fuel enough => ?_⟩
        · rw [← cells, others]
          exact ⟨heads_cons .., tails_cons .., deep⟩
        · obtain ⟨fuel, rfl⟩ := Nat.exists_eq_add_of_le' enough
          dsimp only
          rw [← Nat.add_assoc, project_succ, forced _ (by omega)]
          simp only [Option.bind_some, here]

theorem force_settles (level : ℕ) (table : Table α) (same : table.depth = level) :
    Settles (fun fuel => table.force fuel) (Cell level table.value) := by
  induction level generalizing table with
  | zero =>
    cases table with
    | tails table => cases same
    | evaluated rows =>
      cases rows with
      | nil => exact ⟨.nil, rfl, 1, fun fuel enough => by
          obtain ⟨fuel, rfl⟩ := Nat.exists_eq_add_of_le' enough
          rfl⟩
      | cons row rows => exact ⟨.cons row (.evaluated rows), ⟨rfl, rfl⟩, 1, fun fuel enough => by
          obtain ⟨fuel, rfl⟩ := Nat.exists_eq_add_of_le' enough
          rfl⟩
  | succ level ih =>
    cases table with
    | evaluated rows => cases same
    | tails table =>
      obtain ⟨result, projected, bound, ran⟩ := project_settles ih table (Nat.succ.inj same)
      dsimp only at ran
      cases result with
      | nil =>
        refine ⟨.nil, projected.2, bound + 1, fun fuel enough => ?_⟩
        obtain ⟨fuel, rfl⟩ := Nat.exists_eq_add_of_le' enough
        dsimp only
        rw [← Nat.add_assoc, force_tails, ran _ (by omega)]
        rfl
      | cons pair rest =>
        obtain ⟨head, tail⟩ := pair
        obtain ⟨-, rows, deep⟩ := projected
        refine ⟨.cons tail (.tails rest), ⟨rows, by rw [depth, deep]⟩, bound + 1, fun fuel enough => ?_⟩
        obtain ⟨fuel, rfl⟩ := Nat.exists_eq_add_of_le' enough
        dsimp only
        rw [← Nat.add_assoc, force_tails, ran _ (by omega)]
        rfl

theorem settles (table : Table α) : Settles (fun fuel => table.project fuel) (Projected table.depth table.value) :=
  project_settles (force_settles table.depth) table rfl

theorem demandHeads_eq (table : Table α) (count : ℕ) :
    ∃ bound, ∀ fuel ≥ bound, table.demandHeads fuel count = some ((heads table.value).take count) := by
  induction count generalizing table with
  | zero => exact ⟨0, fun _ _ => rfl⟩
  | succ count ih =>
    obtain ⟨result, projected, bound, ran⟩ := table.settles
    dsimp only at ran
    cases result with
    | nil =>
      refine ⟨bound, fun fuel enough => ?_⟩
      rw [demandHeads, ran fuel enough, projected.1]
      rfl
    | cons pair rest =>
      obtain ⟨bound', demanded⟩ := ih rest
      refine ⟨max bound bound', fun fuel enough => ?_⟩
      rw [demandHeads, ran fuel (by omega), projected.1]
      change (do return pair.1 :: (← rest.demandHeads fuel count)) = _
      rw [demanded fuel (by omega)]
      rfl

/-- The reference starts with the column of the heads. -/
theorem transpose_eq (rows : List (List α)) :
    transpose rows = if heads rows = [] then [] else heads rows :: transpose (Lists.tails rows) := by
  induction rows using transpose.induct with
  | case1 => rw [transpose]; rfl
  | case2 rows ih => rw [transpose, ih, heads_nil, tails_nil]
  | case3 item items rows ih => rw [transpose, heads_cons, tails_cons, if_neg nofun]

/-- Some elements of the first columns are what they are in the reference. -/
theorem demandTransposed_eq (table : Table α) (counts : List ℕ) : ∃ bound, ∀ fuel ≥ bound,
    table.demandTransposed fuel counts = some (counts.zipWith (fun count column => column.take count) (transpose table.value)) := by
  induction counts generalizing table with
  | nil => exact ⟨0, fun _ _ => rfl⟩
  | cons count counts ih =>
    obtain ⟨result, projected, bound, ran⟩ := table.settles
    dsimp only at ran
    rw [transpose_eq]
    cases result with
    | nil =>
      refine ⟨bound, fun fuel enough => ?_⟩
      rw [demandTransposed, ran fuel enough, if_pos projected.1]
      rfl
    | cons pair rest =>
      obtain ⟨bound', first⟩ := table.demandHeads_eq count
      obtain ⟨bound'', others⟩ := ih (.tails table)
      refine ⟨max bound (max bound' bound''), fun fuel enough => ?_⟩
      rw [demandTransposed, ran fuel (by omega), if_neg (by rw [projected.1]; exact nofun)]
      change (do return (← table.demandHeads fuel count) :: (← (Table.tails table).demandTransposed fuel counts)) = _
      rw [first fuel (by omega), others fuel (by omega)]
      rfl

end Table

/-! ## All of it -/

/-- The lists are those at some lists of positions, each of which comes once. -/
def AtPositions (items : List α) (kind : List (Fin items.length) → Prop) (values : List (List α)) : Prop :=
  ∃ order : List (List (Fin items.length)), values = order.map (fun positions => positions.map items.get) ∧ order.Nodup ∧
    ∀ positions, positions ∈ order ↔ kind positions

theorem permutations_atPositions (items : List α) :
    AtPositions items (fun positions => positions.Perm (List.finRange items.length)) items.permutations := by
  refine ⟨(List.finRange items.length).permutations, ?_, ?_, fun positions => List.mem_permutations⟩
  · rw [List.map_permutations, ← List.ofFn_eq_map, List.ofFn_get]
  · exact List.nodup_permutations _ (List.nodup_finRange _)

theorem subsequences_atPositions (items : List α) :
    AtPositions items (fun positions => positions.Sublist (List.finRange items.length)) (subsequences items) := by
  rw [subsequences_eq]
  refine ⟨(List.finRange items.length).sublists, ?_, ?_, fun positions => List.mem_sublists⟩
  · rw [← List.sublists_map, ← List.ofFn_eq_map, List.ofFn_get]
  · exact List.nodup_sublists.mpr (List.nodup_finRange _)

/-- Some elements of the first lists. -/
def beginnings (counts : List ℕ) (values : List (List α)) : List (List α) :=
  counts.zipWith (fun count value => value.take count) values

/-- Whatever is demanded first is what the reference begins with, and every permutation and subsequence of positions comes once. -/
theorem producers_reference (input : Items α) (rows : List (Items α)) (counts : List ℕ) :
    (∃ bound, ∀ fuel ≥ bound,
      (Rows.permutations input).demand fuel counts = some (beginnings counts input.value.permutations) ∧
      (Rows.subsequences input).demand fuel counts = some (beginnings counts (subsequences input.value)) ∧
      (Table.evaluated rows).demandTransposed fuel counts = some (beginnings counts (transpose (rows.map Items.value)))) ∧
    AtPositions input.value (fun positions => positions.Perm (List.finRange input.value.length)) input.value.permutations ∧
    AtPositions input.value (fun positions => positions.Sublist (List.finRange input.value.length)) (subsequences input.value) := by
  obtain ⟨first, permuted⟩ := (permutations_produces input).demand counts
  obtain ⟨second, chosen⟩ := (subsequences_produces input).demand counts
  obtain ⟨third, transposed⟩ := (Table.evaluated rows).demandTransposed_eq counts
  refine ⟨⟨max first (max second third), fun fuel enough => ⟨?_, ?_, ?_⟩⟩, permutations_atPositions _, subsequences_atPositions _⟩
  · exact permuted fuel (by omega)
  · exact chosen fuel (by omega)
  · exact transposed fuel (by omega)

/-- Rows of different lengths, one of them empty. -/
example : (Table.evaluated [.evaluated [1, 2, 3], .evaluated [], .evaluated [4], .evaluated [5, 6]]).demandTransposed 20 [3, 1, 1, 1] =
    some [[1, 4, 5], [2], [3]] := by decide

end HellRs.Lists
