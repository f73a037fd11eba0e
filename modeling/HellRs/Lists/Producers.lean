import HellRs.Lists.NubOrd

/-! # Lazy producers of lists of lists

`permutations`, `subsequences` and `transpose` return thunks that compute one cell when they are forced. A thunk is the name
of its closure with what it captures. Forcing follows other thunks, so it has fuel, and without a cell it has run out of it.
-/

namespace HellRs.Lists

variable {α : Type}

/-- The thunks of one list of elements. -/
inductive Items (α : Type) where
  /-- Cells that are evaluated. -/
  | evaluated (items : List α)
  | cons (head : α) (tail : Items α)
  /-- `append_lazy`. -/
  | append (left right : Items α)

def Items.force : Items α → ListCell α (Items α)
  | .evaluated [] => .nil
  | .evaluated (head :: tail) => .cons head (.evaluated tail)
  | .cons head tail => .cons head tail
  | .append left right =>
    match left.force with
    | .nil => right.force
    | .cons head tail => .cons head (.append tail right)

/-- The elements of the first cells. -/
def Items.demand : ℕ → Items α → List α
  | 0, _ => []
  | count + 1, items =>
    match items.force with
    | .nil => []
    | .cons head tail => head :: tail.demand count

/-! ## Permutations and subsequences -/

/-- The thunks of a list of lists. -/
inductive Rows (α : Type) where
  | permutations (input : Items α)
  | permutationStages (input reversedPrefix : Items α)
  | permutationStage (prefixes : Rows α) (item : α) (suffix : Items α)
  | interleaveNonfinal (item : α) (remaining suffix : Items α) (passed : List α)
  /-- `append_lazy`. -/
  | append (left right : Rows α)
  | subsequences (input : Items α)
  | nonEmptySubsequences (input : Items α)
  | subsequencePairs (item : α) (subsets : Rows α) (emitPlain : Bool)

def Rows.force : ℕ → Rows α → Option (ListCell (Items α) (Rows α))
  | 0, _ => none
  | _ + 1, .permutations input => some (.cons input (.permutationStages input (.evaluated [])))
  | fuel + 1, .permutationStages input reversedPrefix =>
    match input.force with
    | .nil => some .nil
    | .cons head tail =>
      Rows.force fuel (.append (.permutationStage (.permutations reversedPrefix) head tail)
        (.permutationStages tail (.cons head reversedPrefix)))
  | fuel + 1, .permutationStage prefixes item suffix => do
    match ← Rows.force fuel prefixes with
    | .nil => return .nil
    | .cons head tail =>
      Rows.force fuel (.append (.interleaveNonfinal item head suffix []) (.permutationStage tail item suffix))
  | _ + 1, .interleaveNonfinal item remaining suffix passed =>
    match remaining.force with
    | .nil => some .nil
    | .cons head tail =>
      let inserted := .cons item (.append remaining suffix)
      some (.cons (passed.foldr .cons inserted) (.interleaveNonfinal item tail suffix (passed ++ [head])))
  | fuel + 1, .append left right => do
    match ← Rows.force fuel left with
    | .nil => Rows.force fuel right
    | .cons head tail => return .cons head (.append tail right)
  | _ + 1, .subsequences input => some (.cons (.evaluated []) (.nonEmptySubsequences input))
  | _ + 1, .nonEmptySubsequences input =>
    match input.force with
    | .nil => some .nil
    | .cons head tail => some (.cons (.evaluated [head]) (.subsequencePairs head (.nonEmptySubsequences tail) true))
  | fuel + 1, .subsequencePairs item subsets emitPlain => do
    match ← Rows.force fuel subsets with
    | .nil => return .nil
    | .cons head tail =>
      if emitPlain then return .cons head (.subsequencePairs item subsets false)
      else return .cons (.cons item head) (.subsequencePairs item tail true)

/-- Some elements of the first lists: of each as many as the number says. -/
def Rows.demand (fuel : ℕ) : List ℕ → Rows α → Option (List (List α))
  | [], _ => some []
  | count :: counts, rows => do
    match ← rows.force fuel with
    | .nil => return []
    | .cons head tail => return head.demand count :: (← tail.demand fuel counts)

/-! ## Transposition -/

/-- The thunks of the lists of rows that are transposed. -/
inductive Table (α : Type) where
  /-- Cells that are evaluated. -/
  | evaluated (rows : List (Items α))
  /-- `project_field` with the index 1, of `project_rows`. -/
  | tails (table : Table α)

mutual

def Table.force : ℕ → Table α → Option (ListCell (Items α) (Table α))
  | 0, _ => none
  | _ + 1, .evaluated [] => some .nil
  | _ + 1, .evaluated (row :: rows) => some (.cons row (.evaluated rows))
  | fuel + 1, .tails table => do
    match ← Table.project fuel table with
    | .nil => return .nil
    | .cons (_, tail) rest => return .cons tail (.tails rest)

/-- The loop of `project_rows`. The tail of a cell is the table that is projected next. -/
def Table.project : ℕ → Table α → Option (ListCell (α × Items α) (Table α))
  | 0, _ => none
  | fuel + 1, table => do
    match ← Table.force fuel table with
    | .nil => return .nil
    | .cons row remaining =>
      match row.force with
      | .nil => Table.project fuel remaining
      | .cons head tail => return .cons (head, tail) remaining

end

/-- Some elements of `project_field` with the index 0, of `project_rows`. -/
def Table.demandHeads (fuel : ℕ) : ℕ → Table α → Option (List α)
  | 0, _ => some []
  | count + 1, table => do
    match ← table.project fuel with
    | .nil => return []
    | .cons (head, _) rest => return head :: (← rest.demandHeads fuel count)

/-- Some elements of the first columns that `transpose` returns. -/
def Table.demandTransposed (fuel : ℕ) : List ℕ → Table α → Option (List (List α))
  | [], _ => some []
  | count :: counts, table => do
    match ← table.project fuel with
    | .nil => return []
    | .cons _ _ => return (← table.demandHeads fuel count) :: (← (Table.tails table).demandTransposed fuel counts)

end HellRs.Lists
