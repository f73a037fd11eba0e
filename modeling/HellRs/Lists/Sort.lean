import HellRs.Collections.Search

/-! # The list sorts

Two topologies of merges over natural runs, and the sort by a key. The comparator asks the evaluator, which may answer
anything, and another thing the next time, or fail.
-/

namespace HellRs.Lists

open Fallible Collections

variable {T κ σ ε : Type}

/-- What a sort asks the evaluator. -/
structure Sorter (T σ ε : Type) where
  ensureNotCancelled : StateT σ (Except ε) Unit
  greaterThan : T → T → StateT σ (Except ε) Bool

/-- `merge_base_421`, `merge_sorted` and `merge_keyed_runs`: the left run goes first unless its item is greater. -/
def mergeRuns (sorter : Sorter T σ ε) : List T → List T → Fallible σ ε (List T)
  | [], right => return right
  | left, [] => return left
  | leftItem :: left, rightItem :: right => do
    ask sorter.ensureNotCancelled
    if ← ask (sorter.greaterThan leftItem rightItem) then
      return rightItem :: (← mergeRuns sorter (leftItem :: left) right)
    else
      return leftItem :: (← mergeRuns sorter left (rightItem :: right))
termination_by left right => left.length + right.length

/-- A run is kept in the order in which it was found, and reversed at its end if it descends. -/
def finishRun (descending : Bool) (run : List T) : List T := if descending then run.reverse else run

mutual

/-- The runs from an item on that starts one. -/
def startRun (sorter : Sorter T σ ε) (first : T) : List T → Fallible σ ε (List (List T))
  | [] => return [[first]]
  | second :: remaining => do
    let descending ← ask (sorter.greaterThan first second)
    extendRun sorter descending [first] second remaining

/-- The inner loop over the items of one run, and the runs behind it. -/
def extendRun (sorter : Sorter T σ ε) (descending : Bool) (run : List T) (current : T) :
    List T → Fallible σ ε (List (List T))
  | [] => return [finishRun descending (run ++ [current])]
  | next :: remaining => do
    if (← ask (sorter.greaterThan current next)) != descending then
      return finishRun descending (run ++ [current]) :: (← startRun sorter next remaining)
    else extendRun sorter descending (run ++ [current]) next remaining

end

/-- `natural_base_421_runs`, `natural_sort_runs` and `natural_keyed_runs`. -/
def naturalRuns (sorter : Sorter T σ ε) : List T → Fallible σ ε (List (List T))
  | [] => return []
  | first :: remaining => startRun sorter first remaining

def mergeThreeBase421 (sorter : Sorter T σ ε) (first second third : List T) : Fallible σ ε (List T) := do
  let firstTwo ← mergeRuns sorter first second
  mergeRuns sorter firstTwo third

def mergeFourBase421 (sorter : Sorter T σ ε) (first second third fourth : List T) : Fallible σ ε (List T) := do
  let firstTwo ← mergeRuns sorter first second
  let secondTwo ← mergeRuns sorter third fourth
  mergeRuns sorter firstTwo secondTwo

/-- One round of the four-way topology. -/
def reduceBase421Once (sorter : Sorter T σ ε) : List (List T) → Fallible σ ε (List (List T))
  | [] => return []
  | [first] => return [first]
  | [first, second] => return [← mergeRuns sorter first second]
  | [first, second, third] => return [← mergeThreeBase421 sorter first second third]
  | [first, second, third, fourth, fifth] => do
    let front ← mergeRuns sorter first second
    return [front, ← mergeThreeBase421 sorter third fourth fifth]
  | [first, second, third, fourth, fifth, sixth] => do
    let front ← mergeThreeBase421 sorter first second third
    return [front, ← mergeThreeBase421 sorter fourth fifth sixth]
  | first :: second :: third :: fourth :: runs => do
    let front ← mergeFourBase421 sorter first second third fourth
    return front :: (← reduceBase421Once sorter runs)

/-- One round of the two-way topology. -/
def mergePairs (sorter : Sorter T σ ε) : List (List T) → Fallible σ ε (List (List T))
  | [] => return []
  | [left] => return [left]
  | left :: right :: runs => do
    let merged ← mergeRuns sorter left right
    return merged :: (← mergePairs sorter runs)

/-- The loop over the rounds while there is more than one run. A round leaves fewer runs, so the bound is not reached. -/
def rounds (sorter : Sorter T σ ε) (round : List (List T) → Fallible σ ε (List (List T))) :
    ℕ → List (List T) → Fallible σ ε (List (List T))
  | 0, _ => throw .panic
  | bound + 1, runs =>
    if 1 < runs.length then do
      ask sorter.ensureNotCancelled
      rounds sorter round bound (← round runs)
    else return runs

def base421Sort (sorter : Sorter T σ ε) : List T → Fallible σ ε (List T)
  | [] => return []
  | [first] => return [first]
  | [first, second] => mergeRuns sorter [first] [second]
  | [first, second, third] => mergeThreeBase421 sorter [first] [second] [third]
  | [first, second, third, fourth] => mergeFourBase421 sorter [first] [second] [third] [fourth]
  | all => do
    let runs ← naturalRuns sorter all
    let runs ← rounds sorter (reduceBase421Once sorter) (runs.length + 1) runs
    expect runs.getLast?

/-- The rest of `sort` and of `sort_list_on`, for the two-way topology. -/
def naturalMergeSort (sorter : Sorter T σ ε) (items : List T) : Fallible σ ε (List T) := do
  let runs ← naturalRuns sorter items
  let runs ← rounds sorter (mergePairs sorter) (runs.length + 1) runs
  return runs.getLast?.getD []

/-- The list sort of the reviewed oracle, which the target decides. -/
inductive NativeOracleListSort
  | Ghc98Base419TwoWay
  | Ghc912Base421FourWay
deriving DecidableEq

/-- The evaluator, with what it answers about two values. -/
structure Evaluator (κ σ ε : Type) where
  ensureNotCancelled : StateT σ (Except ε) Unit
  answers : Answers κ σ ε

namespace Evaluator

variable (evaluator : Evaluator κ σ ε)

/-- `compare_greater_than` and `keyed_greater_than`. -/
def compareGreaterThan (left right : κ) : StateT σ (Except ε) Bool := do
  if ← evaluator.answers.equalValues left right then return false
  return !(← evaluator.answers.less left right)

def reviewedSortGreaterThan (oracle : NativeOracleListSort) (left right : κ) : StateT σ (Except ε) Bool :=
  if oracle = .Ghc912Base421FourWay then evaluator.answers.less right left
  else evaluator.compareGreaterThan left right

/-- A topology over a comparator. -/
def sortWith (oracle : NativeOracleListSort) (greaterThan : T → T → StateT σ (Except ε) Bool) (items : List T) :
    Fallible σ ε (List T) :=
  if oracle = .Ghc912Base421FourWay then base421Sort ⟨evaluator.ensureNotCancelled, greaterThan⟩ items
  else naturalMergeSort ⟨evaluator.ensureNotCancelled, greaterThan⟩ items

def sort (oracle : NativeOracleListSort) (items : List κ) : Fallible σ ε (List κ) :=
  evaluator.sortWith oracle (evaluator.reviewedSortGreaterThan oracle) items

/-- Each value with the thunk of its key. -/
def decorate (key : T → κ) : List T → Fallible σ ε (List (κ × T))
  | [] => return []
  | value :: values => do
    ask evaluator.ensureNotCancelled
    return (key value, value) :: (← decorate key values)

def keyedPairGreaterThan (left right : κ × T) : StateT σ (Except ε) Bool :=
  evaluator.compareGreaterThan left.1 right.1

def sortListOn (oracle : NativeOracleListSort) (key : T → κ) (values : List T) : Fallible σ ε (List T) := do
  let decorated ← evaluator.decorate key values
  let sorted ← evaluator.sortWith oracle evaluator.keyedPairGreaterThan decorated
  return sorted.map Prod.snd

end Evaluator

end HellRs.Lists
