import Mathlib

/-! # Splitting lists lazily

`take_class`, `drop_class` and `select_class` read one stream in which each element has a decision. Everything is deferred: a thunk
is computed when it is forced for the first time and keeps its value, or how it failed. The input is what forcing its cells and
applying the predicate to its elements comes to, which may be a failure and may be that it does not return.

The reference splits the input by name, without a stream and without anything that is kept.
-/

namespace HellRs.LazyList

variable {E : Type}

/-- What a computation of the guest comes to. -/
inductive Outcome (E α : Type) where
  | value (value : α)
  | failed (error : E)
  | never
deriving DecidableEq, Repr

inductive InputCell where
  | nil
  | cons
deriving DecidableEq, Repr

/-- An input and a classifier: the cells by their positions, and what the classifier says of the elements. -/
structure Host (E : Type) where
  cell : ℕ → Outcome E InputCell
  decision : ℕ → Outcome E Bool

/-- A thunk: the tail of the input at a position, the element there, or one that the operations have built. -/
inductive ThunkRef where
  | cell (position : ℕ)
  | item (position : ℕ)
  | thunk (index : ℕ)
deriving DecidableEq, Repr

inductive ListCell where
  | nil
  | cons (head tail : ThunkRef)
deriving DecidableEq, Repr

inductive Value where
  | list (cell : ListCell)
  | tuple (elements : List ThunkRef)
  | bool (value : Bool)
  /-- An element of the input. -/
  | element (position : ℕ)
deriving DecidableEq, Repr

inductive Consumer where
  | takeClass (wanted : Bool)
  | dropClass (wanted : Bool)
  | selectClass (wanted : Bool)
deriving DecidableEq, Repr

inductive Suspension where
  /-- The classifier applied to an element. -/
  | apply (item : ThunkRef)
  | classify (input : ThunkRef) (operation : String)
  | consume (consumer : Consumer) (classified : ThunkRef) (operation : String)
deriving DecidableEq, Repr

inductive RuntimeError (E : Type) where
  | guest (error : E)
  | internal (message : String)
  | blackHole
deriving DecidableEq, Repr

inductive ThunkState (E : Type) where
  | suspended (suspension : Suspension)
  | evaluating
  | evaluated (value : Value)
  | failed (error : RuntimeError E)
deriving DecidableEq, Repr

/-- What can be observed from outside: a cell of the input is forced, the classifier is applied to an element. -/
inductive Event where
  | cell (position : ℕ)
  | applied (position : ℕ)
deriving DecidableEq, Repr

structure State (E : Type) where
  heap : List (ThunkState E)
  log : List Event
deriving DecidableEq, Repr

/-- Why no value is returned. A computation that does not return is left where its fuel has run out. -/
inductive Stop (E : Type) where
  | failed (error : RuntimeError E)
  | pending
deriving DecidableEq, Repr

abbrev Run (E : Type) := ExceptT (Stop E) (StateM (State E))

def State.set (state : State E) (index : ℕ) (thunk : ThunkState E) : State E := { state with heap := state.heap.set index thunk }

def record (event : Event) : Run E Unit := modify fun state => { state with log := state.log ++ [event] }

/-- `Thunk::deferred`, `Thunk::suspended` and `Thunk::evaluated`. -/
def allocate (thunk : ThunkState E) : Run E ThunkRef := fun state =>
  (.ok (.thunk state.heap.length), { state with heap := state.heap ++ [thunk] })

def internal {α : Type} (message : String) : Run E α := throw (.failed (.internal message))

def nonList {α : Type} (operation : String) : Run E α := internal s!"{operation} received a non-list"

def Outcome.run {α : Type} : Outcome E α → Run E α
  | .value result => return result
  | .failed error => throw (.failed (.guest error))
  | .never => throw .pending

/-! ## The operations -/

section Operations

variable (host : Host E) (force : ThunkRef → Run E Value)

def applyClassifier : ThunkRef → Run E Value
  | .item position => do
    record (.applied position)
    return .bool (← (host.decision position).run)
  | _ => internal "the classifier is applied to an element"

def forceCell (position : ℕ) : Run E Value := do
  record (.cell position)
  match ← (host.cell position).run with
  | .nil => return .list .nil
  | .cons => return .list (.cons (.item position) (.cell (position + 1)))

def classify (input : ThunkRef) (operation : String) : Run E Value := do
  match ← force input with
  | .list .nil => return .list .nil
  | .list (.cons head tail) => do
    let decision ← allocate (.suspended (.apply head))
    let entry ← allocate (.evaluated (.tuple [decision, head, input]))
    return .list (.cons entry (← allocate (.suspended (.classify tail operation))))
  | _ => nonList operation

def forceClassified (value : ThunkRef) (operation : String) : Run E (ThunkRef × ThunkRef × ThunkRef) := do
  match ← force value with
  | .tuple [decision, item, original] => return (decision, item, original)
  | _ => internal s!"{operation} produced malformed classification state"

def forceBool (value : ThunkRef) : Run E Bool := do
  match ← force value with
  | .bool value => return value
  | _ => internal "lazy list classifier returned a non-Bool"

def takeClass (classified : ThunkRef) (wanted : Bool) (operation : String) : Run E Value := do
  match ← force classified with
  | .list .nil => return .list .nil
  | .list (.cons head tail) => do
    let (decision, item, _) ← forceClassified force head operation
    let accepted ← forceBool force decision
    if accepted = wanted then
      return .list (.cons item (← allocate (.suspended (.consume (.takeClass wanted) tail operation))))
    else return .list .nil
  | _ => nonList operation

/-- The loop, with fuel for its turns. -/
def dropClass : ℕ → ThunkRef → Bool → String → Run E Value
  | 0, _, _, _ => throw .pending
  | turns + 1, current, wanted, operation => do
    match ← force current with
    | .list .nil => return .list .nil
    | .list (.cons head tail) => do
      let (decision, _, original) ← forceClassified force head operation
      let accepted ← forceBool force decision
      if accepted ≠ wanted then force original else dropClass turns tail wanted operation
    | _ => nonList operation

/-- The loop, with fuel for its turns. -/
def selectClass : ℕ → ThunkRef → Bool → String → Run E Value
  | 0, _, _, _ => throw .pending
  | turns + 1, current, wanted, operation => do
    match ← force current with
    | .list .nil => return .list .nil
    | .list (.cons head tail) => do
      let (decision, item, _) ← forceClassified force head operation
      let accepted ← forceBool force decision
      if accepted = wanted then
        return .list (.cons item (← allocate (.suspended (.consume (.selectClass wanted) tail operation))))
      else selectClass turns tail wanted operation
    | _ => nonList operation

def Suspension.evaluate (fuel : ℕ) : Suspension → Run E Value
  | .apply item => applyClassifier host item
  | .classify input operation => LazyList.classify force input operation
  | .consume (.takeClass wanted) classified operation => takeClass force classified wanted operation
  | .consume (.dropClass wanted) classified operation => dropClass force fuel classified wanted operation
  | .consume (.selectClass wanted) classified operation => selectClass force fuel classified wanted operation

end Operations

/-- The thunk is being evaluated meanwhile, and keeps what comes out. -/
def enter (index : ℕ) (evaluation : Run E Value) : Run E Value := fun state =>
  match evaluation (state.set index .evaluating) with
  | (.ok value, state) => (.ok value, state.set index (.evaluated value))
  | (.error (.failed error), state) => (.error (.failed error), state.set index (.failed error))
  | (.error .pending, state) => (.error .pending, state)

def force (host : Host E) : ℕ → ThunkRef → Run E Value
  | 0, _ => throw .pending
  | _ + 1, .cell position => forceCell host position
  | _ + 1, .item position => return .element position
  | fuel + 1, .thunk index => do
    match (← get).heap[index]? with
    | some (.suspended suspension) => enter index (suspension.evaluate host (force host fuel) fuel)
    | some (.evaluated value) => return value
    | some (.failed error) => throw (.failed error)
    | some .evaluating => throw (.failed .blackHole)
    | none => internal "a thunk is allocated before it is used"

/-! ## Demands -/

/-- A stream and the lists that are built over it, of which the first has the index 1. -/
def split (consumers : List Consumer) (operation : String) : State E where
  heap := .suspended (.classify (.cell 0) operation) ::
    consumers.map fun consumer => .suspended (.consume consumer (.thunk 0) operation)
  log := []

/-- `span`, and `break` with `invert`. -/
def span (invert : Bool) : State E := split [.takeClass !invert, .dropClass !invert] "List.span/break"

def partition : State E := split [.selectClass true, .selectClass false] "List.partition"

/-- A cell of a list as the one who demands it sees it. -/
inductive Seen (E : Type) where
  | nil
  | cons (position : ℕ)
  | failed (error : E)
deriving DecidableEq, Repr

/-- The cell of a list at a depth is demanded, or the end of the list when it ends before that. -/
def walk (host : Host E) (fuel : ℕ) : ℕ → ThunkRef → Run E Value
  | 0, list => force host fuel list
  | depth + 1, list => do
    match ← force host fuel list with
    | .list (.cons _ tail) => walk host fuel depth tail
    | other => return other

structure Demand where
  consumer : ℕ
  depth : ℕ
deriving DecidableEq, Repr

def Demand.run (host : Host E) (fuel : ℕ) (demand : Demand) : Run E Value :=
  walk host fuel demand.depth (.thunk (demand.consumer + 1))

/-- The answer to a demand, when there is one. -/
def seen : Except (Stop E) Value → Option (Seen E)
  | .ok (.list .nil) => some .nil
  | .ok (.list (.cons (.item position) _)) => some (.cons position)
  | .error (.failed (.guest error)) => some (.failed error)
  | _ => none

/-- What remains of a split after some demands, each of which has been answered. -/
inductive Answered (host : Host E) (consumers : List Consumer) (operation : String) : List Demand → State E → Prop
  | start : Answered host consumers operation [] (split consumers operation)
  | demand {demands : List Demand} {state : State E} (before : Answered host consumers operation demands state) {demand : Demand}
      (isConsumer : demand.consumer < consumers.length) {fuel : ℕ} (returns : (demand.run host fuel state).1 ≠ .error .pending) :
      Answered host consumers operation (demands ++ [demand]) (demand.run host fuel state).2

/-! ## The reference -/

/-- Lists without thunks: the input from a position on, and what a consumer makes of it. -/
inductive Lazy where
  | source (position : ℕ)
  | takeWhile (wanted : Bool) (position : ℕ)
  | dropWhile (wanted : Bool) (position : ℕ)
  | filter (wanted : Bool) (position : ℕ)
deriving DecidableEq, Repr

def Consumer.reference : Consumer → ℕ → Lazy
  | .takeClass wanted => .takeWhile wanted
  | .dropClass wanted => .dropWhile wanted
  | .selectClass wanted => .filter wanted

inductive Whnf (E : Type) where
  | nil
  | cons (position : ℕ) (tail : Lazy)
  | failed (error : E)
deriving DecidableEq, Repr

def Whnf.seen : Whnf E → Seen E
  | .nil => .nil
  | .cons position _ => .cons position
  | .failed error => .failed error

namespace Host

variable (host : Host E)

/-- The first element from a position on and its decision. -/
def classified (position : ℕ) : Outcome E (Option Bool) :=
  match host.cell position with
  | .value .nil => .value none
  | .value .cons =>
    match host.decision position with
    | .value decision => .value (some decision)
    | .failed error => .failed error
    | .never => .never
  | .failed error => .failed error
  | .never => .never

/-- The source evaluates to a cell. Without an answer the fuel has run out, or the host does not return. -/
def whnf : ℕ → Lazy → Option (Whnf E)
  | 0, _ => none
  | _ + 1, .source position =>
    match host.cell position with
    | .value .nil => some .nil
    | .value .cons => some (.cons position (.source (position + 1)))
    | .failed error => some (.failed error)
    | .never => none
  | _ + 1, .takeWhile wanted position =>
    match host.classified position with
    | .value none => some .nil
    | .value (some decision) => if decision = wanted then some (.cons position (.takeWhile wanted (position + 1))) else some .nil
    | .failed error => some (.failed error)
    | .never => none
  | fuel + 1, .dropWhile wanted position =>
    match host.classified position with
    | .value none => some .nil
    | .value (some decision) =>
      if decision = wanted then whnf fuel (.dropWhile wanted (position + 1)) else some (.cons position (.source (position + 1)))
    | .failed error => some (.failed error)
    | .never => none
  | fuel + 1, .filter wanted position =>
    match host.classified position with
    | .value none => some .nil
    | .value (some decision) =>
      if decision = wanted then some (.cons position (.filter wanted (position + 1))) else whnf fuel (.filter wanted (position + 1))
    | .failed error => some (.failed error)
    | .never => none

/-- What evaluating a list forces, also when that does not return. -/
inductive Forces : Lazy → Event → Prop
  | source (position : ℕ) : Forces (.source position) (.cell position)
  | cell (consumer : Consumer) (position : ℕ) : Forces (consumer.reference position) (.cell position)
  | decision (consumer : Consumer) {position : ℕ} (element : host.cell position = .value .cons) :
      Forces (consumer.reference position) (.applied position)
  | dropped {wanted : Bool} {position : ℕ} {event : Event} (accepted : host.classified position = .value (some wanted))
      (rest : Forces (.dropWhile wanted (position + 1)) event) : Forces (.dropWhile wanted position) event
  | filtered {wanted decision : Bool} {position : ℕ} {event : Event} (decided : host.classified position = .value (some decision))
      (rejected : decision ≠ wanted) (rest : Forces (.filter wanted (position + 1)) event) : Forces (.filter wanted position) event

/-- A list evaluates to a cell. -/
def Evaluates (list : Lazy) (cell : Whnf E) : Prop := ∃ fuel, host.whnf fuel list = some cell

/-- The tails of a list that come before a depth. -/
inductive Part : Lazy → ℕ → Lazy → Prop
  | here (list : Lazy) (depth : ℕ) : Part list depth list
  | tail {list tail part : Lazy} {position depth : ℕ} (evaluates : host.Evaluates list (.cons position tail))
      (rest : Part tail depth part) : Part list (depth + 1) part

/-- The cell of a list at a depth, or the end of the list when it ends before that. -/
inductive Sees : Lazy → ℕ → Seen E → Prop
  | here {list : Lazy} {cell : Whnf E} (evaluates : host.Evaluates list cell) : Sees list 0 cell.seen
  | tail {list tail : Lazy} {position depth : ℕ} {seen : Seen E} (evaluates : host.Evaluates list (.cons position tail))
      (rest : Sees tail depth seen) : Sees list (depth + 1) seen
  | nil {list : Lazy} (depth : ℕ) (evaluates : host.Evaluates list .nil) : Sees list (depth + 1) .nil
  | failed {list : Lazy} {error : E} (depth : ℕ) (evaluates : host.Evaluates list (.failed error)) : Sees list (depth + 1) (.failed error)

end Host

end HellRs.LazyList
