import Mathlib
import HellRs.Runtime.Value

/-! # Closing a scope tree

`ExecutionScope::close_with_primary` when nothing else acts on the tree. A scope cancels its subtree,
closes its children, awaits its tasks, closes its resources and runs its finalizers, both the last
ones first, and goes on after each failure. What resources, finalizers and tasks do is data of the
tree. The result carries every failure of the tree once.
-/

namespace HellRs.Scope

open Runtime

abbrev ScopeId := ℕ
abbrev TaskId := ℕ
abbrev ResourceId := ℕ
abbrev FinalizerId := ℕ

/-- A runtime error with the errors it suppresses. -/
inductive Failure where
  | mk (error : RuntimeError) (suppressed : List Failure)

namespace Failure

def error : Failure → RuntimeError
  | mk error _ => error

def suppressed : Failure → List Failure
  | mk _ suppressed => suppressed

/-- `RuntimeError::panic_contained`. -/
def panicContained (message : String) : Failure := mk ⟨"H9004", .internalInvariant, message⟩ []

/-- `RuntimeError::cancellation_stalled`. -/
def cancellationStalled (message : String) : Failure := mk ⟨"H0909", .cancellationStalled, message⟩ []

/-- `RuntimeError::internal`. -/
def internal (message : String) : Failure := mk (.internal message) []

end Failure

inductive ResourceKind where
  | handle
  | process
  | listener
  | socket
  | temporary
  | other
deriving DecidableEq, Repr

inductive CleanupFailure where
  | resource (id : ResourceId) (kind : ResourceKind) (error : Failure)
  | finalizer (error : Failure)
  | taskPanic (id : TaskId)
  | cancellationStalled (tasks : List TaskId)

/-- `CleanupFailure::error`. -/
def CleanupFailure.error : CleanupFailure → Failure
  | resource _ _ error => error
  | finalizer error => error
  | taskPanic id => .panicContained ("scoped task " ++ toString id ++ " panicked")
  | cancellationStalled tasks => .cancellationStalled ("CancellationStalled: tasks " ++ toString tasks ++
      " did not quiesce before the forced deadline")

/-- What code of the host does when it is called. -/
inductive Outcome where
  | succeeds
  | fails (error : Failure)
  | panics

structure Resource where
  id : ResourceId
  kind : ResourceKind
  isClosed : Bool
  requestCancelPanics : Bool
  close : Outcome

structure Finalizer where
  id : FinalizerId
  run : Outcome

/-- Where a task is when its scope stops waiting for it. -/
inductive TaskEnd where
  | finished
  | panicked
  | stalled
deriving DecidableEq, Repr

structure Task where
  id : TaskId
  atEnd : TaskEnd

/-- Entries in order of registration. -/
structure ResourceRegistry where
  entries : List Resource
  cancellationFailures : List CleanupFailure

/-- A scope with its live children, in order of their ids. -/
inductive ScopeTree where
  | mk (id : ScopeId) (cancelled closed : Bool) (tasks : List Task) (resources : ResourceRegistry)
      (finalizers : List Finalizer) (children : List ScopeTree)

/-- What closing does, in order. -/
inductive Event where
  | awaited (scope : ScopeId) (task : TaskId)
  | closedResource (scope : ScopeId) (resource : ResourceId)
  | ranFinalizer (scope : ScopeId) (finalizer : FinalizerId)
  | closed (scope : ScopeId)
deriving DecidableEq, Repr

namespace ScopeTree

def id : ScopeTree → ScopeId
  | mk id _ _ _ _ _ _ => id

def cancelled : ScopeTree → Bool
  | mk _ cancelled _ _ _ _ _ => cancelled

def closed : ScopeTree → Bool
  | mk _ _ closed _ _ _ _ => closed

def tasks : ScopeTree → List Task
  | mk _ _ _ tasks _ _ _ => tasks

def resources : ScopeTree → ResourceRegistry
  | mk _ _ _ _ resources _ _ => resources

def finalizers : ScopeTree → List Finalizer
  | mk _ _ _ _ _ finalizers _ => finalizers

def children : ScopeTree → List ScopeTree
  | mk _ _ _ _ _ _ children => children

end ScopeTree

namespace ResourceRegistry

/-- The failure of `request_cancel`, if it panics. -/
def requestFailure (resource : Resource) : Option CleanupFailure :=
  if resource.requestCancelPanics then
    some (.resource resource.id resource.kind (.panicContained "scoped resource cancellation panicked"))
  else none

/-- `ResourceRegistry::request_cancel`. -/
def requestCancel (registry : ResourceRegistry) : ResourceRegistry :=
  { registry with cancellationFailures :=
      registry.cancellationFailures ++ registry.entries.reverse.filterMap requestFailure }

/-- The failure of closing an entry, if any. -/
def closeFailure (resource : Resource) : Option CleanupFailure :=
  match resource.close with
  | .succeeds => none
  | .fails error => some (.resource resource.id resource.kind error)
  | .panics => some (.resource resource.id resource.kind (.panicContained "scoped resource close panicked"))

/-- The entries that `close` closes, in the order in which it does. -/
def toClose (registry : ResourceRegistry) : List Resource :=
  registry.entries.reverse.filter fun resource => !resource.isClosed

/-- `ResourceRegistry::close`. -/
def close (registry : ResourceRegistry) : List CleanupFailure :=
  registry.cancellationFailures ++ registry.toClose.filterMap closeFailure

end ResourceRegistry

/-- The failure of a finalizer, if any. -/
def Finalizer.failure (finalizer : Finalizer) : Option CleanupFailure :=
  match finalizer.run with
  | .succeeds => none
  | .fails error => some (.finalizer error)
  | .panics => some (.finalizer (.panicContained "scope finalizer panicked"))

/-- The failures of awaited tasks. -/
def taskFailures (stalledCleanupIsError : Bool) (tasks : List Task) : List CleanupFailure :=
  let stalled := (tasks.filter fun task => task.atEnd = .stalled).map Task.id
  ((tasks.filter fun task => task.atEnd = .panicked).map fun task => .taskPanic task.id) ++
    if stalled ≠ [] ∧ stalledCleanupIsError then [.cancellationStalled stalled] else []

/-- `combine_failures`. -/
def combineFailures (primary : Option Failure) (failures : List CleanupFailure) : Failure :=
  let errors := failures.map CleanupFailure.error
  match primary, errors with
  | some primary, errors => .mk primary.error (primary.suppressed ++ errors)
  | none, primary :: errors => .mk primary.error (primary.suppressed ++ errors)
  | none, [] => .internal "execution scope failed without a recorded cleanup error"

/-- The failure of closing a child, if any. -/
def childFailure : Except Failure Unit → Option CleanupFailure
  | .ok () => none
  | .error error => some (.finalizer error)

namespace ScopeTree

/-- `ExecutionScope::cancel`. -/
def cancel : ScopeTree → ScopeTree
  | mk id true closed tasks resources finalizers children =>
      mk id true closed tasks resources finalizers children
  | mk id false closed tasks resources finalizers children =>
      mk id true closed tasks resources.requestCancel finalizers (children.map cancel)

/-- The number of scopes in the tree. -/
def size : ScopeTree → ℕ
  | mk _ _ _ _ _ _ children => 1 + (children.map size).sum

theorem size_cancel (scope : ScopeTree) : scope.cancel.size = scope.size := by
  induction scope using cancel.induct with
  | case1 => simp [cancel]
  | case2 id closed tasks resources finalizers children ih =>
    simp only [cancel, size, List.map_map]
    congr 2
    exact List.map_congr_left ih

theorem size_lt_of_mem {scope child : ScopeTree} (member : child ∈ scope.children) :
    child.size < scope.size := by
  obtain ⟨id, cancelled, closed, tasks, resources, finalizers, children⟩ := scope
  have le : child.size ≤ (children.map size).sum :=
    List.single_le_sum (by simp) child.size (List.mem_map_of_mem member)
  rw [size]
  omega

/-- `ExecutionScope::close_with_primary`: the result, and what is done. -/
def closeWithPrimary (stalledCleanupIsError : Bool) (primary : Option Failure) (scope : ScopeTree) :
    Except Failure Unit × List Event :=
  if scope.closed then
    (match primary with
      | some primary => .error primary
      | none => .ok (), [])
  else
    let open_ := scope.cancel
    let children := open_.children.reverse.attach.map fun child =>
      closeWithPrimary stalledCleanupIsError none child.1
    let failures := children.filterMap (fun child => childFailure child.1) ++
      taskFailures stalledCleanupIsError open_.tasks ++ open_.resources.close ++
      open_.finalizers.reverse.filterMap Finalizer.failure
    let events := children.flatMap Prod.snd ++
      open_.tasks.map (fun task => .awaited open_.id task.id) ++
      open_.resources.toClose.map (fun resource => .closedResource open_.id resource.id) ++
      open_.finalizers.reverse.map (fun finalizer => .ranFinalizer open_.id finalizer.id) ++
      [.closed open_.id]
    (if primary.isSome ∨ failures ≠ [] then .error (combineFailures primary failures) else .ok (),
      events)
termination_by scope.size
decreasing_by
  have member := child.2
  rw [List.mem_reverse] at member
  exact size_cancel scope ▸ size_lt_of_mem member

/-- Closing an open scope. -/
theorem closeWithPrimary_open {stalledCleanupIsError : Bool} {primary : Option Failure}
    {scope : ScopeTree} (isOpen : scope.closed = false) :
    closeWithPrimary stalledCleanupIsError primary scope =
      let children := scope.cancel.children.reverse.map (closeWithPrimary stalledCleanupIsError none)
      let failures := children.filterMap (fun child => childFailure child.1) ++
        taskFailures stalledCleanupIsError scope.cancel.tasks ++ scope.cancel.resources.close ++
        scope.cancel.finalizers.reverse.filterMap Finalizer.failure
      (if primary.isSome ∨ failures ≠ [] then .error (combineFailures primary failures) else .ok (),
        children.flatMap Prod.snd ++
        scope.cancel.tasks.map (fun task => .awaited scope.cancel.id task.id) ++
        scope.cancel.resources.toClose.map
          (fun resource => .closedResource scope.cancel.id resource.id) ++
        scope.cancel.finalizers.reverse.map
          (fun finalizer => .ranFinalizer scope.cancel.id finalizer.id) ++
        [.closed scope.cancel.id]) := by
  have children : scope.cancel.children.reverse.attach.map (fun child =>
      closeWithPrimary stalledCleanupIsError none child.1) =
        scope.cancel.children.reverse.map (closeWithPrimary stalledCleanupIsError none) := by
    simp
  rw [closeWithPrimary.eq_def, if_neg (by simp [isOpen])]
  simp only [children]

end ScopeTree

/-- An error with everything that it suppresses, in order. -/
def Failure.all : Failure → List RuntimeError
  | mk error suppressed => error :: (suppressed.map all).flatten

theorem Failure.all_eq (failure : Failure) :
    failure.all = failure.error :: (failure.suppressed.map all).flatten := by
  cases failure
  rw [all, error, suppressed]

/-- The errors that a result carries. -/
def reported : Except Failure Unit → List RuntimeError
  | .ok () => []
  | .error error => error.all

theorem combineFailures_all {primary : Option Failure} {failures : List CleanupFailure}
    (some : primary.isSome ∨ failures ≠ []) :
    (combineFailures primary failures).all =
      (primary.toList ++ failures.map CleanupFailure.error).flatMap Failure.all := by
  rcases primary with _ | ⟨error, suppressed⟩
  · cases failures with
    | nil => simp at some
    | cons failure failures =>
      rcases here : failure.error with ⟨error, suppressed⟩
      simp [combineFailures, here, Failure.all, Failure.error, Failure.suppressed, List.flatMap_def]
  · simp [combineFailures, Failure.all, Failure.error, Failure.suppressed, List.flatMap_def]

namespace ScopeTree

/-- The failures of a scope itself, in the order in which closing meets them. -/
def ownFailures (stalledCleanupIsError : Bool) (scope : ScopeTree) : List CleanupFailure :=
  taskFailures stalledCleanupIsError scope.tasks ++ scope.resources.cancellationFailures ++
    (if scope.cancelled then []
      else scope.resources.entries.reverse.filterMap ResourceRegistry.requestFailure) ++
    scope.resources.toClose.filterMap ResourceRegistry.closeFailure ++
    scope.finalizers.reverse.filterMap Finalizer.failure

/-- All failures of a tree, in the order in which closing meets them. -/
def met (stalledCleanupIsError : Bool) : ScopeTree → List Failure
  | mk id cancelled closed tasks resources finalizers children =>
      if closed then []
      else (children.map (met stalledCleanupIsError)).reverse.flatten ++
        (ownFailures stalledCleanupIsError
          (mk id cancelled closed tasks resources finalizers children)).map CleanupFailure.error

/-- What closing does in a scope itself, in order. -/
def ownWork (scope : ScopeTree) : List Event :=
  scope.tasks.map (fun task => .awaited scope.id task.id) ++
    scope.resources.toClose.map (fun resource => .closedResource scope.id resource.id) ++
    scope.finalizers.reverse.map (fun finalizer => .ranFinalizer scope.id finalizer.id) ++
    [.closed scope.id]

/-- What closing does in a tree, in order. -/
def work : ScopeTree → List Event
  | mk id cancelled closed tasks resources finalizers children =>
      if closed then []
      else (children.map work).reverse.flatten ++
        ownWork (mk id cancelled closed tasks resources finalizers children)

theorem met_cancel (stalledCleanupIsError : Bool) (scope : ScopeTree) :
    scope.cancel.met stalledCleanupIsError = scope.met stalledCleanupIsError := by
  induction scope using cancel.induct with
  | case1 => simp [cancel]
  | case2 id closed tasks resources finalizers children ih =>
    have same : children.map (met stalledCleanupIsError ∘ cancel) =
        children.map (met stalledCleanupIsError) := List.map_congr_left ih
    simp [cancel, met, same, ownFailures, ScopeTree.resources, ScopeTree.tasks,
      ScopeTree.finalizers, ScopeTree.cancelled, ResourceRegistry.requestCancel,
      ResourceRegistry.toClose]

theorem work_cancel (scope : ScopeTree) : scope.cancel.work = scope.work := by
  induction scope using cancel.induct with
  | case1 => simp [cancel]
  | case2 id closed tasks resources finalizers children ih =>
    have same : children.map (work ∘ cancel) = children.map work := List.map_congr_left ih
    simp [cancel, work, same, ownWork, ScopeTree.resources, ScopeTree.tasks,
      ScopeTree.finalizers, ScopeTree.id, ResourceRegistry.requestCancel, ResourceRegistry.toClose]

/-- An open tree meets what its children meet after a cancellation, and its own failures. -/
theorem met_open {stalledCleanupIsError : Bool} {scope : ScopeTree} (isOpen : scope.closed = false) :
    scope.met stalledCleanupIsError =
      (scope.cancel.children.reverse.map (met stalledCleanupIsError)).flatten ++
        (taskFailures stalledCleanupIsError scope.cancel.tasks ++ scope.cancel.resources.close ++
          scope.cancel.finalizers.reverse.filterMap Finalizer.failure).map CleanupFailure.error := by
  obtain ⟨id, cancelled, closed, tasks, resources, finalizers, children⟩ := scope
  obtain rfl : closed = false := isOpen
  have same : children.map (met stalledCleanupIsError ∘ cancel) =
      children.map (met stalledCleanupIsError) :=
    List.map_congr_left fun child _ => met_cancel stalledCleanupIsError child
  cases cancelled <;>
    simp [cancel, met, same, ownFailures, ScopeTree.resources, ScopeTree.tasks,
      ScopeTree.finalizers, ScopeTree.cancelled, ScopeTree.children, ResourceRegistry.requestCancel,
      ResourceRegistry.toClose, ResourceRegistry.close]

/-- An open tree does the work of its children and then its own. -/
theorem work_open {scope : ScopeTree} (isOpen : scope.closed = false) :
    scope.work = (scope.cancel.children.reverse.map work).flatten ++ scope.cancel.ownWork := by
  obtain ⟨id, cancelled, closed, tasks, resources, finalizers, children⟩ := scope
  obtain rfl : closed = false := isOpen
  have same : children.map (work ∘ cancel) = children.map work :=
    List.map_congr_left fun child _ => work_cancel child
  cases cancelled <;>
    simp [cancel, work, same, ownWork, ScopeTree.resources, ScopeTree.tasks, ScopeTree.id,
      ScopeTree.finalizers, ScopeTree.children, ResourceRegistry.requestCancel,
      ResourceRegistry.toClose]

/-- The failures of closed children carry what the children report. -/
theorem reported_children (stalledCleanupIsError : Bool) (children : List ScopeTree)
    (each : ∀ child ∈ children, reported (closeWithPrimary stalledCleanupIsError none child).1 =
      (child.met stalledCleanupIsError).flatMap Failure.all) :
    ((children.filterMap fun child =>
        childFailure (closeWithPrimary stalledCleanupIsError none child).1).map
          CleanupFailure.error).flatMap Failure.all =
      (children.map (met stalledCleanupIsError)).flatten.flatMap Failure.all := by
  induction children with
  | nil => rfl
  | cons child children ih =>
    have first := each child (List.mem_cons_self ..)
    have rest := ih fun other member => each other (List.mem_cons_of_mem _ member)
    rw [List.map_cons, List.flatten_cons, List.flatMap_append, ← first, ← rest]
    cases closing : (closeWithPrimary stalledCleanupIsError none child).1 with
    | ok _ => simp [closing, childFailure, reported]
    | error error => simp [closing, childFailure, reported, CleanupFailure.error]

/-- The errors reported by closing are the primary error and the failures met, each once. -/
theorem close_reported (stalledCleanupIsError : Bool) (primary : Option Failure)
    (scope : ScopeTree) :
    reported (closeWithPrimary stalledCleanupIsError primary scope).1 =
      (primary.toList ++ scope.met stalledCleanupIsError).flatMap Failure.all := by
  induction bound : scope.size using Nat.strong_induction_on generalizing scope primary with
  | _ size ih =>
    subst bound
    cases isClosed : scope.closed with
    | true =>
      obtain ⟨id, cancelled, closed, tasks, resources, finalizers, children⟩ := scope
      obtain rfl : closed = true := isClosed
      rw [closeWithPrimary.eq_def]
      cases primary <;> simp [ScopeTree.closed, reported, met]
    | false =>
      have children := reported_children stalledCleanupIsError
        scope.cancel.children.reverse fun child member =>
          ih child.size (size_cancel scope ▸ size_lt_of_mem (List.mem_reverse.mp member)) none child rfl
      rw [closeWithPrimary_open isClosed, met_open isClosed]
      simp only [List.filterMap_map, List.append_assoc]
      generalize own : taskFailures stalledCleanupIsError scope.cancel.tasks ++
        (scope.cancel.resources.close ++ scope.cancel.finalizers.reverse.filterMap Finalizer.failure) = rest
      simp only [List.flatMap_append, ← children]
      split
      next some =>
        rw [reported, combineFailures_all some]
        simp
      next none =>
        simp only [not_or, Decidable.not_not, Option.isSome_iff_ne_none, ne_eq] at none
        obtain ⟨rfl, empty⟩ := none
        obtain ⟨first, rfl⟩ := List.append_eq_nil_iff.mp empty
        simp only [Function.comp_def] at first
        simp [reported, first]

theorem close_work (stalledCleanupIsError : Bool) (primary : Option Failure) (scope : ScopeTree) :
    (closeWithPrimary stalledCleanupIsError primary scope).2 = scope.work := by
  induction bound : scope.size using Nat.strong_induction_on generalizing scope primary with
  | _ size ih =>
    subst bound
    cases isClosed : scope.closed with
    | true =>
      obtain ⟨id, cancelled, closed, tasks, resources, finalizers, children⟩ := scope
      obtain rfl : closed = true := isClosed
      rw [closeWithPrimary.eq_def]
      simp [ScopeTree.closed, work]
    | false =>
      have children : scope.cancel.children.reverse.map
          (Prod.snd ∘ closeWithPrimary stalledCleanupIsError none) =
            scope.cancel.children.reverse.map work :=
        List.map_congr_left fun child member =>
          ih child.size (size_cancel scope ▸ size_lt_of_mem (List.mem_reverse.mp member)) none child rfl
      rw [closeWithPrimary_open isClosed, work_open isClosed]
      simp only [List.flatMap_def, List.map_map, children, ownWork, List.append_assoc]

/-- What is registered in the open scopes of a tree and not closed yet, in order of registration. -/
def registered : ScopeTree → List Event
  | mk id _ closed tasks resources finalizers children =>
      if closed then []
      else tasks.map (fun task => .awaited id task.id) ++
        (resources.entries.filter fun resource => !resource.isClosed).map
          (fun resource => .closedResource id resource.id) ++
        finalizers.map (fun finalizer => .ranFinalizer id finalizer.id) ++
        .closed id :: (children.map registered).flatten

/-- The scope is in the tree, below open scopes only. -/
inductive Within (scope : ScopeTree) : ScopeTree → Prop
  | root : Within scope scope
  | child {parent child : ScopeTree} (isOpen : parent.closed = false)
      (member : child ∈ parent.children) (within : Within scope child) : Within scope parent

/-- What happens in a scope, with the ends of its open children, in order. -/
def ownOrder (scope : ScopeTree) : List Event :=
  ((scope.children.filter fun child => !child.closed).map fun child => .closed child.id).reverse ++
    scope.ownWork

theorem work_perm (scope : ScopeTree) : scope.work.Perm scope.registered := by
  induction scope using work.induct with
  | case1 id cancelled tasks resources finalizers children => simp [work, registered]
  | case2 id cancelled closed tasks resources finalizers children isOpen ih =>
    have rest : (children.map work).reverse.flatten.Perm (children.map registered).flatten := by
      rw [← List.map_reverse, ← List.flatMap_def, ← List.flatMap_def]
      exact (List.Perm.flatMap_right work (List.reverse_perm children)).trans
        (List.Perm.flatMap_left children ih)
    have own : (ownWork (mk id cancelled closed tasks resources finalizers children)).Perm
        (tasks.map (fun task => Event.awaited id task.id) ++
          (resources.entries.filter fun resource => !resource.isClosed).map
            (fun resource => .closedResource id resource.id) ++
          finalizers.map (fun finalizer => .ranFinalizer id finalizer.id) ++ [.closed id]) := by
      refine ((List.Perm.append_left _ ?_).append ?_).append_right _
      · rw [ResourceRegistry.toClose, List.filter_reverse, List.map_reverse]
        exact List.reverse_perm _
      · rw [List.map_reverse]
        exact List.reverse_perm _
    rw [work, registered, if_neg isOpen, if_neg isOpen]
    refine (rest.append own).trans (List.perm_append_comm.trans ?_)
    simp

/-- An open scope ends by its own event. -/
theorem closed_sublist_work {scope : ScopeTree} (isOpen : scope.closed = false) :
    [Event.closed scope.id].Sublist scope.work := by
  obtain ⟨id, cancelled, closed, tasks, resources, finalizers, children⟩ := scope
  obtain rfl : closed = false := isOpen
  rw [work, if_neg Bool.false_ne_true, ownWork, ScopeTree.id]
  simp

theorem closed_children_sublist (children : List ScopeTree) :
    ((children.filter fun child => !child.closed).map fun child => Event.closed child.id).Sublist
      (children.map work).flatten := by
  induction children with
  | nil => exact .slnil
  | cons child children ih =>
    cases isClosed : child.closed with
    | true =>
      rw [List.filter_cons_of_neg (by simp [isClosed])]
      exact ih.trans (List.sublist_append_right ..)
    | false =>
      rw [List.filter_cons_of_pos (by simp [isClosed])]
      exact (closed_sublist_work isClosed).append ih

theorem ownOrder_sublist {scope tree : ScopeTree} (isOpen : scope.closed = false)
    (within : Within scope tree) : scope.ownOrder.Sublist tree.work := by
  induction within with
  | root =>
    obtain ⟨id, cancelled, closed, tasks, resources, finalizers, children⟩ := scope
    obtain rfl : closed = false := isOpen
    rw [work, if_neg Bool.false_ne_true, ownOrder]
    refine List.Sublist.append_right ?_ _
    rw [← List.map_reverse, ← List.map_reverse, ← List.filter_reverse]
    exact closed_children_sublist children.reverse
  | @child parent child isOpen member within ih =>
    obtain ⟨id, cancelled, closed, tasks, resources, finalizers, children⟩ := parent
    obtain rfl : closed = false := isOpen
    rw [work, if_neg Bool.false_ne_true]
    refine ih.trans (List.Sublist.trans ?_ (List.sublist_append_left ..))
    exact List.sublist_flatten_of_mem (List.mem_reverse.mpr (List.mem_map_of_mem member))

end ScopeTree

end HellRs.Scope
