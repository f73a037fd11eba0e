import HellRs.Scope.Asking
import HellRs.Lib.Threads

/-! # Admission and close agree

When nothing is admitted to a scope whose flag is set, and a close finds the flag set only after the
close that has set it is over, each resource, finalizer, task and child scope that was admitted has
been handled exactly once by the time a close of its scope returns.
-/

namespace HellRs.Scope.Shared

open Obligations

namespace Work

/-- Work that is about to put an entry on a list of the scope. -/
def Inserts (id : ScopeId) (work : Work) : Prop :=
  work = .register id ∨ work = .defer id ∨ work = .child id ∨ work = .spawnChild id ∨
    ∃ task, work = .insertTask id task

def isClosing (id : ScopeId) : Work → Bool
  | closing closed _ => closed = id
  | _ => false

/-- The task has been given its id, and is not yet on a list. -/
def isPending (task : TaskId) (kind : Kind) : Work → Bool
  | insertTask _ inserted => inserted = task ∧ kind = .task
  | _ => false

/-- The child is about to be closed, or is being closed. -/
def Shuts (child : ScopeId) (work : Work) : Prop := work = .close child ∨ work.IsClosing child

end Work

namespace Event

def isAdmitted (kind : Kind) (item : ℕ) : Event → Bool
  | admitted other _ id => other = kind ∧ id = item
  | _ => false

end Event

namespace ScopeSystem

variable {system next after : ScopeSystem} {thread : ThreadId} {id other : ScopeId} {work : Work}
  {stack rest pushed : List Work} {granted : Bool} {action : ScopeAction} {kind : Kind} {item : ℕ}

/-- Nothing enters a scope whose flag is set, no two closes of a scope overlap, and no scope is
dropped that has not been closed. -/
structure Agrees (system : ScopeSystem) (action : ScopeAction) : Prop where
  inserts : ∀ thread granted work rest id, action = .step thread granted →
    system.threads[thread]? = some (work :: rest) → work.Inserts id → (system.scope id).closed = false
  alone : ∀ thread granted id rest, action = .step thread granted →
    system.threads[thread]? = some (.close id :: rest) → (system.scope id).closed →
      ∀ stack, system.Running stack → ∀ work ∈ stack, ¬work.IsClosing id
  drops : ∀ id, action = .drop id → (system.scope id).closed

theorem Starts.not_step (starts : Starts thread id action work) (other : ThreadId) (granted : Bool) :
    action ≠ .step other granted := by
  cases starts <;> exact nofun

/-- Actions that perform no work change no list of a scope. -/
structure Still (system next : ScopeSystem) : Prop where
  log : ∃ refused : List ScopeId, next.log = system.log ++ refused.map .refused
  closed : ∀ id, (next.scope id).closed = (system.scope id).closed
  parent : ∀ id, (next.scope id).parent = (system.scope id).parent
  children : ∀ id, (next.scope id).children = (system.scope id).children
  items : ∀ id kind, (next.scope id).items kind = (system.scope id).items kind
  finished : next.finished = system.finished
  fresh : next.fresh = system.fresh

theorem Still.modify (change : ScopeInner → ScopeInner) (closed : ∀ scope, (change scope).closed = scope.closed)
    (parent : ∀ scope, (change scope).parent = scope.parent)
    (children : ∀ scope, (change scope).children = scope.children)
    (items : ∀ scope kind, (change scope).items kind = scope.items kind) :
    Still system (system.modify id change) := by
  refine ⟨⟨[], by simp⟩, fun other => ?_, fun other => ?_, fun other => ?_, fun other kind => ?_, rfl, rfl⟩
  all_goals
    rw [scope_modify]
    split_ifs
    · simp only [closed, parent, children, items]
    · rfl

theorem Still.refl (system : ScopeSystem) : Still system system :=
  ⟨⟨[], by simp⟩, fun _ => rfl, fun _ => rfl, fun _ => rfl, fun _ _ => rfl, rfl, rfl⟩

theorem Moves.still (moves : Moves system action next)
    (calm : ∀ thread granted, action ≠ .step thread granted) : Still system next := by
  cases moves with
  | root =>
    have missing : system.scope system.scopes.length = .missing := by simp [scope]
    have same (id : ScopeId) : ({ system with scopes := system.scopes ++ [.new none] } : ScopeSystem).scope id =
        if id = system.scopes.length then .new none else system.scope id := scope_append rfl rfl
    refine ⟨⟨[], by simp⟩, fun id => ?_, fun id => ?_, fun id => ?_, fun id kind => ?_, rfl, rfl⟩
    all_goals
      rw [same]
      split_ifs with isNew
      · rw [isNew, missing]
        try cases kind
        all_goals rfl
      · rfl
  | refuse thread id =>
    exact ⟨⟨[id], rfl⟩, fun _ => rfl, fun _ => rfl, fun _ => rfl, fun _ _ => rfl, rfl, rfl⟩
  | start | finish => exact ⟨⟨[], by simp [become]⟩, fun _ => rfl, fun _ => rfl, fun _ => rfl, fun _ _ => rfl, rfl, rfl⟩
  | token =>
    exact .modify _ (fun _ => rfl) (fun _ => rfl) (fun _ => rfl) fun _ kind => by cases kind <;> rfl
  | drop =>
    exact .modify _ (fun _ => rfl) (fun _ => rfl) (fun _ => rfl) fun _ kind => by cases kind <;> rfl
  | perform thread granted => exact absurd rfl (calm thread granted)

section Occurrences

/-- How often an entry occurs on all stacks. -/
def occurrences (system : ScopeSystem) (counted : Work → Bool) : ℕ :=
  (system.threads.map fun stack => stack.countP counted).sum

theorem occurrences_become (counted : Work → Bool) (here : system.threads[thread]? = some stack)
    (new : List Work) :
    (system.become thread new).occurrences counted + stack.countP counted =
      system.occurrences counted + new.countP counted :=
  Threads.sum_map_set (fun stack => stack.countP counted) here new

theorem occurrences_eq_zero {counted : Work → Bool} : system.occurrences counted = 0 ↔
    ∀ stack, system.Running stack → ∀ work ∈ stack, counted work = false := by
  simp only [occurrences, List.sum_eq_zero_iff, List.mem_map, forall_exists_index, and_imp,
    forall_apply_eq_imp_iff₂, List.countP_eq_zero, Bool.not_eq_true, Running]

/-- Only the work on top of a stack changes how often an entry occurs. -/
theorem Moves.occurrences (moves : Moves system action next) {counted : Work → Bool}
    (starts : ∀ thread id action work, Starts thread id action work → counted work = false)
    (bodies : ∀ task id, counted (.body task id) = false)
    (marks : ∀ task, counted (.markFinished task) = false) :
    (next.occurrences counted = system.occurrences counted ∧
        ∀ thread granted, action ≠ .step thread granted) ∨
      ∃ thread granted work rest pushed after, action = .step thread granted ∧
        system.threads[thread]? = some (work :: rest) ∧ Performs system work pushed after ∧
        next = after.become thread (pushed ++ rest) ∧
        next.occurrences counted + [work].countP counted =
          system.occurrences counted + pushed.countP counted := by
  cases moves with
  | root | token | drop => exact .inl ⟨rfl, nofun⟩
  | refuse thread id action work isStart => exact .inl ⟨rfl, isStart.not_step⟩
  | start thread id stack action work here resting kept isStart =>
    refine .inl ⟨?_, isStart.not_step⟩
    have moved := occurrences_become counted here (work :: stack)
    rw [List.countP_cons_of_neg (by simp [starts _ _ _ _ isStart])] at moved
    omega
  | finish thread task id here =>
    refine .inl ⟨?_, nofun⟩
    have moved := occurrences_become counted here [.close id, .markFinished task]
    have closes := starts thread id _ _ .close
    simp only [List.countP_cons, bodies, closes, marks, List.countP_nil, Bool.false_eq_true, if_false] at moved
    omega
  | perform thread granted work rest pushed after here performs =>
    refine .inr ⟨thread, granted, work, rest, pushed, after, rfl, here, performs, rfl, ?_⟩
    have same : after.occurrences counted = system.occurrences counted ∧
        after.threads[thread]? = some (work :: rest) := by
      rcases performs.threads with same | ⟨⟨task, grown⟩, _⟩
      · rw [ScopeSystem.occurrences, same]
        exact ⟨rfl, here⟩
      · rw [ScopeSystem.occurrences, grown, List.getElem?_append_left (List.getElem?_eq_some_iff.mp here).1]
        exact ⟨by simp [ScopeSystem.occurrences, bodies], here⟩
    have moved := occurrences_become counted same.2 (pushed ++ rest)
    rw [same.1, List.countP_append] at moved
    simp only [List.countP_cons, List.countP_nil] at moved ⊢
    omega

end Occurrences

section Balance

/-- A close under way or over for each flag that is set, and none else. -/
def Balanced (system : ScopeSystem) : Prop :=
  ∀ id, system.occurrences (Work.isClosing id) + system.log.count (.shut id) =
    if (system.scope id).closed then 1 else 0

theorem isClosing_iff : work.isClosing id = true ↔ work.IsClosing id := by
  cases work <;> simp [Work.isClosing, Work.IsClosing]

/-- The close of a scope stays on the stack until it is over. -/
theorem Performs.balance (performs : Performs system work pushed after)
    (kept : ∀ id, work.scope = some id → (system.scope id).dropped = false) (id : ScopeId) :
    pushed.countP (Work.isClosing id) + after.log.count (.shut id) +
        (if (system.scope id).closed then 1 else 0) =
      [work].countP (Work.isClosing id) + system.log.count (.shut id) +
        if (after.scope id).closed then 1 else 0 := by
  have closed : (after.scope id).closed = ((system.scope id).closed || decide (work = .close id)) := by
    cases before : (system.scope id).closed with
    | true => simpa using performs.extends.closed id before
    | false =>
      rw [Bool.false_or]
      by_cases isClose : work = .close id
      · subst isClose
        simpa using performs.setsClosed (lt_length_of_kept (kept id rfl))
      · rw [decide_eq_false isClose]
        by_contra flagged
        exact isClose (performs.flags before (by simpa using flagged))
  rw [closed]
  cases performs with
  | late | cancel | spawn | requestOne | refuse | markFinished | child | spawnChild | insertTask | clear
  | wait => simp [Work.isClosing]
  | request | cancelChildren => simp [Work.isClosing, List.countP_eq_zero]
  | accept _ _ _ admits => cases admits <;> simp [Work.isClosing]
  | again other isSet =>
    by_cases own : other = id
    · subst own
      simp [Work.isClosing, isSet]
    · simp [Work.isClosing, own]
  | close other fresh =>
    by_cases own : other = id
    · subst own
      simp [Work.isClosing, fresh, Nat.add_comm]
    · simp [Work.isClosing, own]
  | children other =>
    have calls : ((system.liveChildren other).reverse.map Work.close).countP (Work.isClosing id) = 0 := by
      simp [List.countP_eq_zero, Work.isClosing]
    rw [List.countP_append, calls]
    simp [Work.isClosing]
  | finalize other =>
    have none : (((system.scope other).items .task).map system.joined).count (.shut id) = 0 := by
      rw [List.count_eq_zero]
      simp only [List.mem_map, not_exists, not_and, joined]
      intro task _
      split <;> exact nofun
    simp [Work.isClosing, none]
  | resources other | finalizers other =>
    have none (kind : Kind) (items : List ℕ) : (items.map (Event.handled kind)).count (.shut id) = 0 :=
      List.count_eq_zero.mpr (by simp)
    simp [Work.isClosing, none]
  | detach other =>
    by_cases own : other = id
    · subst own
      simp only [Work.isClosing, record_log, detach_log, List.count_append, List.countP_cons, List.countP_nil,
        List.count_cons, List.count_nil]
      simp
      omega
    · simp [Work.isClosing, own]

theorem Moves.balanced (sound : system.Sound) (balanced : system.Balanced)
    (moves : Moves system action next) : next.Balanced := by
  intro id
  have before := balanced id
  have starts (thread id' action work) (isStart : Starts thread id' action work) :
      Work.isClosing id work = false := by
    cases isStart <;> rfl
  rcases moves.occurrences starts (fun _ _ => rfl) (fun _ => rfl) with ⟨same, calm⟩ |
    ⟨thread, granted, work, rest, pushed, after, rfl, here, performs, rfl, moved⟩
  · have still := moves.still calm
    obtain ⟨refused, log⟩ := still.log
    have none : (refused.map Event.refused).count (.shut id) = 0 := List.count_eq_zero.mpr (by simp)
    rw [same, log, List.count_append, none, still.closed, Nat.add_zero]
    exact before
  · have kept (other : ScopeId) (mentions : work.scope = some other) :=
      sound.kept _ (List.mem_of_getElem? here) work (List.mem_cons_self ..) other mentions
    have balance := performs.balance kept id
    have log : (after.become thread (pushed ++ rest)).log = after.log := rfl
    have closed : (after.become thread (pushed ++ rest)).scope id = after.scope id := rfl
    rw [log, closed]
    omega

end Balance

section Books

/-- What an entry does to the lists of a scope besides its children. -/
inductive Books (system : ScopeSystem) (work : Work) (after : ScopeSystem) : Prop
  | quiet (events : List Event)
      (items : ∀ id kind, (after.scope id).items kind = (system.scope id).items kind)
      (log : after.log = system.log ++ events)
      (silent : ∀ event ∈ events, (∀ kind id item, event ≠ .admitted kind id item) ∧
        ∀ kind item, event ≠ .handled kind item)
  | drained (id : ScopeId) (kind : Kind) (events : List Event) (closing : work.IsClosing id)
      (items : ∀ other kind', (after.scope other).items kind' =
        if other = id ∧ kind' = kind then [] else (system.scope other).items kind')
      (log : after.log = system.log ++ events)
      (counts : ∀ item, events.count (.handled kind item) = ((system.scope id).items kind).count item)
      (silent : ∀ event ∈ events, ∃ item, event = .handled kind item)
  | admitted (id : ScopeId) (kind : Kind) (item : ℕ) (inserts : work.Inserts id)
      (items : ∀ other kind', (after.scope other).items kind' =
        if other = id ∧ kind' = kind then (system.scope id).items kind ++ [item]
        else (system.scope other).items kind')
      (log : after.log = system.log ++ [.admitted kind id item])
      (source : item = system.fresh ∨ kind = .task ∧ work = .insertTask id item)

theorem items_modify (change : ScopeInner → ScopeInner) (keeps : ∀ scope kind, (change scope).items kind = scope.items kind)
    (other : ScopeId) (kind : Kind) :
    ((system.modify id change).scope other).items kind = (system.scope other).items kind := by
  rw [scope_modify]
  split_ifs
  · exact keeps _ _
  · rfl

theorem items_set (inside : id < system.scopes.length) (items : ScopeInner → List ℕ) (other : ScopeId)
    (kind' : Kind) :
    ((system.modify id fun scope => scope.setItems (items scope) kind).scope other).items kind' =
      if other = id ∧ kind' = kind then items (system.scope id) else (system.scope other).items kind' := by
  rw [scope_modify]
  by_cases same : id = other
  · subst same
    rw [if_pos ⟨rfl, inside⟩, items_setItems]
    by_cases isKind : kind = kind'
    · simp [isKind]
    · simp [isKind, Ne.symm isKind]
  · rw [if_neg fun both => same both.1, if_neg fun both => same both.1.symm]

theorem items_openChild (inside : id < system.scopes.length) (other : ScopeId) (kind : Kind) :
    ((system.openChild id).scope other).items kind = (system.scope other).items kind := by
  rw [openChild_scope inside]
  split_ifs with isNew same
  · have missing : system.scope other = .missing := by simp [scope, isNew]
    rw [missing]
    cases kind <;> rfl
  · subst same
    cases kind <;> rfl
  · rfl

theorem items_detach (other : ScopeId) (kind : Kind) :
    ((system.detach id).scope other).items kind = (system.scope other).items kind :=
  keep_detach (fun scope => scope.items kind = (system.scope other).items kind) id
    (fun _ => by cases kind <;> rfl) rfl

theorem count_map_handled (kind : Kind) (items : List ℕ) (item : ℕ) :
    (items.map (Event.handled kind)).count (.handled kind item) = items.count item :=
  List.count_map_of_injective items _ (fun _ _ same => by cases same; rfl) item

theorem Performs.books (performs : Performs system work pushed after)
    (kept : ∀ id, work.scope = some id → (system.scope id).dropped = false)
    (ended : ∀ id, work = .closing id .finalize → ∀ task ∈ (system.scope id).tasks, task ∈ system.finished) :
    Books system work after := by
  have inside (id : ScopeId) (mentions : work.scope = some id) : id < system.scopes.length :=
    lt_length_of_kept (kept id mentions)
  cases performs with
  | late | request | cancelChildren | children | wait | spawn | markFinished =>
    exact .quiet [] (fun _ _ => rfl) (by simp) (by simp)
  | requestOne | again | refuse => exact .quiet _ (fun _ _ => rfl) rfl (by simp)
  | cancel | close | clear =>
    exact .quiet [] (items_modify _ fun _ kind => by cases kind <;> rfl) (by simp) (by simp)
  | finalize id =>
    have joins : (system.scope id).tasks.map system.joined = (system.scope id).tasks.map (.handled .task) :=
      List.map_congr_left fun task member => by rw [joined, if_pos (ended id rfl task member)]
    refine .drained id .task _ ⟨_, rfl⟩ (items_set (inside id rfl) fun _ => []) rfl (fun item => ?_) ?_
    · exact (congrArg (List.count _) joins).trans (count_map_handled .task _ item)
    · intro event member
      have member' : event ∈ (system.scope id).tasks.map system.joined := member
      rw [joins] at member'
      obtain ⟨task, _, rfl⟩ := List.mem_map.mp member'
      exact ⟨task, rfl⟩
  | resources id =>
    refine .drained id .resource _ ⟨_, rfl⟩ (items_set (inside id rfl) fun _ => []) rfl (fun item => ?_) ?_
    · rw [count_map_handled, List.count_reverse]
    · intro event member
      obtain ⟨resource, _, rfl⟩ := List.mem_map.mp member
      exact ⟨resource, rfl⟩
  | finalizers id =>
    refine .drained id .finalizer _ ⟨_, rfl⟩ (items_set (inside id rfl) fun _ => []) rfl (fun item => ?_) ?_
    · rw [count_map_handled, List.count_reverse]
    · intro event member
      obtain ⟨finalizer, _, rfl⟩ := List.mem_map.mp member
      exact ⟨finalizer, rfl⟩
  | detach id =>
    exact .quiet [.shut id, .returned id] items_detach (by simp) (by simp)
  | accept id _ kind admits =>
    have mentions : work.scope = some id := by cases admits <;> rfl
    refine .admitted id kind system.fresh ?_ (items_set (inside id mentions) _) rfl (.inl rfl)
    cases admits
    · exact .inl rfl
    · exact .inr (.inl rfl)
  | child id => exact .quiet _ (items_openChild (inside id rfl)) rfl (by simp)
  | spawnChild id => exact .quiet _ (items_openChild (inside id rfl)) rfl (by simp)
  | insertTask id task =>
    exact .admitted id .task task (.inr (.inr (.inr (.inr ⟨task, rfl⟩))))
      (items_set (inside id rfl) _) rfl (.inr ⟨rfl, rfl⟩)

end Books

section Ledger

/-- How often an id may have been used. -/
def used (system : ScopeSystem) (item : ℕ) : ℕ := if item < system.fresh then 1 else 0

@[simp] theorem modify_used (change : ScopeInner → ScopeInner) :
    (system.modify id change).used item = system.used item := rfl

@[simp] theorem record_used (events : List Event) : (system.record events).used item = system.used item := rfl

@[simp] theorem accept_used (new : ℕ) : (system.accept kind id new).used item = system.used item := rfl

@[simp] theorem openChild_used : (system.openChild id).used item = system.used item := rfl

@[simp] theorem drain_used (order : List ℕ → List ℕ) (handle : ℕ → Event) :
    (system.drain kind id order handle).used item = system.used item := rfl

@[simp] theorem detach_used : (system.detach id).used item = system.used item := by
  rw [detach]
  split
  · rfl
  · split <;> rfl

theorem used_succ (grown : next.fresh = system.fresh + 1) :
    next.used item = if item = system.fresh then 1 else system.used item := by
  simp only [used, grown]
  split_ifs <;> omega

theorem used_fresh : system.used system.fresh = 0 := by simp [used]

/-- Each entry is on the list of the scope that has admitted it, or has been handled. -/
structure Ledger (system : ScopeSystem) : Prop where
  once : ∀ kind item, system.occurrences (Work.isPending item kind) +
    system.log.countP (Event.isAdmitted kind item) ≤ system.used item
  owned : ∀ id kind, ∀ item ∈ (system.scope id).items kind, .admitted kind id item ∈ system.log
  admitted : ∀ kind item, .handled kind item ∈ system.log → ∃ id, .admitted kind id item ∈ system.log
  settled : ∀ kind id item, .admitted kind id item ∈ system.log →
    ((system.scope id).items kind).count item + system.log.count (.handled kind item) = 1

/-- A task is given its id, and with it is admitted once. -/
theorem Performs.pending (performs : Performs system work pushed after) (kind : Kind) (item : ℕ) :
    pushed.countP (Work.isPending item kind) + after.log.countP (Event.isAdmitted kind item) +
        system.used item ≤
      [work].countP (Work.isPending item kind) + system.log.countP (Event.isAdmitted kind item) +
        after.used item := by
  cases performs with
  | late | cancel | spawn | requestOne | refuse | child | again | clear | wait | close | detach =>
    simp [Work.isPending, Event.isAdmitted]
  | markFinished => simp [Work.isPending, used]
  | request | cancelChildren => simp [Work.isPending, List.countP_eq_zero]
  | children other =>
    have calls : ((system.liveChildren other).reverse.map Work.close).countP (Work.isPending item kind) = 0 := by
      simp [List.countP_eq_zero, Work.isPending]
    rw [List.countP_append, calls]
    simp [Work.isPending]
  | finalize other =>
    have none : (((system.scope other).items .task).map system.joined).countP
        (Event.isAdmitted kind item) = 0 := by
      rw [List.countP_eq_zero]
      simp only [List.mem_map, joined]
      rintro _ ⟨task, _, rfl⟩
      split <;> simp [Event.isAdmitted]
    simp [Work.isPending, none]
  | resources other | finalizers other =>
    have none (kind' : Kind) (items : List ℕ) :
        (items.map (Event.handled kind')).countP (Event.isAdmitted kind item) = 0 := by
      simp [List.countP_eq_zero, Event.isAdmitted]
    simp [Work.isPending, none]
  | accept id _ admitted admits =>
    have none : [work].countP (Work.isPending item kind) = 0 := by cases admits <;> simp [Work.isPending]
    have grown : ScopeSystem.used
        { system.accept admitted id system.fresh with fresh := system.fresh + 1 } item =
          if item = system.fresh then 1 else system.used item := used_succ rfl
    rw [grown, none]
    simp only [Event.isAdmitted, accept_log, List.countP_append, List.countP_cons, List.countP_nil]
    by_cases isNew : item = system.fresh
    · subst isNew
      rw [used_fresh, if_pos rfl]
      by_cases isKind : admitted = kind
      · simp [isKind]
      · simp [isKind]
    · have isOld : ¬(admitted = kind ∧ system.fresh = item) := fun both => isNew both.2.symm
      simp only [isNew, isOld, decide_false, Bool.false_eq_true, if_false]
      omega
  | spawnChild id =>
    have grown : ScopeSystem.used { system.openChild id with
        threads := system.threads ++ [[.body system.fresh system.scopes.length]]
        fresh := system.fresh + 1 } item = if item = system.fresh then 1 else system.used item :=
      used_succ rfl
    rw [grown]
    simp only [Work.isPending, Event.isAdmitted, openChild_log, List.countP_append, List.countP_cons,
      List.countP_nil, Bool.false_eq_true, if_false]
    by_cases isNew : item = system.fresh
    · subst isNew
      rw [used_fresh, if_pos rfl]
      by_cases isTask : kind = .task
      · simp only [isTask, and_self, decide_true, if_true]
        omega
      · simp [isTask]
    · have isOld : ¬(system.fresh = item ∧ kind = .task) := fun both => isNew both.1.symm
      simp only [isNew, isOld, decide_false, Bool.false_eq_true, if_false]
      omega
  | insertTask id task =>
    simp only [Work.isPending, Event.isAdmitted, accept_log, accept_used, List.countP_append,
      List.countP_cons, List.countP_nil]
    by_cases same : task = item ∧ kind = .task
    · obtain ⟨rfl, rfl⟩ := same
      simp only [and_self, decide_true, if_true]
      omega
    · have other : ¬(Kind.task = kind ∧ task = item) := fun both => same ⟨both.2, both.1.symm⟩
      simp [same, other]

theorem Ledger.unique (ledger : system.Ledger) (first : .admitted kind id item ∈ system.log)
    (second : .admitted kind other item ∈ system.log) : id = other := by
  by_contra differ
  have once := ledger.once kind item
  have both : [Event.admitted kind id item, .admitted kind other item].Subperm system.log := by
    refine List.subperm_of_subset (by simpa using differ) ?_
    simp [first, second]
  have two : 2 ≤ system.log.countP (Event.isAdmitted kind item) := by
    simpa [Event.isAdmitted] using both.countP_le (Event.isAdmitted kind item)
  have atMost : system.used item ≤ 1 := by
    rw [used]
    split <;> omega
  omega

/-- An id that has not been used yet. -/
theorem Ledger.unused (ledger : system.Ledger)
    (unused : system.log.countP (Event.isAdmitted kind item) = 0) :
    (∀ id, item ∉ (system.scope id).items kind) ∧ system.log.count (.handled kind item) = 0 := by
  have never (id : ScopeId) : .admitted kind id item ∉ system.log := fun member => by
    have isAdmitted := List.countP_eq_zero.mp unused _ member
    simp [Event.isAdmitted] at isAdmitted
  refine ⟨fun id member => never id (ledger.owned id kind item member), List.count_eq_zero.mpr fun member => ?_⟩
  obtain ⟨id, isAdmitted⟩ := ledger.admitted kind item member
  exact never id isAdmitted

/-- Events that neither admit nor handle anything. -/
def Silent (events : List Event) : Prop :=
  ∀ event ∈ events, (∀ kind id item, event ≠ .admitted kind id item) ∧
    ∀ kind item, event ≠ .handled kind item

theorem silent_refused (refused : List ScopeId) : Silent (refused.map .refused) := by
  simp [Silent]

theorem Ledger.keep (ledger : system.Ledger)
    (once : ∀ kind item, next.occurrences (Work.isPending item kind) +
      next.log.countP (Event.isAdmitted kind item) ≤ next.used item)
    (items : ∀ id kind, (next.scope id).items kind = (system.scope id).items kind)
    {events : List Event} (log : next.log = system.log ++ events) (silent : Silent events) :
    next.Ledger := by
  have admits (kind : Kind) (id : ScopeId) (item : ℕ) :
      .admitted kind id item ∈ next.log ↔ .admitted kind id item ∈ system.log := by
    rw [log, List.mem_append]
    exact or_iff_left fun member => (silent _ member).1 kind id item rfl
  have handles (kind : Kind) (item : ℕ) : next.log.count (.handled kind item) =
      system.log.count (.handled kind item) := by
    rw [log, List.count_append, List.count_eq_zero.mpr fun member => (silent _ member).2 kind item rfl,
      Nat.add_zero]
  refine ⟨once, fun id kind item member => ?_, fun kind item member => ?_, fun kind id item member => ?_⟩
  · rw [items] at member
    exact (admits kind id item).mpr (ledger.owned id kind item member)
  · have old : .handled kind item ∈ system.log := by
      rw [← List.count_pos_iff] at member ⊢
      rwa [handles] at member
    obtain ⟨id, isAdmitted⟩ := ledger.admitted kind item old
    exact ⟨id, (admits kind id item).mpr isAdmitted⟩
  · rw [items, handles]
    exact ledger.settled kind id item ((admits kind id item).mp member)

/-- A list is emptied, and its entries are handled. -/
theorem Ledger.drain (ledger : system.Ledger) {events : List Event}
    (once : ∀ kind item, next.occurrences (Work.isPending item kind) +
      next.log.countP (Event.isAdmitted kind item) ≤ next.used item)
    (items : ∀ other kind', (next.scope other).items kind' =
      if other = id ∧ kind' = kind then [] else (system.scope other).items kind')
    (log : next.log = system.log ++ events)
    (counts : ∀ item, events.count (.handled kind item) = ((system.scope id).items kind).count item)
    (handles : ∀ event ∈ events, ∃ item, event = .handled kind item) : next.Ledger := by
  have admits (kind' : Kind) (other : ScopeId) (item : ℕ) :
      .admitted kind' other item ∈ next.log ↔ .admitted kind' other item ∈ system.log := by
    rw [log, List.mem_append]
    refine or_iff_left fun member => ?_
    obtain ⟨_, isHandled⟩ := handles _ member
    cases isHandled
  refine ⟨once, fun other kind' item member => ?_, fun kind' item member => ?_,
    fun kind' other item member => ?_⟩
  · rw [items] at member
    split_ifs at member
    · cases member
    · exact (admits kind' other item).mpr (ledger.owned other kind' item member)
  · rw [log, List.mem_append] at member
    rcases member with old | new
    · obtain ⟨other, isAdmitted⟩ := ledger.admitted kind' item old
      exact ⟨other, (admits kind' other item).mpr isAdmitted⟩
    · obtain ⟨found, isHandled⟩ := handles _ new
      cases isHandled
      rw [← List.count_pos_iff, counts, List.count_pos_iff] at new
      exact ⟨id, (admits kind id item).mpr (ledger.owned id kind item new)⟩
  · have isAdmitted := (admits kind' other item).mp member
    have settled := ledger.settled kind' other item isAdmitted
    rw [items, log, List.count_append]
    split_ifs with same
    · obtain ⟨rfl, rfl⟩ := same
      rw [counts, List.count_nil]
      omega
    · have elsewhere : events.count (.handled kind' item) = 0 := by
        by_contra some
        have found := List.count_pos_iff.mp (Nat.pos_of_ne_zero some)
        obtain ⟨found, isHandled⟩ := handles _ found
        cases isHandled
        rw [counts] at some
        have listed := List.count_pos_iff.mp (Nat.pos_of_ne_zero some)
        exact same ⟨ledger.unique isAdmitted (ledger.owned id kind item listed), rfl⟩
      omega

/-- A new entry is listed. -/
theorem Ledger.accept (ledger : system.Ledger) (unused : system.log.countP (Event.isAdmitted kind item) = 0)
    (once : ∀ kind item, next.occurrences (Work.isPending item kind) +
      next.log.countP (Event.isAdmitted kind item) ≤ next.used item)
    (items : ∀ other kind', (next.scope other).items kind' =
      if other = id ∧ kind' = kind then (system.scope id).items kind ++ [item]
      else (system.scope other).items kind')
    (log : next.log = system.log ++ [.admitted kind id item]) : next.Ledger := by
  obtain ⟨unlisted, unhandled⟩ := ledger.unused unused
  have handles (kind' : Kind) (found : ℕ) : next.log.count (.handled kind' found) =
      system.log.count (.handled kind' found) := by
    rw [log, List.count_append]
    simp
  refine ⟨once, fun other kind' found member => ?_, fun kind' found member => ?_,
    fun kind' other found member => ?_⟩
  · rw [items] at member
    rw [log, List.mem_append]
    split_ifs at member with same
    · obtain ⟨rfl, rfl⟩ := same
      rcases List.mem_append.mp member with old | new
      · exact .inl (ledger.owned other kind' found old)
      · obtain rfl := List.mem_singleton.mp new
        exact .inr (List.mem_singleton_self _)
    · exact .inl (ledger.owned other kind' found member)
  · have old : .handled kind' found ∈ system.log := by
      rw [← List.count_pos_iff] at member ⊢
      rwa [handles] at member
    obtain ⟨other, isAdmitted⟩ := ledger.admitted kind' found old
    exact ⟨other, by rw [log]; exact List.mem_append_left _ isAdmitted⟩
  · rw [items, handles]
    rw [log, List.mem_append] at member
    rcases member with old | new
    · have settled := ledger.settled kind' other found old
      split_ifs with same
      · obtain ⟨rfl, rfl⟩ := same
        have differs : item ≠ found := by
          rintro rfl
          have isAdmitted := List.countP_eq_zero.mp unused _ old
          simp [Event.isAdmitted] at isAdmitted
        have absent : [item].count found = 0 := List.count_eq_zero.mpr (by simpa using Ne.symm differs)
        rw [List.count_append, absent]
        omega
      · exact settled
    · cases List.mem_singleton.mp new
      rw [if_pos ⟨rfl, rfl⟩, List.count_append, List.count_eq_zero.mpr (unlisted id), unhandled]
      simp

theorem Moves.once (ledger : system.Ledger) (moves : Moves system action next) (kind : Kind) (item : ℕ) :
    next.occurrences (Work.isPending item kind) + next.log.countP (Event.isAdmitted kind item) ≤
      next.used item := by
  have before := ledger.once kind item
  have starts (thread id' action work) (isStart : Starts thread id' action work) :
      Work.isPending item kind work = false := by
    cases isStart <;> rfl
  rcases moves.occurrences starts (fun _ _ => rfl) (fun _ => rfl) with ⟨same, calm⟩ |
    ⟨thread, granted, work, rest, pushed, after, rfl, here, performs, rfl, moved⟩
  · have still := moves.still calm
    obtain ⟨refused, log⟩ := still.log
    have none : (refused.map Event.refused).countP (Event.isAdmitted kind item) = 0 := by
      simp [List.countP_eq_zero, Event.isAdmitted]
    rw [same, log, List.countP_append, none, used, still.fresh]
    exact before
  · have pending := performs.pending kind item
    have log : (after.become thread (pushed ++ rest)).log = after.log := rfl
    have fresh : (after.become thread (pushed ++ rest)).used item = after.used item := rfl
    rw [log, fresh]
    omega

theorem Moves.ledger (sound : system.Sound) (ledger : system.Ledger) (moves : Moves system action next)
    (ended : ∀ stack, system.Running stack → ∀ id, .closing id .finalize ∈ stack →
      ∀ task ∈ (system.scope id).tasks, task ∈ system.finished) : next.Ledger := by
  have once := moves.once ledger
  by_cases isStep : ∃ thread granted, action = .step thread granted
  · obtain ⟨thread, granted, rfl⟩ := isStep
    cases moves with
    | refuse _ _ _ _ starts => cases starts
    | start _ _ _ _ _ _ _ _ starts => cases starts
    | perform _ _ work rest pushed after here performs =>
      have running : system.Running (work :: rest) := List.mem_of_getElem? here
      have kept (id : ScopeId) (mentions : work.scope = some id) :=
        sound.kept _ running work (List.mem_cons_self ..) id mentions
      have ended' (id : ScopeId) (isFinalize : work = .closing id .finalize) :=
        ended _ running id (isFinalize ▸ List.mem_cons_self ..)
      cases performs.books kept ended' with
      | quiet events items log silent => exact ledger.keep once items log silent
      | drained id kind events _ items log counts silent => exact ledger.drain once items log counts silent
      | admitted id kind item _ items log source =>
        refine ledger.accept ?_ once items log
        have before := ledger.once kind item
        rcases source with rfl | ⟨rfl, rfl⟩
        · rw [used_fresh] at before
          omega
        · -- The id of the task is on the stack, so it is on no list.
          have pending : 0 < system.occurrences (Work.isPending item .task) := by
            rw [Nat.pos_iff_ne_zero, ne_eq, occurrences_eq_zero]
            intro none
            have isPending := none _ running _ (List.mem_cons_self ..)
            simp [Work.isPending] at isPending
          have atMost : system.used item ≤ 1 := by
            rw [used]
            split <;> omega
          omega
  · have still := moves.still fun thread granted same => isStep ⟨thread, granted, same⟩
    obtain ⟨refused, log⟩ := still.log
    exact ledger.keep once still.items log (silent_refused refused)

end Ledger

section Stages

def ChildrenShut (system : ScopeSystem) (id : ScopeId) : Prop :=
  ∀ child, (system.scope child).parent = some id → .shut child ∈ system.log

/-- What a close has done when it comes to a stage. -/
def AtStage (system : ScopeSystem) (id : ScopeId) : CloseStage → Prop
  | .children => True
  | .clear => True
  | .tasks => system.ChildrenShut id
  | .finalize => system.ChildrenShut id ∧ ∀ task ∈ (system.scope id).tasks, task ∈ system.finished
  | .resources => system.ChildrenShut id ∧ (system.scope id).tasks = []
  | .finalizers => system.ChildrenShut id ∧ (system.scope id).tasks = [] ∧ (system.scope id).resources = []
  | .detach => system.ChildrenShut id ∧ ∀ kind, (system.scope id).items kind = []

/-- What holds of closes in every state of an agreeing run. -/
structure Progress (system : ScopeSystem) : Prop where
  stages : ∀ stack, system.Running stack → ∀ id stage, .closing id stage ∈ stack → system.AtStage id stage
  shutting : ∀ stack, system.Running stack → ∀ id child, (system.scope child).parent = some id →
    .shut child ∉ system.log → Guarded (· = .closing id .clear) (Work.Shuts child) stack
  listed : ∀ id child, (system.scope child).parent = some id →
    .shut child ∈ system.log ∨ child ∈ (system.scope id).children
  dropped : ∀ id < system.scopes.length, (system.scope id).dropped → .shut id ∈ system.log
  emptied : ∀ id, .shut id ∈ system.log → system.AtStage id .detach
  returned : ∀ id, .returned id ∈ system.log → .shut id ∈ system.log
  opened : ∀ id child, .opened id child ∈ system.log → (system.scope child).parent = some id

section Closed

variable (sound : system.Sound) (agrees : system.Agrees action) (moves : Moves system action next)

include sound agrees moves

/-- Nothing enters a list of a scope whose flag is set. -/
theorem Moves.noInsert (ended : ∀ stack, system.Running stack → ∀ id, .closing id .finalize ∈ stack →
      ∀ task ∈ (system.scope id).tasks, task ∈ system.finished)
    (closed : (system.scope id).closed) (member : item ∈ (next.scope id).items kind) :
    item ∈ (system.scope id).items kind := by
  by_cases isStep : ∃ thread granted, action = .step thread granted
  · obtain ⟨thread, granted, rfl⟩ := isStep
    cases moves with
    | refuse _ _ _ _ starts => cases starts
    | start _ _ _ _ _ _ _ _ starts => cases starts
    | perform _ _ work rest pushed after here performs =>
      have running : system.Running (work :: rest) := List.mem_of_getElem? here
      have member : item ∈ (after.scope id).items kind := member
      cases performs.books (sound.kept _ running work (List.mem_cons_self ..)) fun id isFinalize =>
        ended _ running id (isFinalize ▸ List.mem_cons_self ..) with
      | quiet events items => rwa [items] at member
      | drained other kind' events _ items =>
        rw [items] at member
        split_ifs at member
        · cases member
        · exact member
      | admitted other kind' new inserts items =>
        rw [items, if_neg] at member
        · exact member
        · rintro ⟨rfl, _⟩
          have isOpen := agrees.inserts thread granted work rest id rfl here inserts
          rw [isOpen] at closed
          cases closed
  · have still := moves.still fun thread granted same => isStep ⟨thread, granted, same⟩
    rwa [still.items] at member

/-- A scope whose flag is set gets no more children. -/
theorem Moves.noNewChild (closed : (system.scope id).closed) {child : ScopeId}
    (isParent : (next.scope child).parent = some id) : (system.scope child).parent = some id := by
  by_cases isOld : child < system.scopes.length
  · rwa [moves.extends.parent child isOld] at isParent
  · by_cases isStep : ∃ thread granted, action = .step thread granted
    · obtain ⟨thread, granted, rfl⟩ := isStep
      cases moves with
      | refuse _ _ _ _ starts => cases starts
      | start _ _ _ _ _ _ _ _ starts => cases starts
      | perform _ _ work rest pushed after here performs =>
        have running : system.Running (work :: rest) := List.mem_of_getElem? here
        obtain ⟨opens, _, _⟩ := performs.newChild
          (sound.kept _ running work (List.mem_cons_self ..)) (not_lt.mp isOld) isParent
        have inserts : work.Inserts id := by
          rcases opens with rfl | rfl
          · exact .inr (.inr (.inl rfl))
          · exact .inr (.inr (.inr (.inl rfl)))
        rw [agrees.inserts thread granted work rest id rfl here inserts] at closed
        cases closed
    · have still := moves.still fun thread granted same => isStep ⟨thread, granted, same⟩
      rwa [still.parent] at isParent

end Closed

theorem Performs.finished (performs : Performs system work pushed after) {task : TaskId}
    (isOver : task ∈ system.finished) : task ∈ after.finished := by
  cases performs with
  | markFinished => exact List.mem_cons_of_mem _ isOver
  | detach id =>
    have same : (system.detach id).finished = system.finished := by
      rw [ScopeSystem.detach]
      split
      · rfl
      · split <;> rfl
    have ended : task ∈ (system.detach id).finished := by rwa [same]
    exact ended
  | _ => exact isOver

theorem Moves.finished (moves : Moves system action next) {task : TaskId}
    (isOver : task ∈ system.finished) : task ∈ next.finished := by
  cases moves with
  | perform _ _ _ _ _ _ _ performs => exact performs.finished isOver
  | _ => exact isOver

/-- What a close has done stays done. -/
theorem Moves.atStage (sound : system.Sound) (progress : system.Progress) (agrees : system.Agrees action)
    (moves : Moves system action next) (closed : (system.scope id).closed) {stage : CloseStage}
    (atStage : system.AtStage id stage) : next.AtStage id stage := by
  have ended (stack) (running : system.Running stack) (id) (member : .closing id .finalize ∈ stack) :=
    (progress.stages stack running id .finalize member).2
  have shut (children : system.ChildrenShut id) : next.ChildrenShut id := fun child isParent =>
    moves.extends.log _ (children child (moves.noNewChild sound agrees closed isParent))
  have empty (kind : Kind) (isEmpty : (system.scope id).items kind = []) : (next.scope id).items kind = [] := by
    rw [List.eq_nil_iff_forall_not_mem]
    intro item member
    have old := moves.noInsert sound agrees ended closed member
    rw [isEmpty] at old
    cases old
  cases stage with
  | children => trivial
  | clear => trivial
  | tasks => exact shut atStage
  | finalize =>
    refine ⟨shut atStage.1, fun task member => moves.finished (atStage.2 task ?_)⟩
    have listed : task ∈ (next.scope id).items .task := member
    exact moves.noInsert sound agrees ended closed listed
  | resources => exact ⟨shut atStage.1, empty .task atStage.2⟩
  | finalizers => exact ⟨shut atStage.1, empty .task atStage.2.1, empty .resource atStage.2.2⟩
  | detach => exact ⟨shut atStage.1, fun kind => empty kind (atStage.2 kind)⟩

section Logged

/-- The work that puts an event about closes or children on the log. -/
def Logs (system : ScopeSystem) (work : Work) : Event → Prop
  | .shut id => work = .closing id .detach
  | .returned id => work = .close id ∧ (system.scope id).closed ∨ work = .closing id .detach
  | .opened id child => Work.Opens id work ∧ child = system.scopes.length
  | _ => True

theorem Performs.logs (performs : Performs system work pushed after) {event : Event}
    (member : event ∈ after.log) : event ∈ system.log ∨ system.Logs work event := by
  have added {events : List Event} (logs : ∀ event ∈ events, system.Logs work event)
      (member : event ∈ system.log ++ events) : event ∈ system.log ∨ system.Logs work event :=
    (List.mem_append.mp member).imp_right (logs event)
  cases performs with
  | late | request | cancelChildren | children | wait | spawn | markFinished | cancel | close | clear =>
    exact .inl member
  | requestOne | refuse | insertTask => exact added (by simp [Logs]) member
  | again id isSet => exact added (by simp [Logs, isSet]) member
  | accept => exact added (by simp [Logs]) member
  | child id => exact added (by simp [Logs, Work.Opens]) member
  | spawnChild id => exact added (by simp [Logs, Work.Opens]) member
  | finalize id =>
    refine added (fun event isNew => ?_) member
    obtain ⟨task, _, rfl⟩ := List.mem_map.mp isNew
    rw [joined]
    split <;> trivial
  | resources id | finalizers id =>
    refine added (fun event isNew => ?_) member
    obtain ⟨item, _, rfl⟩ := List.mem_map.mp isNew
    trivial
  | detach id =>
    rw [record_log, detach_log] at member
    exact added (by simp [Logs]) member

theorem Moves.logs (moves : Moves system action next) {event : Event} (member : event ∈ next.log)
    (loud : ∀ id, event ≠ .refused id) : event ∈ system.log ∨
      ∃ thread granted work rest pushed after, action = .step thread granted ∧
        system.threads[thread]? = some (work :: rest) ∧ Performs system work pushed after ∧
        next.scopes = after.scopes ∧ next.log = after.log ∧ system.Logs work event := by
  cases moves with
  | refuse _ id =>
    rcases List.mem_append.mp member with old | new
    · exact .inl old
    · exact absurd (List.mem_singleton.mp new) (loud id)
  | perform thread granted work rest pushed after here performs =>
    rcases performs.logs member with old | logs
    · exact .inl old
    · exact .inr ⟨thread, granted, work, rest, pushed, after, rfl, here, performs, rfl, rfl, logs⟩
  | _ => exact .inl member

/-- A flag that is set with no close under way: the close is over. -/
theorem Balanced.shut (balanced : system.Balanced) (closed : (system.scope id).closed)
    (ended : ∀ stack, system.Running stack → ∀ work ∈ stack, ¬work.IsClosing id) :
    .shut id ∈ system.log := by
  have none : system.occurrences (Work.isClosing id) = 0 := by
    rw [occurrences_eq_zero]
    intro stack running work member
    exact Bool.eq_false_iff.mpr fun isClosing => ended stack running work member (isClosing_iff.mp isClosing)
  have one := balanced id
  rw [none, closed, if_pos rfl, Nat.zero_add] at one
  exact List.count_pos_iff.mp (one ▸ Nat.one_pos)

theorem Balanced.closed (balanced : system.Balanced) (shut : .shut id ∈ system.log) :
    (system.scope id).closed := by
  have one := balanced id
  have some := List.count_pos_iff.mpr shut
  by_contra isOpen
  rw [if_neg isOpen] at one
  omega

end Logged

theorem Performs.pushesClear (performs : Performs system work pushed after)
    (member : .closing id .clear ∈ pushed) : work = .closing id .children := by
  cases performs with
  | children =>
    obtain rfl : id = _ := by simpa using member
    rfl
  | _ => simp at member

/-- The close of a child that is called, or goes on, stays on the stack. -/
theorem Performs.keepsShutting (performs : Performs system work pushed after) {child : ScopeId}
    (shuts : Work.Shuts child work) (differs : child ≠ id) (unshut : .shut child ∉ after.log)
    (alone : work = .close child → (system.scope child).closed = false) :
    Guarded (· = .closing id .clear) (Work.Shuts child) (pushed ++ rest) := by
  rcases shuts with rfl | ⟨stage, rfl⟩
  · rw [performs.pushesCancel (alone rfl)]
    exact guarded_append (by simp) ⟨.closing child .children, by simp, .inr ⟨_, rfl⟩⟩
  · cases performs with
    | children =>
      refine guarded_append ?_ ⟨.closing child .clear, by simp, .inr ⟨_, rfl⟩⟩
      rintro entry member rfl
      rcases List.mem_append.mp member with isClose | isClear
      · simp at isClose
      · simp [differs.symm] at isClear
    | clear | wait | finalize | resources | finalizers =>
      exact guarded_append (by simp) ⟨.closing child _, List.mem_singleton_self _, .inr ⟨_, rfl⟩⟩
    | detach => exact absurd (List.mem_append_right _ (List.mem_cons_self ..)) unshut
    | accept _ _ _ admits => cases admits

section Preserved

variable (sound : system.Sound) (balanced : system.Balanced) (progress : system.Progress)
  (agrees : system.Agrees action) (moves : Moves system action next)

include sound balanced progress agrees moves

theorem Moves.emptied (shut : .shut id ∈ next.log) : next.AtStage id .detach := by
  rcases moves.logs shut nofun with old | ⟨_, _, work, rest, _, _, _, here, _, _, _, isDetach⟩
  · exact moves.atStage sound progress agrees (balanced.closed old) (progress.emptied id old)
  · obtain rfl : work = .closing id .detach := isDetach
    have running := List.mem_of_getElem? here
    have member : Work.closing id .detach ∈ .closing id .detach :: rest := List.mem_cons_self ..
    exact moves.atStage sound progress agrees (sound.flagged _ running id .detach member)
      (progress.stages _ running id .detach member)

omit sound in
theorem Moves.returned (isReturned : .returned id ∈ next.log) : .shut id ∈ next.log := by
  rcases moves.logs isReturned nofun with old |
    ⟨thread, granted, work, rest, _, _, isStep, here, performs, _, log, ⟨rfl, closed⟩ | rfl⟩
  · exact moves.extends.log _ (progress.returned id old)
  · exact moves.extends.log _ (balanced.shut closed (agrees.alone thread granted id rest isStep here closed))
  · rw [log]
    cases performs with
    | detach => exact List.mem_append_right _ (List.mem_cons_self ..)
    | accept _ _ _ admits => cases admits

omit sound in
theorem Moves.dropped (inside : id < next.scopes.length) (isDropped : (next.scope id).dropped) :
    .shut id ∈ next.log := by
  cases before : (system.scope id).dropped with
  | false =>
    by_cases isDrop : action = .drop id
    · subst isDrop
      refine moves.extends.log _ (balanced.shut (agrees.drops id rfl) ?_)
      cases moves with
      | refuse _ _ _ _ starts => cases starts
      | start _ _ _ _ _ _ _ _ starts => cases starts
      | drop _ _ free =>
        rintro stack running work member ⟨stage, rfl⟩
        exact free stack running _ member rfl
    · rw [moves.kept before isDrop] at isDropped
      cases isDropped
  | true =>
    by_cases isOld : id < system.scopes.length
    · exact moves.extends.log _ (progress.dropped id isOld before)
    · rw [moves.newKept (not_lt.mp isOld) inside] at isDropped
      cases isDropped

omit balanced agrees in
theorem Moves.opened {child : ScopeId} (isOpened : .opened id child ∈ next.log) :
    (next.scope child).parent = some id := by
  rcases moves.logs isOpened nofun with old |
    ⟨thread, granted, work, rest, _, _, isStep, here, performs, same, _, opens, rfl⟩
  · have isParent := progress.opened id child old
    rw [moves.extends.parent child (lt_length_of_parent isParent)]
    exact isParent
  · have running : system.Running (work :: rest) := List.mem_of_getElem? here
    have mentions : work.scope = some id := by rcases opens with rfl | rfl <;> rfl
    have inside := lt_length_of_kept (sound.kept _ running work (List.mem_cons_self ..) id mentions)
    have opened : ((system.openChild id).scope system.scopes.length).parent = some id := by
      rw [openChild_scope inside, if_pos rfl]
      rfl
    rw [scope_congr same]
    rcases opens with rfl | rfl
    · cases performs with
      | child => exact opened
      | accept _ _ _ admits => cases admits
    · cases performs with
      | spawnChild => exact opened
      | accept _ _ _ admits => cases admits

omit balanced agrees in
theorem Moves.listed {child : ScopeId} (isParent : (next.scope child).parent = some id) :
    .shut child ∈ next.log ∨ child ∈ (next.scope id).children := by
  by_cases isOld : child < system.scopes.length
  · rw [moves.extends.parent child isOld] at isParent
    by_cases shut : .shut child ∈ system.log
    · exact .inl (moves.extends.log _ shut)
    · rcases moves.keepsChild ((progress.listed id child isParent).resolve_left shut) with
        listed | ⟨rest, clears⟩ | ⟨_, shut⟩
      · exact .inr listed
      · exact absurd rfl (progress.shutting _ clears id child isParent shut).top
      · exact .inl shut
  · exact .inr (moves.newChild (fun _ running work member mentioned mentions =>
      sound.kept _ running work member mentioned mentions) (not_lt.mp isOld) isParent).2

omit balanced in
theorem Moves.stages (running : next.Running stack) {stage : CloseStage}
    (member : .closing id stage ∈ stack) : next.AtStage id stage := by
  have old {stack : List Work} {stage : CloseStage} (running : system.Running stack)
      (member : .closing id stage ∈ stack) : next.AtStage id stage :=
    moves.atStage sound progress agrees (sound.flagged stack running id stage member)
      (progress.stages stack running id stage member)
  cases moves.stacked running with
  | old _ _ isOld => exact old isOld member
  | start _ _ before _ _ isOld _ starts =>
    rcases List.mem_cons.mp member with rfl | member
    · exact absurd ⟨stage, rfl⟩ starts.not_closing
    · exact old isOld member
  | finish => simp at member
  | spawned => simp at member
  | perform thread granted top rest pushed after here performs same _ =>
    have isOld : system.Running (top :: rest) := List.mem_of_getElem? here
    rcases List.mem_append.mp member with isPushed | below
    · have atTop {stage : CloseStage} (isTop : top = .closing id stage) : next.AtStage id stage :=
        old isOld (isTop ▸ List.mem_cons_self ..)
      have drained {kind : Kind} {order : List ℕ → List ℕ} {handle : ℕ → Event}
          (mentions : top.scope = some id) (isDrain : next.scopes = (system.drain kind id order handle).scopes) :
          (next.scope id).items kind = [] := by
        rw [scope_congr isDrain]
        have inside := sound.exists isOld (List.mem_cons_self ..) mentions
        exact (items_set inside (fun _ => []) id kind).trans (if_pos ⟨rfl, rfl⟩)
      cases performs with
      | late | requestOne | again | detach | accept | child | refuse | insertTask | markFinished =>
        cases isPushed
      | cancel | spawn | spawnChild | request | cancelChildren => simp at isPushed
      | close =>
        obtain ⟨rfl, rfl⟩ : id = _ ∧ stage = .children := by simpa using isPushed
        trivial
      | children =>
        obtain ⟨rfl, rfl⟩ : id = _ ∧ stage = .clear := by simpa using isPushed
        trivial
      | clear =>
        cases List.mem_singleton.mp isPushed
        intro child isParent
        have closed := sound.flagged _ isOld id .clear (List.mem_cons_self ..)
        refine moves.extends.log _ ?_
        by_contra shut
        exact (progress.shutting _ isOld id child (moves.noNewChild sound agrees closed isParent) shut).top rfl
      | wait _ ended =>
        cases List.mem_singleton.mp isPushed
        have closed := sound.flagged _ isOld id .tasks (List.mem_cons_self ..)
        have shut := progress.stages _ isOld id .tasks (List.mem_cons_self ..)
        have atStage : system.AtStage id .finalize := ⟨shut, ended⟩
        exact moves.atStage sound progress agrees closed atStage
      | finalize =>
        cases List.mem_singleton.mp isPushed
        exact ⟨(atTop rfl).1, drained rfl same⟩
      | resources =>
        cases List.mem_singleton.mp isPushed
        exact ⟨(atTop rfl).1, (atTop rfl).2, drained rfl same⟩
      | finalizers =>
        cases List.mem_singleton.mp isPushed
        obtain ⟨shut, tasks, resources⟩ := atTop rfl
        refine ⟨shut, fun kind => ?_⟩
        cases kind with
        | resource => exact resources
        | finalizer => exact drained rfl same
        | task => exact tasks
    · exact old isOld (List.mem_cons_of_mem _ below)

/-- A child that has been shut by nobody yet is about to be, before its parent forgets it. -/
theorem Moves.shutting (running : next.Running stack) {child : ScopeId}
    (isParent : (next.scope child).parent = some id) (unshut : .shut child ∉ next.log) :
    Guarded (· = .closing id .clear) (Work.Shuts child) stack := by
  have unshut' : .shut child ∉ system.log := fun shut => unshut (moves.extends.log _ shut)
  by_cases isParent' : (system.scope child).parent = some id
  · have below : id < child := sound.ranked id child isParent'
    have old {stack : List Work} (running : system.Running stack) :
        Guarded (· = .closing id .clear) (Work.Shuts child) stack :=
      progress.shutting stack running id child isParent' unshut'
    cases moves.stacked running with
    | old _ _ isOld => exact old isOld
    | start _ _ before _ _ isOld _ starts =>
      exact (old isOld).push fun isClear => starts.not_closing ⟨.clear, isClear⟩
    | finish => exact guarded_of_calm (by simp)
    | spawned => exact guarded_of_calm (by simp)
    | perform thread granted top rest pushed after here performs same log =>
      have isOld : system.Running (top :: rest) := List.mem_of_getElem? here
      have guarded := old isOld
      by_cases shuts : Work.Shuts child top
      · refine performs.keepsShutting shuts below.ne' (log ▸ unshut) fun isClose => ?_
        subst isClose
        by_contra closed
        rw [Bool.not_eq_false] at closed
        exact unshut' (balanced.shut closed (agrees.alone thread granted child rest rfl here closed))
      · by_cases isChildren : top = .closing id .children
        · subst isChildren
          -- The child is listed and has a handle, so it is among those to be closed.
          have listed := (progress.listed id child isParent').resolve_left unshut'
          have kept : (system.scope child).dropped = false := by
            by_contra isDropped
            rw [Bool.not_eq_false] at isDropped
            exact unshut' (progress.dropped child (lt_length_of_parent isParent') isDropped)
          have isLive : child ∈ system.liveChildren id := List.mem_filter.mpr ⟨listed, by simp [kept]⟩
          cases performs with
          | children =>
            rw [List.append_assoc]
            exact guarded_append (by simp)
              ⟨.close child, List.mem_map_of_mem (List.mem_reverse.mpr isLive), .inl rfl⟩
          | accept _ _ _ admits => cases admits
        · refine (guarded.pop shuts).append fun called member isClear => ?_
          subst isClear
          exact isChildren (performs.pushesClear member)
  · -- A scope that gets a new child has no close under way.
    have isOpen : ¬(system.scope id).closed := fun closed =>
      isParent' (moves.noNewChild sound agrees closed isParent)
    refine guarded_of_calm ?_
    rintro work member rfl
    cases moves.stacked running with
    | old _ _ isOld => exact isOpen (sound.flagged _ isOld id .clear member)
    | start _ _ before _ _ isOld _ starts =>
      rcases List.mem_cons.mp member with rfl | member
      · exact starts.not_closing ⟨.clear, rfl⟩
      · exact isOpen (sound.flagged before isOld id .clear member)
    | finish => simp at member
    | spawned => simp at member
    | perform thread granted top rest pushed after here performs =>
      have isOld : system.Running (top :: rest) := List.mem_of_getElem? here
      rcases List.mem_append.mp member with isPushed | below
      · obtain rfl := performs.pushesClear isPushed
        exact isOpen (sound.flagged _ isOld id .children (List.mem_cons_self ..))
      · exact isOpen (sound.flagged _ isOld id .clear (List.mem_cons_of_mem _ below))

theorem Moves.keepsProgress : next.Progress where
  stages _ running _ _ member := moves.stages sound progress agrees running member
  shutting _ running _ _ isParent unshut :=
    moves.shutting sound balanced progress agrees running isParent unshut
  listed _ _ isParent := moves.listed sound progress isParent
  dropped _ inside isDropped := moves.dropped balanced progress agrees inside isDropped
  emptied _ shut := moves.emptied sound balanced progress agrees shut
  returned _ isReturned := moves.returned balanced progress agrees isReturned
  opened _ _ isOpened := moves.opened sound progress isOpened

end Preserved

end Stages

section Covered

/-- What every agreeing run keeps. -/
structure Consistent (system : ScopeSystem) : Prop where
  sound : system.Sound
  balanced : system.Balanced
  ledger : system.Ledger
  progress : system.Progress

theorem Initial.consistent (initial : system.Initial) : system.Consistent := by
  have noScope (id : ScopeId) : system.scope id = .missing := by simp [scope, initial.scopes]
  have idle (counted : Work → Bool) : system.occurrences counted = 0 := by
    rw [occurrences_eq_zero]
    intro stack running work member
    rw [initial.threads stack running] at member
    cases member
  refine ⟨initial.sound, fun id => ?_, ⟨?_, ?_, ?_, ?_⟩, ⟨?_, ?_, ?_, ?_, ?_, ?_, ?_⟩⟩
  · simp [idle, initial.log, noScope, ScopeInner.missing]
  · simp [idle, initial.log]
  · intro id kind item member
    rw [noScope] at member
    cases kind <;> cases member
  · simp [initial.log]
  · simp [initial.log]
  · intro stack running id stage member
    rw [initial.threads stack running] at member
    cases member
  · intro stack running id child isParent
    rw [noScope] at isParent
    cases isParent
  · intro id child isParent
    rw [noScope] at isParent
    cases isParent
  · simp [initial.scopes]
  · simp [initial.log]
  · simp [initial.log]
  · simp [initial.log]

theorem Consistent.step (consistent : system.Consistent) (agrees : system.Agrees action)
    (moves : Moves system action next) : next.Consistent where
  sound := moves.sound consistent.sound
  balanced := moves.balanced consistent.sound consistent.balanced
  ledger := moves.ledger consistent.sound consistent.ledger fun stack running id member =>
    (consistent.progress.stages stack running id .finalize member).2
  progress := moves.keepsProgress consistent.sound consistent.balanced consistent.progress agrees

theorem Run.consistent {first last : ScopeSystem} (run : Run Agrees first last)
    (consistent : first.Consistent) : last.Consistent := by
  induction run with
  | refl => exact consistent
  | tail _ step ih =>
    obtain ⟨action, agrees, acted⟩ := step
    exact ih.step agrees (act_moves acted)

/-- Everything that was admitted to the scope has been handled once, each of its children has been
closed once, and whoever asks to be admitted now is refused. -/
structure Covered (system : ScopeSystem) (id : ScopeId) : Prop where
  items : ∀ kind item, .admitted kind id item ∈ system.log → system.log.count (.handled kind item) = 1
  children : ∀ child, .opened id child ∈ system.log → system.log.count (.shut child) = 1
  refuses : ∀ thread work next, system.admission thread id work = some next →
    next = system.record [.refused id]

theorem Consistent.covered (consistent : system.Consistent) (returned : .returned id ∈ system.log) :
    system.Covered id := by
  have shut := consistent.progress.returned id returned
  obtain ⟨childrenShut, empty⟩ := consistent.progress.emptied id shut
  refine ⟨fun kind item admitted => ?_, fun child opened => ?_, fun thread work next admission => ?_⟩
  · have settled := consistent.ledger.settled kind id item admitted
    rw [empty kind, List.count_nil, Nat.zero_add] at settled
    exact settled
  · have isShut := childrenShut child (consistent.progress.opened id child opened)
    have some := List.count_pos_iff.mpr isShut
    have one := consistent.balanced child
    rw [if_pos (consistent.balanced.closed isShut)] at one
    omega
  · rw [ScopeSystem.admission, consistent.balanced.closed shut] at admission
    obtain ⟨_, _, isRefused⟩ := Option.bind_eq_some_iff.mp admission
    exact (Option.some.inj isRefused).symm

/-- When a close of a scope returns, in a run in which admission and close agree, the scope is covered. -/
theorem returned_covered {first last : ScopeSystem} (initial : first.Initial)
    (run : Run Agrees first last) {id : ScopeId} (returned : .returned id ∈ last.log) : last.Covered id :=
  (run.consistent initial.consistent).covered returned

/-- Nothing is dropped, entries are put on the lists of open scopes, and no close finds the flag set. -/
def inTurn (system : ScopeSystem) : ScopeAction → Bool
  | .drop _ => false
  | .step thread _ =>
      match system.threads[thread]? with
      | some (work :: _) =>
          match work with
          | .register id | .defer id | .child id | .spawnChild id | .insertTask id _ | .close id =>
              !(system.scope id).closed
          | _ => true
      | _ => true
  | _ => true

theorem inTurn_agrees (system : ScopeSystem) (action : ScopeAction) (isInTurn : inTurn system action) :
    system.Agrees action where
  inserts thread granted work rest id isStep here inserts := by
    subst isStep
    rcases inserts with rfl | rfl | rfl | rfl | ⟨task, rfl⟩ <;> simpa [inTurn, here] using isInTurn
  alone thread granted id rest isStep here closed := by
    subst isStep
    simp [inTurn, here, closed] at isInTurn
  drops id isDrop := by
    subst isDrop
    cases isInTurn

/-- A resource, a child scope and their close. -/
def closedInTurn : ScopeSystem :=
  ⟨[{ ScopeInner.new none with reason := some .scopeClosed, closed := true },
      { ScopeInner.new (some 0) with reason := some .parentCancelled, closed := true }], [[]], [], 1,
    [.admitted .resource 0 0, .opened 0 1, .asked 0 .scopeClosed, .shut 1, .returned 1,
      .handled .resource 0, .shut 0, .returned 0]⟩

theorem closedInTurn_covered : closedInTurn.Covered 0 :=
  returned_covered oneThread_initial
    (follow_run inTurn inTurn_agrees (.root :: .register 0 0 :: .step 0 true :: .child 0 0 ::
      .step 0 true :: .close 0 0 :: List.replicate 24 (.step 0 true))
      (by decide : _ = some closedInTurn))
    (by decide)

def twoThreads : ScopeSystem := ⟨[], [[], []], [], 0, []⟩

theorem twoThreads_initial : twoThreads.Initial := ⟨rfl, by simp [twoThreads], rfl, rfl⟩

/-- The resource is put on the list after the close has emptied it. -/
def leftOver : ScopeSystem :=
  ⟨[{ ScopeInner.new none with reason := some .scopeClosed, closed := true, resources := [0] }],
    [[], []], [], 1, [.shut 0, .returned 0, .admitted .resource 0 0]⟩

/-- A registration that has found the flag unset goes on after a close has returned. -/
theorem leftOver_uncovered : ¬∀ first last : ScopeSystem, first.Initial → Run (fun _ _ => True) first last →
    ∀ id, .returned id ∈ last.log → last.Covered id := by
  intro all
  have run : Run (fun _ _ => True) twoThreads leftOver :=
    follow_run (fun _ _ => true) (fun _ _ _ => trivial) (.root :: .register 0 0 :: .close 1 0 ::
      (List.replicate 11 (.step 1 true) ++ [.step 0 true])) (by decide)
  have covered := all twoThreads leftOver twoThreads_initial run 0 (by decide)
  have once := covered.items .resource 0 (by decide)
  exact absurd once (by decide)

end Covered

end ScopeSystem

end HellRs.Scope.Shared
