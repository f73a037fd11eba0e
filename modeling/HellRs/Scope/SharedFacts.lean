import HellRs.Scope.Shared

/-! # What one action on shared scopes does

An action starts a call, performs the entry on top of one stack, or is a single change of one scope.
Flags and reasons that are set stay set, parents stay, and the log grows; an entry leaves a list of a
scope only through the close of that scope, a child also through its own.
-/

namespace HellRs.Scope.Shared

namespace ScopeSystem

variable {system next after : ScopeSystem} {thread : ThreadId} {id other : ScopeId} {work : Work}
  {stack rest pushed : List Work} {granted : Bool}

section Scopes

theorem lt_length_of_kept (kept : (system.scope id).dropped = false) : id < system.scopes.length := by
  by_contra beyond
  simp [scope, List.getElem?_eq_none (not_lt.mp beyond), ScopeInner.missing] at kept

theorem scope_modify (change : ScopeInner → ScopeInner) :
    (system.modify id change).scope other =
      if id = other ∧ id < system.scopes.length then change (system.scope other)
      else system.scope other := by
  simp only [scope, modify, List.getElem?_modify]
  by_cases same : id = other
  · subst same
    by_cases inside : id < system.scopes.length
    · simp [inside]
    · simp [inside]
  · simp [same]

theorem scope_append {scopes : List ScopeInner} {new : ScopeInner} (grown : next.scopes = scopes ++ [new])
    (same : system.scopes = scopes) :
    next.scope other = if other = system.scopes.length then new else system.scope other := by
  simp only [scope, grown, same]
  split_ifs with isNew
  · simp [isNew]
  · rcases Nat.lt_or_gt_of_ne isNew with old | beyond
    · rw [List.getElem?_append_left old]
    · rw [List.getElem?_eq_none (by simp; omega), List.getElem?_eq_none (by omega)]

end Scopes

/-- The admissions of `register` and `defer`. -/
inductive Admits (id : ScopeId) : Work → Kind → Prop
  | register : Admits id (.register id) .resource
  | defer : Admits id (.defer id) .finalizer

/-- What the entry on top of a stack does. -/
inductive Performs (system : ScopeSystem) : Work → List Work → ScopeSystem → Prop
  | late (id : ScopeId) (reason : CancelReason) (isSet : (system.scope id).reason.isSome) :
      Performs system (.cancel id reason) [] system
  | cancel (id : ScopeId) (reason : CancelReason) (fresh : (system.scope id).reason = none) :
      Performs system (.cancel id reason) [.request id reason, .cancelChildren id]
        (system.modify id fun scope => { scope with reason := some reason })
  | request (id : ScopeId) (reason : CancelReason) :
      Performs system (.request id reason)
        ((system.scope id).resources.reverse.map fun resource => .requestOne resource reason) system
  | requestOne (resource : ResourceId) (reason : CancelReason) :
      Performs system (.requestOne resource reason) [] (system.record [.asked resource reason])
  | cancelChildren (id : ScopeId) :
      Performs system (.cancelChildren id)
        ((system.liveChildren id).map fun child => .cancel child .parentCancelled) system
  | again (id : ScopeId) (isSet : (system.scope id).closed) :
      Performs system (.close id) [] (system.record [.returned id])
  | close (id : ScopeId) (fresh : (system.scope id).closed = false) :
      Performs system (.close id) [.cancel id .scopeClosed, .closing id .children]
        (system.modify id fun scope => { scope with closed := true })
  | children (id : ScopeId) :
      Performs system (.closing id .children)
        ((system.liveChildren id).reverse.map .close ++ [.closing id .clear]) system
  | clear (id : ScopeId) :
      Performs system (.closing id .clear) [.closing id .tasks]
        (system.modify id fun scope => { scope with children := [] })
  | wait (id : ScopeId) (ended : ∀ task ∈ (system.scope id).tasks, task ∈ system.finished) :
      Performs system (.closing id .tasks) [.closing id .finalize] system
  | finalize (id : ScopeId) :
      Performs system (.closing id .finalize) [.closing id .resources]
        (system.drain .task id (fun tasks => tasks) system.joined)
  | resources (id : ScopeId) :
      Performs system (.closing id .resources) [.closing id .finalizers]
        (system.drain .resource id List.reverse (.handled .resource))
  | finalizers (id : ScopeId) :
      Performs system (.closing id .finalizers) [.closing id .detach]
        (system.drain .finalizer id List.reverse (.handled .finalizer))
  | detach (id : ScopeId) :
      Performs system (.closing id .detach) [] ((system.detach id).record [.shut id, .returned id])
  | accept (id : ScopeId) (work : Work) (kind : Kind) (admits : Admits id work kind) :
      Performs system work [] { system.accept kind id system.fresh with fresh := system.fresh + 1 }
  | child (id : ScopeId) : Performs system (.child id) [] (system.openChild id)
  | refuse (id : ScopeId) : Performs system (.spawn id) [] (system.record [.refused id])
  | spawn (id : ScopeId) : Performs system (.spawn id) [.spawnChild id] system
  | spawnChild (id : ScopeId) :
      Performs system (.spawnChild id) [.insertTask id system.fresh] { system.openChild id with
        threads := system.threads ++ [[.body system.fresh system.scopes.length]]
        fresh := system.fresh + 1 }
  | insertTask (id : ScopeId) (task : TaskId) :
      Performs system (.insertTask id task) [] (system.accept .task id task)
  | markFinished (task : TaskId) :
      Performs system (.markFinished task) [] { system with finished := task :: system.finished }

theorem perform_performs (performed : system.perform granted work = some (pushed, after)) :
    Performs system work pushed after := by
  cases work with
  | cancel id reason =>
    simp only [perform, Option.some.injEq] at performed
    split at performed
    next isSet => cases performed; exact .late id reason isSet
    next fresh => cases performed; exact .cancel id reason (by simpa using fresh)
  | close id =>
    simp only [perform, Option.some.injEq] at performed
    split at performed
    next isSet => cases performed; exact .again id isSet
    next fresh => cases performed; exact .close id (by simpa using fresh)
  | closing id stage =>
    cases stage with
    | tasks =>
      simp only [perform, closeStep] at performed
      split at performed <;> cases performed
      exact .wait id ‹_›
    | children => cases performed; exact .children id
    | clear => cases performed; exact .clear id
    | finalize => cases performed; exact .finalize id
    | resources => cases performed; exact .resources id
    | finalizers => cases performed; exact .finalizers id
    | detach => cases performed; exact .detach id
  | spawn id =>
    simp only [perform, Option.some.injEq] at performed
    split at performed <;> cases performed
    · exact .spawn id
    · exact .refuse id
  | request id reason => cases performed; exact .request id reason
  | requestOne resource reason => cases performed; exact .requestOne resource reason
  | cancelChildren id => cases performed; exact .cancelChildren id
  | register id => cases performed; exact .accept id _ .resource .register
  | defer id => cases performed; exact .accept id _ .finalizer .defer
  | child id => cases performed; exact .child id
  | spawnChild id => cases performed; exact .spawnChild id
  | insertTask id task => cases performed; exact .insertTask id task
  | markFinished task => cases performed; exact .markFinished task
  | body => cases performed

/-- How a call starts. -/
inductive Starts (thread : ThreadId) (id : ScopeId) : ScopeAction → Work → Prop
  | register : Starts thread id (.register thread id) (.register id)
  | defer : Starts thread id (.defer thread id) (.defer id)
  | child : Starts thread id (.child thread id) (.child id)
  | spawn : Starts thread id (.spawn thread id) (.spawn id)
  | cancel (reason : CancelReason) : Starts thread id (.cancel thread id reason) (.cancel id reason)
  | close : Starts thread id (.close thread id) (.close id)

/-- What an action does. -/
inductive Moves (system : ScopeSystem) : ScopeAction → ScopeSystem → Prop
  | root : Moves system .root { system with scopes := system.scopes ++ [.new none] }
  | refuse (thread : ThreadId) (id : ScopeId) (action : ScopeAction) (work : Work)
      (starts : Starts thread id action work) (closed : (system.scope id).closed) :
      Moves system action (system.record [.refused id])
  | start (thread : ThreadId) (id : ScopeId) (stack : List Work) (action : ScopeAction) (work : Work)
      (here : system.threads[thread]? = some stack) (resting : resting stack)
      (kept : (system.scope id).dropped = false) (starts : Starts thread id action work) :
      Moves system action (system.become thread (work :: stack))
  | token (id : ScopeId) (reason : CancelReason) (kept : (system.scope id).dropped = false) :
      Moves system (.cancelToken id reason)
        (system.modify id fun scope => { scope with reason := scope.reason.or (some reason) })
  | finish (thread : ThreadId) (task : TaskId) (id : ScopeId)
      (here : system.threads[thread]? = some [.body task id]) :
      Moves system (.finish thread) (system.become thread [.close id, .markFinished task])
  | drop (id : ScopeId) (kept : (system.scope id).dropped = false)
      (free : ∀ stack ∈ system.threads, ∀ work ∈ stack, work.scope ≠ some id) :
      Moves system (.drop id) (system.modify id fun scope => { scope with dropped := true })
  | perform (thread : ThreadId) (granted : Bool) (work : Work) (rest pushed : List Work)
      (after : ScopeSystem) (here : system.threads[thread]? = some (work :: rest))
      (performs : Performs system work pushed after) :
      Moves system (.step thread granted) (after.become thread (pushed ++ rest))

theorem call_cases (called : system.call thread id work = some next) :
    ∃ stack, system.threads[thread]? = some stack ∧ resting stack ∧
      (system.scope id).dropped = false ∧ next = system.become thread (work :: stack) := by
  simp only [call, Option.bind_eq_bind, Option.bind_eq_some_iff] at called
  obtain ⟨stack, here, called⟩ := called
  split at called
  next holds =>
    simp only [Bool.and_eq_true, Bool.not_eq_eq_eq_not, Bool.not_true] at holds
    cases called
    exact ⟨stack, here, holds.1, holds.2, rfl⟩
  next => cases called

theorem admission_moves {action : ScopeAction} (starts : Starts thread id action work)
    (admitted : system.admission thread id work = some next) : Moves system action next := by
  simp only [admission, Option.bind_eq_bind, Option.bind_eq_some_iff] at admitted
  obtain ⟨called, isCall, admitted⟩ := admitted
  obtain ⟨stack, here, resting, kept, rfl⟩ := call_cases isCall
  split at admitted <;> cases admitted
  · exact .refuse thread id action work starts ‹_›
  · exact .start thread id stack action work here resting kept starts

theorem call_moves {action : ScopeAction} (starts : Starts thread id action work)
    (called : system.call thread id work = some next) : Moves system action next := by
  obtain ⟨stack, here, resting, kept, rfl⟩ := call_cases called
  exact .start thread id stack action work here resting kept starts

theorem act_moves {action : ScopeAction} (acted : system.act action = some next) :
    Moves system action next := by
  cases action with
  | root => cases acted; exact .root
  | register thread id => exact admission_moves .register acted
  | defer thread id => exact admission_moves .defer acted
  | child thread id => exact admission_moves .child acted
  | spawn thread id => exact admission_moves .spawn acted
  | cancel thread id reason => exact call_moves (.cancel reason) acted
  | close thread id => exact call_moves .close acted
  | cancelToken id reason =>
    simp only [act] at acted
    split at acted
    next => cases acted
    next kept =>
      cases acted
      exact .token id reason (by simpa using kept)
  | finish thread =>
    simp only [act, Option.bind_eq_bind, Option.bind_eq_some_iff] at acted
    obtain ⟨stack, here, acted⟩ := acted
    split at acted <;> cases acted
    exact .finish thread _ _ here
  | drop id =>
    simp only [act] at acted
    split at acted <;> cases acted
    next free =>
      simp only [Bool.or_eq_true, not_or, Bool.not_eq_true] at free
      refine .drop id free.1 fun stack isStack work isWork mentions => ?_
      have mentioned : system.mentioned id = true :=
        List.any_eq_true.mpr ⟨stack, isStack, List.any_eq_true.mpr ⟨work, isWork, by simpa using mentions⟩⟩
      rw [free.2] at mentioned
      cases mentioned
  | step thread granted =>
    simp only [act, Option.bind_eq_bind, Option.bind_eq_some_iff] at acted
    obtain ⟨stack, here, acted⟩ := acted
    split at acted
    next => cases acted
    next work rest =>
      simp only [Option.bind_eq_some_iff] at acted
      obtain ⟨⟨pushed, after⟩, performs, acted⟩ := acted
      cases acted
      exact .perform thread granted work rest pushed after here (perform_performs performs)

/-- What every action keeps. -/
structure Extends (system next : ScopeSystem) : Prop where
  length : system.scopes.length ≤ next.scopes.length
  reason : ∀ id, (system.scope id).reason.isSome → (next.scope id).reason.isSome
  closed : ∀ id, (system.scope id).closed → (next.scope id).closed
  parent : ∀ id < system.scopes.length, (next.scope id).parent = (system.scope id).parent
  log : ∀ event ∈ system.log, event ∈ next.log

namespace Extends

theorem refl (system : ScopeSystem) : Extends system system :=
  ⟨le_rfl, fun _ isSet => isSet, fun _ isSet => isSet, fun _ _ => rfl, fun _ member => member⟩

theorem trans {middle : ScopeSystem} (first : Extends system middle) (second : Extends middle next) :
    Extends system next :=
  ⟨first.length.trans second.length, fun id isSet => second.reason id (first.reason id isSet),
    fun id isSet => second.closed id (first.closed id isSet),
    fun id inside => (second.parent id (inside.trans_le first.length)).trans (first.parent id inside),
    fun event member => second.log event (first.log event member)⟩

theorem congr (extended : Extends system after) (scopes : next.scopes = after.scopes)
    (log : next.log = after.log) : Extends system next := by
  have same (id : ScopeId) : next.scope id = after.scope id := by simp only [scope, scopes]
  refine ⟨scopes ▸ extended.length, ?_, ?_, ?_, log ▸ extended.log⟩
  · simpa only [same] using extended.reason
  · simpa only [same] using extended.closed
  · simpa only [same] using extended.parent

theorem record (system : ScopeSystem) (events : List Event) : Extends system (system.record events) :=
  ⟨le_rfl, fun _ isSet => isSet, fun _ isSet => isSet, fun _ _ => rfl,
    fun _ => List.mem_append_left _⟩

theorem modify (change : ScopeInner → ScopeInner)
    (reason : ∀ scope, scope.reason.isSome → (change scope).reason.isSome)
    (closed : ∀ scope, scope.closed → (change scope).closed)
    (parent : ∀ scope, (change scope).parent = scope.parent) :
    Extends system (system.modify id change) := by
  refine ⟨by simp [ScopeSystem.modify], fun other => ?_, fun other => ?_, fun other _ => ?_,
    fun _ member => member⟩
  · rw [scope_modify]
    split_ifs
    · exact reason _
    · exact fun isSet => isSet
  · rw [scope_modify]
    split_ifs
    · exact closed _
    · exact fun isSet => isSet
  · rw [scope_modify]
    split_ifs
    · exact parent _
    · rfl

theorem append {new : ScopeInner} (grown : next.scopes = system.scopes ++ [new])
    (log : ∀ event ∈ system.log, event ∈ next.log) : Extends system next := by
  have missing : system.scope system.scopes.length = .missing := by simp [scope]
  refine ⟨by simp [grown], fun other isSet => ?_, fun other isSet => ?_, fun other inside => ?_, log⟩
  · rw [scope_append grown rfl]
    split_ifs with isNew
    · rw [isNew, missing] at isSet
      cases isSet
    · exact isSet
  · rw [scope_append grown rfl]
    split_ifs with isNew
    · rw [isNew, missing] at isSet
      cases isSet
    · exact isSet
  · rw [scope_append grown rfl, if_neg inside.ne]

end Extends

section Logs

@[simp] theorem modify_log (change : ScopeInner → ScopeInner) : (system.modify id change).log = system.log := rfl

@[simp] theorem record_log (events : List Event) : (system.record events).log = system.log ++ events := rfl

@[simp] theorem accept_log (kind : Kind) (item : ℕ) :
    (system.accept kind id item).log = system.log ++ [.admitted kind id item] := rfl

@[simp] theorem openChild_log :
    (system.openChild id).log = system.log ++ [.opened id system.scopes.length] := rfl

@[simp] theorem drain_log (kind : Kind) (order : List ℕ → List ℕ) (handle : ℕ → Event) :
    (system.drain kind id order handle).log =
      system.log ++ (order ((system.scope id).items kind)).map handle := rfl

@[simp] theorem detach_log : (system.detach id).log = system.log := by
  rw [detach]
  split
  · rfl
  · split <;> rfl

end Logs

@[simp] theorem setItems_reason (inner : ScopeInner) (items : List ℕ) (kind : Kind) :
    (inner.setItems items kind).reason = inner.reason := by cases kind <;> rfl

@[simp] theorem setItems_closed (inner : ScopeInner) (items : List ℕ) (kind : Kind) :
    (inner.setItems items kind).closed = inner.closed := by cases kind <;> rfl

@[simp] theorem setItems_parent (inner : ScopeInner) (items : List ℕ) (kind : Kind) :
    (inner.setItems items kind).parent = inner.parent := by cases kind <;> rfl

@[simp] theorem setItems_children (inner : ScopeInner) (items : List ℕ) (kind : Kind) :
    (inner.setItems items kind).children = inner.children := by cases kind <;> rfl

@[simp] theorem setItems_dropped (inner : ScopeInner) (items : List ℕ) (kind : Kind) :
    (inner.setItems items kind).dropped = inner.dropped := by cases kind <;> rfl

@[simp] theorem items_setItems (inner : ScopeInner) (items : List ℕ) (kind other : Kind) :
    (inner.setItems items kind).items other = if kind = other then items else inner.items other := by
  cases kind <;> cases other <;> rfl

theorem openChild_extends (id : ScopeId) : Extends system (system.openChild id) := by
  have listed : Extends system (system.modify id fun scope =>
      { scope with children := scope.children ++ [system.scopes.length] }) :=
    .modify _ (fun _ isSet => isSet) (fun _ isSet => isSet) fun _ => rfl
  exact listed.trans (.append rfl fun event member => List.mem_append_left _ member)

theorem detach_extends (id : ScopeId) : Extends system (system.detach id) := by
  rw [detach]
  split
  · exact .refl system
  · split
    · exact .refl system
    · exact .modify _ (fun _ isSet => isSet) (fun _ isSet => isSet) fun _ => rfl

theorem Performs.extends (performs : Performs system work pushed after) : Extends system after := by
  cases performs with
  | late | request | cancelChildren | children | wait | spawn => exact .refl system
  | requestOne | again | refuse => exact .record system _
  | markFinished => exact (Extends.refl system).congr rfl rfl
  | cancel => exact .modify _ (by simp) (by simp) (by simp)
  | close => exact .modify _ (by simp) (by simp) (by simp)
  | clear => exact .modify _ (by simp) (by simp) (by simp)
  | finalize | resources | finalizers =>
    exact (Extends.modify _ (by simp) (by simp) (by simp)).trans (.record _ _)
  | insertTask => exact (Extends.modify _ (by simp) (by simp) (by simp)).trans (.record _ _)
  | accept id _ kind =>
    have admitted : Extends system (system.accept kind id system.fresh) :=
      (Extends.modify _ (by simp) (by simp) (by simp)).trans (.record _ _)
    exact admitted.congr rfl rfl
  | detach id => exact (detach_extends id).trans (.record _ _)
  | child id => exact openChild_extends id
  | spawnChild id => exact (openChild_extends id).congr rfl rfl

theorem Moves.extends {action : ScopeAction} (moves : Moves system action next) :
    Extends system next := by
  cases moves with
  | root => exact .append rfl fun _ member => member
  | refuse => exact .record system _
  | start | finish => exact (Extends.refl system).congr rfl rfl
  | token id reason => exact .modify _ (by simp) (by simp) (by simp)
  | drop => exact .modify _ (by simp) (by simp) (by simp)
  | perform thread granted work rest pushed after here performs => exact performs.extends.congr rfl rfl

section Stacks

/-- A stack of some thread. -/
def Running (system : ScopeSystem) (stack : List Work) : Prop := stack ∈ system.threads

/-- Where a stack comes from. -/
inductive Stacked (system next : ScopeSystem) : ScopeAction → List Work → Prop
  | old (action : ScopeAction) (stack : List Work) (running : system.Running stack) :
      Stacked system next action stack
  | start (thread : ThreadId) (id : ScopeId) (stack : List Work) (action : ScopeAction) (work : Work)
      (running : system.Running stack) (kept : (system.scope id).dropped = false)
      (starts : Starts thread id action work) : Stacked system next action (work :: stack)
  | finish (thread : ThreadId) (task : TaskId) (id : ScopeId) (running : system.Running [.body task id]) :
      Stacked system next (.finish thread) [.close id, .markFinished task]
  | perform (thread : ThreadId) (granted : Bool) (work : Work) (rest pushed : List Work)
      (after : ScopeSystem) (here : system.threads[thread]? = some (work :: rest))
      (performs : Performs system work pushed after) (same : next.scopes = after.scopes)
      (log : next.log = after.log) :
      Stacked system next (.step thread granted) (pushed ++ rest)
  | spawned (thread : ThreadId) (granted : Bool) (task : TaskId)
      (kept : (next.scope system.scopes.length).dropped = false) :
      Stacked system next (.step thread granted) [.body task system.scopes.length]

theorem mem_become (member : stack ∈ (system.become thread rest).threads) :
    stack = rest ∨ system.Running stack :=
  (List.mem_or_eq_of_mem_set member).symm

theorem running_become (here : system.threads[thread]? = some stack) (rest : List Work) :
    (system.become thread rest).Running rest :=
  List.mem_of_getElem? (List.getElem?_set_self (List.getElem?_eq_some_iff.mp here).1)

/-- Another stack stays; the one of the thread is replaced. -/
theorem running_stays (here : system.threads[thread]? = some stack) (rest : List Work)
    (running : system.Running pushed) :
    (system.become thread rest).Running pushed ∨ pushed = stack := by
  obtain ⟨other, isOther⟩ := List.mem_iff_getElem?.mp running
  by_cases same : thread = other
  · subst same
    exact .inr (Option.some.inj (isOther.symm.trans here))
  · exact .inl (List.mem_of_getElem? ((List.getElem?_set_ne same).trans isOther))

theorem Performs.threads (performs : Performs system work pushed after) :
    after.threads = system.threads ∨
      (∃ task, after.threads = system.threads ++ [[.body task system.scopes.length]]) ∧
        (after.scope system.scopes.length).dropped = false := by
  cases performs with
  | spawnChild id => exact .inr ⟨⟨_, rfl⟩, by simp [scope, openChild, modify, ScopeInner.new]⟩
  | detach id =>
    left
    simp only [ScopeSystem.record, ScopeSystem.detach]
    split
    · rfl
    · split <;> rfl
  | _ => exact .inl rfl

theorem Moves.stacked {action : ScopeAction} (moves : Moves system action next)
    (running : next.Running stack) : Stacked system next action stack := by
  cases moves with
  | root | token | drop | refuse => exact .old _ stack running
  | start thread id stack action work here resting kept starts =>
    rcases mem_become running with rfl | running
    · exact .start thread id stack action work (List.mem_of_getElem? here) kept starts
    · exact .old _ _ running
  | finish thread task id here =>
    rcases mem_become running with rfl | running
    · exact .finish thread task id (List.mem_of_getElem? here)
    · exact .old _ _ running
  | perform thread granted work rest pushed after here performs =>
    rcases mem_become running with rfl | running
    · exact .perform thread granted work rest pushed after here performs rfl rfl
    · rcases performs.threads with same | ⟨⟨task, grown⟩, kept⟩
      · rw [Running, same] at running
        exact .old _ _ running
      · rw [Running, grown, List.mem_append] at running
        rcases running with running | isNew
        · exact .old _ _ running
        · obtain rfl : stack = _ := List.mem_singleton.mp isNew
          exact .spawned thread granted task kept

/-- A stack that does not move stays. -/
theorem Moves.running {action : ScopeAction} (moves : Moves system action next)
    (running : system.Running stack) :
    next.Running stack ∨
      (∃ work, next.Running (work :: stack)) ∨
      (∃ task id, stack = [.body task id]) ∨
      ∃ thread granted work rest pushed after, action = .step thread granted ∧ stack = work :: rest ∧
        Performs system work pushed after ∧ next.Running (pushed ++ rest) := by
  cases moves with
  | root | token | drop | refuse => exact .inl running
  | start thread id before action work here resting kept starts =>
    rcases running_stays here (work :: before) running with stays | rfl
    · exact .inl stays
    · exact .inr (.inl ⟨work, running_become here _⟩)
  | finish thread task id here =>
    rcases running_stays here [.close id, .markFinished task] running with stays | rfl
    · exact .inl stays
    · exact .inr (.inr (.inl ⟨task, id, rfl⟩))
  | perform thread granted work rest pushed after here performs =>
    obtain ⟨here', running'⟩ : after.threads[thread]? = some (work :: rest) ∧ after.Running stack := by
      rcases performs.threads with same | ⟨⟨task, grown⟩, kept⟩
      · rw [Running, same]
        exact ⟨here, running⟩
      · refine ⟨?_, ?_⟩
        · rw [grown, List.getElem?_append_left (List.getElem?_eq_some_iff.mp here).1]
          exact here
        · rw [Running, grown]
          exact List.mem_append_left _ running
    rcases running_stays here' (pushed ++ rest) running' with stays | rfl
    · exact .inl stays
    · exact .inr (.inr (.inr ⟨thread, granted, work, rest, pushed, after, rfl, rfl, performs,
        running_become here' _⟩))

end Stacks

section Frames

/-- A scope that an action keeps as it is. -/
theorem scope_modify_other (change : ScopeInner → ScopeInner) (differs : id ≠ other) :
    (system.modify id change).scope other = system.scope other := by
  rw [scope_modify, if_neg fun both => differs both.1]

theorem drain_scope_other {kind : Kind} {order : List ℕ → List ℕ} {handle : ℕ → Event}
    (differs : id ≠ other) : (system.drain kind id order handle).scope other = system.scope other :=
  scope_modify_other _ differs

theorem openChild_scope (inside : id < system.scopes.length) :
    (system.openChild id).scope other =
      if other = system.scopes.length then .new (some id)
      else if other = id then { system.scope id with
        children := (system.scope id).children ++ [system.scopes.length] }
      else system.scope other := by
  have listed : (system.modify id fun scope =>
      { scope with children := scope.children ++ [system.scopes.length] }).scopes.length =
        system.scopes.length := by simp [modify]
  have grown : (system.openChild id).scope other = if other = (system.modify id fun scope =>
      { scope with children := scope.children ++ [system.scopes.length] }).scopes.length then
        .new (some id)
      else (system.modify id fun scope =>
        { scope with children := scope.children ++ [system.scopes.length] }).scope other :=
    scope_append rfl rfl
  rw [grown, listed]
  split_ifs with isNew same
  · rfl
  · subst same
    rw [scope_modify, if_pos ⟨rfl, inside⟩]
  · exact scope_modify_other _ (Ne.symm same)

/-- What holds of a scope holds after a change that keeps it. -/
theorem keep_modify (holds : ScopeInner → Prop) {change : ScopeInner → ScopeInner}
    (keeps : holds (system.scope other) → holds (change (system.scope other)))
    (held : holds (system.scope other)) : holds ((system.modify id change).scope other) := by
  rw [scope_modify]
  split_ifs
  · exact keeps held
  · exact held

theorem keep_detach (holds : ScopeInner → Prop) (id : ScopeId)
    (keeps : holds (system.scope other) → holds { system.scope other with
      children := (system.scope other).children.filter fun child => child ≠ id })
    (held : holds (system.scope other)) : holds ((system.detach id).scope other) := by
  rw [detach]
  split
  · exact held
  · split
    · exact held
    · exact keep_modify holds keeps held

/-- What holds of an old scope holds after a child was added. -/
theorem keep_openChild (holds : ScopeInner → Prop) (isOld : other < system.scopes.length)
    (keeps : holds (system.scope other) → holds { system.scope other with
      children := (system.scope other).children ++ [system.scopes.length] })
    (held : holds (system.scope other)) : holds ((system.openChild id).scope other) := by
  have old : (system.openChild id).scope other = (system.modify id fun scope =>
      { scope with children := scope.children ++ [system.scopes.length] }).scope other := by
    have grown : (system.openChild id).scope other = if other = (system.modify id fun scope =>
        { scope with children := scope.children ++ [system.scopes.length] }).scopes.length then
          .new (some id)
        else (system.modify id fun scope =>
          { scope with children := scope.children ++ [system.scopes.length] }).scope other :=
      scope_append rfl rfl
    rw [grown, if_neg (by simpa [modify] using isOld.ne)]
  rw [old]
  exact keep_modify holds keeps held

theorem Performs.kept (performs : Performs system work pushed after)
    (kept : (system.scope other).dropped = false) : (after.scope other).dropped = false := by
  have same {change : ScopeInner → ScopeInner} (id : ScopeId)
      (keeps : ∀ scope, (change scope).dropped = scope.dropped) :
      ((system.modify id change).scope other).dropped = false :=
    keep_modify (fun scope => scope.dropped = false) (fun _ => (keeps _).trans kept) kept
  have opened (id : ScopeId) : ((system.openChild id).scope other).dropped = false :=
    keep_openChild (fun scope => scope.dropped = false) (lt_length_of_kept kept) (fun kept => kept) kept
  cases performs with
  | late | request | cancelChildren | children | wait | spawn | requestOne | again | refuse
  | markFinished => exact kept
  | cancel | close | clear => exact same _ fun _ => rfl
  | finalize | resources | finalizers | insertTask | accept =>
    exact same _ fun _ => setItems_dropped _ _ _
  | detach id => exact keep_detach (fun scope => scope.dropped = false) id (fun kept => kept) kept
  | child id => exact opened id
  | spawnChild id => exact opened id

theorem Moves.kept {action : ScopeAction} (moves : Moves system action next)
    (kept : (system.scope other).dropped = false) (lives : action ≠ .drop other) :
    (next.scope other).dropped = false := by
  cases moves with
  | root =>
    rw [scope_append rfl rfl, if_neg (lt_length_of_kept kept).ne]
    exact kept
  | refuse | start | finish => exact kept
  | token => exact keep_modify (fun scope => scope.dropped = false) (fun kept => kept) kept
  | drop id =>
    rw [scope_modify_other]
    · exact kept
    · rintro rfl
      exact lives rfl
  | perform thread granted work rest pushed after here performs => exact performs.kept kept

/-- Only the close of a scope empties its lists. -/
theorem Performs.keepsItem (performs : Performs system work pushed after) {kind : Kind} {item : ℕ}
    (member : item ∈ (system.scope other).items kind) :
    item ∈ (after.scope other).items kind ∨ ∃ stage, work = .closing other stage := by
  have isOld : other < system.scopes.length := by
    by_contra beyond
    simp only [scope, List.getElem?_eq_none (not_lt.mp beyond)] at member
    cases kind <;> cases member
  have same {change : ScopeInner → ScopeInner} (id : ScopeId)
      (keeps : item ∈ (system.scope other).items kind → item ∈ (change (system.scope other)).items kind) :
      item ∈ ((system.modify id change).scope other).items kind :=
    keep_modify (fun scope => item ∈ scope.items kind) keeps member
  have opened (id : ScopeId) : item ∈ ((system.openChild id).scope other).items kind :=
    keep_openChild (fun scope => item ∈ scope.items kind) isOld (fun member => by cases kind <;> exact member) member
  have admits (admitted : Kind) (id : ScopeId) (new : ℕ) :
      item ∈ ((system.accept admitted id new).scope other).items kind :=
    same id fun member => by
      rw [items_setItems]
      split_ifs with isKind
      · subst isKind
        exact List.mem_append_left _ member
      · exact member
  cases performs with
  | late | request | cancelChildren | children | wait | spawn | requestOne | again | refuse
  | markFinished => exact .inl member
  | cancel | close | clear => exact .inl (same _ fun member => by cases kind <;> exact member)
  | finalize id | resources id | finalizers id =>
    by_cases own : id = other
    · subst own
      exact .inr ⟨_, rfl⟩
    · left
      rw [drain_scope_other own]
      exact member
  | insertTask => exact .inl (admits _ _ _)
  | accept => exact .inl (admits _ _ _)
  | detach id =>
    exact .inl (keep_detach (fun scope => item ∈ scope.items kind) id
      (fun member => by cases kind <;> exact member) member)
  | child id => exact .inl (opened id)
  | spawnChild id => exact .inl (opened id)

theorem Moves.keepsItem {action : ScopeAction} (moves : Moves system action next) {kind : Kind} {item : ℕ}
    (member : item ∈ (system.scope other).items kind) :
    item ∈ (next.scope other).items kind ∨
      ∃ stage rest, system.Running (.closing other stage :: rest) := by
  cases moves with
  | root =>
    left
    have isOld : other ≠ system.scopes.length := by
      rintro rfl
      simp only [scope, List.getElem?_eq_none le_rfl] at member
      cases kind <;> cases member
    rw [scope_append rfl rfl, if_neg isOld]
    exact member
  | refuse | start | finish => exact .inl member
  | token | drop =>
    exact .inl (keep_modify (fun scope => item ∈ scope.items kind)
      (fun member => by cases kind <;> exact member) member)
  | perform thread granted work rest pushed after here performs =>
    rcases performs.keepsItem member with member | ⟨stage, rfl⟩
    · exact .inl member
    · exact .inr ⟨stage, rest, List.mem_of_getElem? here⟩

/-- A child is forgotten by the close of its parent or by its own. -/
theorem Performs.keepsChild (performs : Performs system work pushed after) {child : ScopeId}
    (member : child ∈ (system.scope other).children) :
    child ∈ (after.scope other).children ∨ work = .closing other .clear ∨
      work = .closing child .detach := by
  have isOld : other < system.scopes.length := by
    by_contra beyond
    simp only [scope, List.getElem?_eq_none (not_lt.mp beyond)] at member
    cases member
  have same {change : ScopeInner → ScopeInner} (id : ScopeId)
      (keeps : ∀ scope, (change scope).children = scope.children) :
      child ∈ ((system.modify id change).scope other).children :=
    keep_modify (fun scope => child ∈ scope.children) (fun member => by rw [keeps]; exact member) member
  have opened (id : ScopeId) : child ∈ ((system.openChild id).scope other).children :=
    keep_openChild (fun scope => child ∈ scope.children) isOld
      (fun member => List.mem_append_left _ member) member
  cases performs with
  | late | request | cancelChildren | children | wait | spawn | requestOne | again | refuse
  | markFinished => exact .inl member
  | cancel | close => exact .inl (same _ fun _ => rfl)
  | clear id =>
    by_cases own : id = other
    · subst own
      exact .inr (.inl rfl)
    · left
      rw [scope_modify_other _ own]
      exact member
  | finalize | resources | finalizers | insertTask | accept =>
    exact .inl (same _ fun _ => setItems_children _ _ _)
  | detach id =>
    by_cases own : id = child
    · subst own
      exact .inr (.inr rfl)
    · exact .inl (keep_detach (fun scope => child ∈ scope.children) id
        (fun member => List.mem_filter.mpr ⟨member, by simpa using Ne.symm own⟩) member)
  | child id => exact .inl (opened id)
  | spawnChild id => exact .inl (opened id)

theorem Moves.keepsChild {action : ScopeAction} (moves : Moves system action next) {child : ScopeId}
    (member : child ∈ (system.scope other).children) :
    child ∈ (next.scope other).children ∨
      (∃ rest, system.Running (.closing other .clear :: rest)) ∨
      (∃ rest, system.Running (.closing child .detach :: rest)) ∧ .shut child ∈ next.log := by
  cases moves with
  | root =>
    left
    have isOld : other ≠ system.scopes.length := by
      rintro rfl
      simp only [scope, List.getElem?_eq_none le_rfl] at member
      cases member
    rw [scope_append rfl rfl, if_neg isOld]
    exact member
  | refuse | start | finish => exact .inl member
  | token | drop =>
    exact .inl (keep_modify (fun scope => child ∈ scope.children) (fun member => member) member)
  | perform thread granted work rest pushed after here performs =>
    rcases performs.keepsChild member with member | rfl | rfl
    · exact .inl member
    · exact .inr (.inl ⟨rest, List.mem_of_getElem? here⟩)
    · refine .inr (.inr ⟨⟨rest, List.mem_of_getElem? here⟩, ?_⟩)
      cases performs with
      | detach => exact List.mem_append_right _ (List.mem_cons_self ..)
      | accept _ _ _ admits => cases admits

/-- Only a close sets the flag of a scope. -/
theorem Performs.flags (performs : Performs system work pushed after)
    (unset : (system.scope other).closed = false) (flagged : (after.scope other).closed) :
    work = .close other := by
  have same {change : ScopeInner → ScopeInner} (id : ScopeId)
      (keeps : ∀ scope, (change scope).closed = scope.closed) :
      ((system.modify id change).scope other).closed = false :=
    keep_modify (fun scope => scope.closed = false) (fun _ => (keeps _).trans unset) unset
  have opened (id : ScopeId) : ((system.openChild id).scope other).closed = false := by
    by_cases isOld : other < system.scopes.length
    · exact keep_openChild (fun scope => scope.closed = false) isOld (fun unset => unset) unset
    · have grown : (system.openChild id).scope other = if other = (system.modify id fun scope =>
          { scope with children := scope.children ++ [system.scopes.length] }).scopes.length then
            .new (some id)
          else (system.modify id fun scope =>
            { scope with children := scope.children ++ [system.scopes.length] }).scope other :=
        scope_append rfl rfl
      rw [grown]
      split_ifs
      · rfl
      · exact same id fun _ => rfl
  cases performs with
  | late | request | cancelChildren | children | wait | spawn | requestOne | again | refuse
  | markFinished => cases flagged.symm.trans unset
  | close id =>
    by_cases own : id = other
    · rw [own]
    · rw [scope_modify_other _ own, unset] at flagged
      cases flagged
  | cancel | clear => cases flagged.symm.trans (same _ fun _ => rfl)
  | finalize | resources | finalizers | insertTask | accept =>
    cases flagged.symm.trans (same _ fun _ => setItems_closed _ _ _)
  | detach id =>
    cases flagged.symm.trans (keep_detach (fun scope => scope.closed = false) id (fun unset => unset) unset)
  | child id => cases flagged.symm.trans (opened id)
  | spawnChild id => cases flagged.symm.trans (opened id)

theorem Performs.pushesCancel (performs : Performs system (.close id) pushed after)
    (fresh : (system.scope id).closed = false) :
    pushed = [.cancel id .scopeClosed, .closing id .children] := by
  cases performs with
  | again _ isSet => rw [fresh] at isSet; cases isSet
  | close => rfl
  | accept _ _ _ admits => cases admits

theorem Moves.flags {action : ScopeAction} (moves : Moves system action next)
    (unset : (system.scope other).closed = false) (flagged : (next.scope other).closed) :
    ∃ thread granted rest, action = .step thread granted ∧
      system.threads[thread]? = some (.close other :: rest) ∧
      next.Running (.cancel other .scopeClosed :: .closing other .children :: rest) := by
  cases moves with
  | root =>
    rw [scope_append rfl rfl] at flagged
    split_ifs at flagged
    · cases flagged
    · cases flagged.symm.trans unset
  | refuse | start | finish => cases flagged.symm.trans unset
  | token | drop =>
    cases flagged.symm.trans (keep_modify (fun scope => scope.closed = false) (fun unset => unset) unset)
  | perform thread granted work rest pushed after here performs =>
    obtain rfl := performs.flags unset flagged
    obtain rfl := performs.pushesCancel unset
    refine ⟨thread, granted, rest, rfl, here, ?_⟩
    have stays : after.threads[thread]? = some (.close other :: rest) := by
      rcases performs.threads with same | ⟨⟨task, grown⟩, _⟩
      · rw [same, here]
      · rw [grown, List.getElem?_append_left (List.getElem?_eq_some_iff.mp here).1, here]
    exact running_become stays _

/-- A new scope is open and is listed by the parent that it has. -/
theorem openChild_parent {child : ScopeId} (inside : id < system.scopes.length)
    (isNew : system.scopes.length ≤ child)
    (isParent : ((system.openChild id).scope child).parent = some other) :
    other = id ∧ child = system.scopes.length ∧
      child ∈ ((system.openChild id).scope id).children := by
  rw [openChild_scope inside] at isParent
  split_ifs at isParent with same named
  · cases isParent
    refine ⟨rfl, same, ?_⟩
    rw [openChild_scope inside, if_neg inside.ne, if_pos rfl]
    simp [same]
  · exact absurd (named ▸ inside) (not_lt.mpr isNew)
  · simp [scope, List.getElem?_eq_none isNew, ScopeInner.missing] at isParent

/-- The work that makes a new scope. -/
def Work.Opens (id : ScopeId) (work : Work) : Prop := work = .child id ∨ work = .spawnChild id

theorem Performs.newChild (performs : Performs system work pushed after) {child : ScopeId}
    (kept : ∀ id, work.scope = some id → (system.scope id).dropped = false)
    (isNew : system.scopes.length ≤ child) (isParent : (after.scope child).parent = some other) :
    Work.Opens other work ∧ child = system.scopes.length ∧ child ∈ (after.scope other).children := by
  have none : (system.scope child).parent = none := by
    simp [scope, List.getElem?_eq_none isNew, ScopeInner.missing]
  have same {change : ScopeInner → ScopeInner} (id : ScopeId)
      (keeps : ∀ scope, (change scope).parent = scope.parent) :
      ((system.modify id change).scope child).parent = Option.none :=
    keep_modify (fun scope => scope.parent = Option.none) (fun _ => (keeps _).trans none) none
  cases performs with
  | child id =>
    obtain ⟨rfl, same, listed⟩ :=
      openChild_parent (lt_length_of_kept (kept id rfl)) isNew isParent
    exact ⟨.inl rfl, same, listed⟩
  | spawnChild id =>
    obtain ⟨rfl, same, listed⟩ :=
      openChild_parent (lt_length_of_kept (kept id rfl)) isNew isParent
    exact ⟨.inr rfl, same, listed⟩
  | late | request | cancelChildren | children | wait | spawn | requestOne | again | refuse
  | markFinished =>
    have isParent' : (system.scope child).parent = some other := isParent
    rw [none] at isParent'
    cases isParent'
  | cancel | close | clear => cases isParent.symm.trans (same _ fun _ => rfl)
  | finalize | resources | finalizers | insertTask | accept =>
    cases isParent.symm.trans (same _ fun _ => setItems_parent _ _ _)
  | detach id =>
    have beyond : ((system.detach id).scope child).parent = Option.none :=
      keep_detach (fun scope => scope.parent = Option.none) id (fun none => none) none
    cases beyond.symm.trans isParent

/-- A scope with a parent is new only when a living scope has opened it. -/
theorem Moves.newChild {action : ScopeAction} (moves : Moves system action next) {child : ScopeId}
    (kept : ∀ stack, system.Running stack → ∀ work ∈ stack, ∀ id, work.scope = some id →
      (system.scope id).dropped = false)
    (isNew : system.scopes.length ≤ child) (isParent : (next.scope child).parent = some id) :
    id < system.scopes.length ∧ child ∈ (next.scope id).children := by
  have none : (system.scope child).parent = Option.none := by
    simp [scope, List.getElem?_eq_none isNew, ScopeInner.missing]
  cases moves with
  | root =>
    rw [scope_append rfl rfl] at isParent
    split_ifs at isParent
    · cases isParent
    · cases isParent.symm.trans none
  | refuse | start | finish => cases isParent.symm.trans none
  | token | drop =>
    cases isParent.symm.trans (keep_modify (fun scope => scope.parent = Option.none) (fun none => none) none)
  | perform thread granted work rest pushed after here performs =>
    have kept' (id : ScopeId) (mentions : work.scope = some id) :=
      kept _ (List.mem_of_getElem? here) work (List.mem_cons_self ..) id mentions
    obtain ⟨opens, _, listed⟩ := performs.newChild kept' isNew isParent
    have mentions : work.scope = some id := by rcases opens with rfl | rfl <;> rfl
    exact ⟨lt_length_of_kept (kept' id mentions), listed⟩

/-- A new scope has a handle. -/
theorem Moves.newKept {action : ScopeAction} (moves : Moves system action next)
    (isNew : system.scopes.length ≤ other) (inside : other < next.scopes.length) :
    (next.scope other).dropped = false := by
  cases moves with
  | root =>
    have same : other = system.scopes.length := by
      rw [List.length_append, List.length_singleton] at inside
      exact Nat.le_antisymm (Nat.lt_succ_iff.mp inside) isNew
    rw [scope_append rfl rfl, if_pos same]
    rfl
  | refuse | start | finish => exact absurd inside (not_lt.mpr isNew)
  | token | drop =>
    simp only [modify, List.length_modify] at inside
    exact absurd inside (not_lt.mpr isNew)
  | perform thread granted work rest pushed after here performs =>
    replace inside : other < after.scopes.length := inside
    have opened (id : ScopeId) (inside : other < (system.openChild id).scopes.length) :
        ((system.openChild id).scope other).dropped = false := by
      have same : other = system.scopes.length := by
        simp only [openChild, modify, List.length_append, List.length_modify, List.length_singleton] at inside
        exact Nat.le_antisymm (Nat.lt_succ_iff.mp inside) isNew
      subst same
      simp [scope, openChild, modify, ScopeInner.new]
    cases performs with
    | child id => exact opened id inside
    | spawnChild id => exact opened id inside
    | late | request | cancelChildren | children | wait | spawn | requestOne | again | refuse
    | markFinished => exact absurd inside (not_lt.mpr isNew)
    | cancel | close | clear =>
      simp only [modify, List.length_modify] at inside
      exact absurd inside (not_lt.mpr isNew)
    | finalize | resources | finalizers =>
      simp only [drain, record, modify, List.length_modify] at inside
      exact absurd inside (not_lt.mpr isNew)
    | insertTask | accept =>
      simp only [accept, record, modify, List.length_modify] at inside
      exact absurd inside (not_lt.mpr isNew)
    | detach id =>
      have same : ((system.detach id).record [.shut id, .returned id]).scopes.length =
          system.scopes.length := by
        simp only [record, detach]
        split
        · rfl
        · split <;> simp [modify]
      rw [same] at inside
      exact absurd inside (not_lt.mpr isNew)

end Frames

end ScopeSystem

end HellRs.Scope.Shared
