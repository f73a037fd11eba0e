import HellRs.Lib.Chase
import HellRs.Lib.Obligations
import HellRs.Scope.SharedFacts

/-! # Cancellation reaches every resource

A call of `cancel` asks the resources of a scope and of the scopes below it, unless it finds the
reason already set: then it returns at once. When everything below has been asked by then, each
resource is asked before the scope that holds it, or one above it, waits for its tasks.
-/

namespace HellRs.Scope.Shared

open Chase Obligations

namespace Work

/-- The scope is past its call of `cancel` when this entry comes to the top. -/
def IsClosing (id : ScopeId) (work : Work) : Prop := ∃ stage, work = .closing id stage

def IsCancel (id : ScopeId) (work : Work) : Prop := ∃ reason, work = .cancel id reason

end Work

namespace ScopeSystem

variable {system next after : ScopeSystem} {thread : ThreadId} {id other : ScopeId} {work : Work}
  {stack rest pushed : List Work} {granted : Bool} {action : ScopeAction}

def Asked (system : ScopeSystem) (resource : ResourceId) : Prop :=
  ∃ reason, .asked resource reason ∈ system.log

/-- The scope below is on a list of children of the one above, in any number of steps. -/
def Below (system : ScopeSystem) : ScopeId → ScopeId → Prop :=
  Relation.ReflTransGen fun id child => child ∈ (system.scope id).children

/-- A call of `cancel` that returns at once leaves no resource below unasked, and no scope is dropped
that has not been closed. -/
structure Asks (system : ScopeSystem) (action : ScopeAction) : Prop where
  early : ∀ thread granted id reason rest, action = .step thread granted →
    system.threads[thread]? = some (.cancel id reason :: rest) → (system.scope id).reason.isSome →
      ∀ below, system.Below id below → ∀ resource ∈ (system.scope below).resources,
        system.Asked resource
  drops : ∀ id, action = .drop id → (system.scope id).closed

/-- What holds in every state of such a run. -/
structure Sound (system : ScopeSystem) : Prop where
  kept : ∀ stack, system.Running stack → ∀ work ∈ stack, ∀ id, work.scope = some id →
    (system.scope id).dropped = false
  flagged : ∀ stack, system.Running stack → ∀ id stage, .closing id stage ∈ stack →
    (system.scope id).closed
  cancelled : ∀ stack, system.Running stack → ∀ id, (system.scope id).reason = none →
    Guarded (Work.IsClosing id) (Work.IsCancel id) stack
  listed : ∀ id child, (system.scope child).parent = some id →
    child ∈ (system.scope id).children ∨ (system.scope child).closed ∨
      (system.scope id).closed ∧ (system.scope id).reason.isSome
  ranked : ∀ id child, (system.scope child).parent = some id → id < child

theorem lt_length_of_parent {child : ScopeId} (isParent : (system.scope child).parent = some id) :
    child < system.scopes.length := by
  by_contra beyond
  simp [scope, List.getElem?_eq_none (not_lt.mp beyond), ScopeInner.missing] at isParent

theorem Starts.scope {work : Work} (starts : Starts thread id action work) : work.scope = some id := by
  cases starts <;> rfl

theorem Starts.not_closing {work : Work} (starts : Starts thread id action work) :
    ¬work.IsClosing other := by
  cases starts <;> rintro ⟨_, ⟨⟩⟩

section Pushed

/-- The work that an entry calls has handles of its own scope, of living children or of none. -/
theorem Performs.scopes (performs : Performs system work pushed after) {called : Work}
    (member : called ∈ pushed) (mentions : called.scope = some id) :
    work.scope = some id ∨ (system.scope id).dropped = false := by
  have live {parent : ScopeId} (isLive : id ∈ system.liveChildren parent) :
      (system.scope id).dropped = false := by simpa using (List.mem_filter.mp isLive).2
  cases performs with
  | late | requestOne | again | detach | accept | child | refuse | insertTask | markFinished => cases member
  | cancel | close =>
    rcases List.mem_cons.mp member with rfl | member
    · exact .inl mentions
    · obtain rfl := List.mem_singleton.mp member
      exact .inl mentions
  | clear | wait | finalize | resources | finalizers | spawn | spawnChild =>
    obtain rfl := List.mem_singleton.mp member
    exact .inl mentions
  | request =>
    obtain ⟨resource, _, rfl⟩ := List.mem_map.mp member
    cases mentions
  | cancelChildren =>
    obtain ⟨child, isLive, rfl⟩ := List.mem_map.mp member
    cases mentions
    exact .inr (live isLive)
  | children =>
    rcases List.mem_append.mp member with member | member
    · obtain ⟨child, isLive, rfl⟩ := List.mem_map.mp member
      cases mentions
      exact .inr (live (List.mem_reverse.mp isLive))
    · obtain rfl := List.mem_singleton.mp member
      exact .inl mentions

/-- A close is called once, and goes on from stage to stage. -/
theorem Performs.closings (performs : Performs system work pushed after) {called : Work}
    (member : called ∈ pushed) (closing : called.IsClosing id) :
    work = .close id ∧ (system.scope id).closed = false ∨ work.IsClosing id := by
  obtain ⟨stage, rfl⟩ := closing
  cases performs with
  | late | requestOne | again | detach | accept | child | refuse | insertTask | markFinished => cases member
  | cancel | spawn | spawnChild | request | cancelChildren => simp at member
  | close _ fresh =>
    obtain ⟨rfl, _⟩ : id = _ ∧ stage = .children := by simpa using member
    exact .inl ⟨rfl, fresh⟩
  | clear | wait | finalize | resources | finalizers =>
    have same := List.mem_singleton.mp member
    cases same
    exact .inr ⟨_, rfl⟩
  | children =>
    obtain ⟨rfl, _⟩ : id = _ ∧ stage = .clear := by simpa using member
    exact .inr ⟨_, rfl⟩

end Pushed

theorem Sound.exists (sound : system.Sound) (running : system.Running stack) (member : work ∈ stack)
    (mentions : work.scope = some id) : id < system.scopes.length :=
  lt_length_of_kept (sound.kept stack running work member id mentions)

theorem Moves.soundKept (sound : system.Sound) (moves : Moves system action next)
    (running : next.Running stack) (member : work ∈ stack) (mentions : work.scope = some id) :
    (next.scope id).dropped = false := by
  by_cases isDrop : action = .drop id
  · -- The scope that is dropped is on no stack.
    subst isDrop
    cases moves with
    | refuse _ _ _ _ starts => cases starts
    | start _ _ _ _ _ _ _ _ starts => cases starts
    | drop _ _ free => exact absurd mentions (free stack running work member)
  · have keeps (kept : (system.scope id).dropped = false) := moves.kept kept isDrop
    cases moves.stacked running with
    | old _ _ old => exact keeps (sound.kept stack old work member id mentions)
    | start _ called before _ _ old kept starts =>
      rcases List.mem_cons.mp member with rfl | member
      · cases starts.scope.symm.trans mentions
        exact keeps kept
      · exact keeps (sound.kept before old work member id mentions)
    | finish _ task called old =>
      have kept := sound.kept _ old (.body task called) (List.mem_singleton_self _) called rfl
      rcases List.mem_cons.mp member with rfl | member
      · cases mentions
        exact keeps kept
      · cases List.mem_singleton.mp member
        cases mentions
    | perform _ _ top rest pushed after here performs _ _ =>
      have old := List.mem_of_getElem? here
      rcases List.mem_append.mp member with isPushed | below
      · rcases performs.scopes isPushed mentions with same | kept
        · exact keeps (sound.kept _ old top (List.mem_cons_self ..) id same)
        · exact keeps kept
      · exact keeps (sound.kept _ old work (List.mem_cons_of_mem _ below) id mentions)
    | spawned _ _ task kept =>
      cases List.mem_singleton.mp member
      cases mentions
      exact kept

theorem Performs.setsClosed (performs : Performs system (.close id) pushed after)
    (inside : id < system.scopes.length) : (after.scope id).closed := by
  cases performs with
  | again _ isSet => exact isSet
  | close => rw [scope_modify, if_pos ⟨rfl, inside⟩]
  | accept _ _ _ admits => cases admits

theorem scope_congr (same : next.scopes = after.scopes) (id : ScopeId) : next.scope id = after.scope id := by
  rw [scope, same, scope]

theorem Moves.soundFlagged (sound : system.Sound) (moves : Moves system action next)
    (running : next.Running stack) {stage : CloseStage} (member : .closing id stage ∈ stack) :
    (next.scope id).closed := by
  have keeps := moves.extends.closed id
  cases moves.stacked running with
  | old _ _ old => exact keeps (sound.flagged stack old id stage member)
  | start _ _ before _ _ old _ starts =>
    rcases List.mem_cons.mp member with rfl | member
    · exact absurd ⟨stage, rfl⟩ starts.not_closing
    · exact keeps (sound.flagged before old id stage member)
  | finish => simp at member
  | spawned => simp at member
  | perform _ _ top rest pushed after here performs same _ =>
    have old := List.mem_of_getElem? here
    rcases List.mem_append.mp member with isPushed | below
    · rcases performs.closings isPushed ⟨stage, rfl⟩ with ⟨rfl, _⟩ | ⟨before, rfl⟩
      · rw [scope_congr same]
        exact performs.setsClosed (sound.exists old (List.mem_cons_self ..) rfl)
      · exact keeps (sound.flagged _ old id before (List.mem_cons_self ..))
    · exact keeps (sound.flagged _ old id stage (List.mem_cons_of_mem _ below))

theorem Performs.setsReason {reason : CancelReason} (performs : Performs system (.cancel id reason) pushed after)
    (inside : id < system.scopes.length) : (after.scope id).reason.isSome := by
  cases performs with
  | late _ _ isSet => exact isSet
  | cancel =>
    rw [scope_modify, if_pos ⟨rfl, inside⟩]
    rfl
  | accept _ _ _ admits => cases admits

theorem Moves.soundCancelled (sound : system.Sound) (moves : Moves system action next)
    (running : next.Running stack) (unset : (next.scope id).reason = none) :
    Guarded (Work.IsClosing id) (Work.IsCancel id) stack := by
  have unset' : (system.scope id).reason = none := by
    cases isSet : (system.scope id).reason with
    | none => rfl
    | some reason =>
      have isSome := moves.extends.reason id (by rw [isSet]; rfl)
      rw [unset] at isSome
      cases isSome
  cases moves.stacked running with
  | old _ _ old => exact sound.cancelled stack old id unset'
  | start _ _ before _ _ old _ starts =>
    exact (sound.cancelled before old id unset').push starts.not_closing
  | finish => exact guarded_of_calm (by simp [Work.IsClosing])
  | spawned => exact guarded_of_calm (by simp [Work.IsClosing])
  | perform _ _ top rest pushed after here performs same _ =>
    have old := List.mem_of_getElem? here
    have guarded := sound.cancelled _ old id unset'
    by_cases closes : top = .close id ∧ (system.scope id).closed = false
    · obtain ⟨rfl, fresh⟩ := closes
      rw [performs.pushesCancel fresh]
      exact ⟨by simp [Work.IsClosing], .inl ⟨_, rfl⟩⟩
    · have cancels : ¬top.IsCancel id := by
        rintro ⟨reason, rfl⟩
        have isSome := performs.setsReason (sound.exists old (List.mem_cons_self ..) rfl)
        rw [← scope_congr same, unset] at isSome
        cases isSome
      refine (guarded.pop cancels).append fun called member closing => ?_
      rcases performs.closings member closing with isClose | isClosing
      · exact closes isClose
      · exact guarded.top isClosing

theorem Moves.soundListed (sound : system.Sound) (moves : Moves system action next) {child : ScopeId}
    (isParent : (next.scope child).parent = some id) :
    child ∈ (next.scope id).children ∨ (next.scope child).closed ∨
      (next.scope id).closed ∧ (next.scope id).reason.isSome := by
  have extended := moves.extends
  by_cases isOld : child < system.scopes.length
  · rw [extended.parent child isOld] at isParent
    rcases sound.listed id child isParent with listed | closed | ⟨closed, isSet⟩
    · rcases moves.keepsChild listed with listed | ⟨rest, clears⟩ | ⟨⟨rest, detaches⟩, _⟩
      · exact .inl listed
      · refine .inr (.inr ⟨extended.closed id (sound.flagged _ clears id .clear (List.mem_cons_self ..)),
          extended.reason id ?_⟩)
        by_contra unset
        exact (sound.cancelled _ clears id (by simpa using unset)).top ⟨.clear, rfl⟩
      · exact .inr (.inl (extended.closed child
          (sound.flagged _ detaches child .detach (List.mem_cons_self ..))))
    · exact .inr (.inl (extended.closed child closed))
    · exact .inr (.inr ⟨extended.closed id closed, extended.reason id isSet⟩)
  · exact .inl (moves.newChild (fun _ running work member mentioned mentions =>
      sound.kept _ running work member mentioned mentions) (not_lt.mp isOld) isParent).2

theorem Moves.soundRanked (sound : system.Sound) (moves : Moves system action next) {child : ScopeId}
    (isParent : (next.scope child).parent = some id) : id < child := by
  by_cases isOld : child < system.scopes.length
  · rw [moves.extends.parent child isOld] at isParent
    exact sound.ranked id child isParent
  · have inside := (moves.newChild (fun _ running work member mentioned mentions =>
      sound.kept _ running work member mentioned mentions) (not_lt.mp isOld) isParent).1
    exact inside.trans_le (not_lt.mp isOld)

theorem Moves.sound (sound : system.Sound) (moves : Moves system action next) : next.Sound where
  kept _ running _ member _ mentions := moves.soundKept sound running member mentions
  flagged _ running _ _ member := moves.soundFlagged sound running member
  cancelled _ running _ unset := moves.soundCancelled sound running unset
  listed _ _ isParent := moves.soundListed sound isParent
  ranked _ _ isParent := moves.soundRanked sound isParent

section Waiting

variable {parent : ScopeId → Option ScopeId} {top bottom : ScopeId} {resource : ResourceId}

/-- The scopes from one up to a scope above it. -/
def OnWay (parent : ScopeId → Option ScopeId) (top bottom id : ScopeId) : Prop :=
  Leads parent bottom id ∧ Leads parent id top

/-- The entry will have the resource asked. -/
def Serves (parent : ScopeId → Option ScopeId) (top bottom : ScopeId) (resource : ResourceId) : Work → Prop
  | .cancel id _ => OnWay parent top bottom id
  | .request id _ => id = bottom
  | .requestOne asked _ => asked = resource
  | .cancelChildren id => OnWay parent top bottom id ∧ id ≠ bottom
  | _ => False

def Needs (parent : ScopeId → Option ScopeId) (top bottom : ScopeId) (work : Work) : Prop :=
  ∃ id, OnWay parent top bottom id ∧ work.IsClosing id

/-- The resource has not been asked, but no close of a scope on the way passes it by. -/
structure Waiting (parent : ScopeId → Option ScopeId) (top bottom : ScopeId) (resource : ResourceId)
    (system : ScopeSystem) : Prop where
  leads : Leads parent bottom top
  registered : resource ∈ (system.scope bottom).resources
  linked : ∀ id child, OnWay parent top bottom child → child ≠ top → parent child = some id →
    child ∈ (system.scope id).children ∧ (system.scope child).dropped = false
  guarded : ∀ stack, system.Running stack →
    Guarded (Needs parent top bottom) (Serves parent top bottom resource) stack
  closing : ∀ id, OnWay parent top bottom id → id ≠ top → (system.scope id).closed →
    ∃ stack, system.Running stack ∧ ∃ work ∈ stack, work.IsClosing id

theorem OnWay.above {child : ScopeId} (onWay : OnWay parent top bottom child) (below : child ≠ top) :
    ∃ id, parent child = some id ∧ OnWay parent top bottom id := by
  obtain ⟨under, above⟩ := onWay
  rcases above.cases_head with same | ⟨id, isParent, above⟩
  · exact absurd same below
  · exact ⟨id, isParent, under.trans (.head isParent (.refl _)), above⟩

section Ranked

variable (ranked : ∀ id child, parent child = some id → id < child)

include ranked

theorem leads_le {first last : ScopeId} (leads : Leads parent first last) : last ≤ first := by
  induction leads with
  | refl => exact le_rfl
  | tail _ link ih => exact (ranked _ _ link).le.trans ih

/-- The next scope on the way down. -/
theorem OnWay.below (onWay : OnWay parent top bottom id) (above : id ≠ bottom) :
    ∃ child, parent child = some id ∧ OnWay parent top bottom child ∧ child ≠ top := by
  obtain ⟨under, leads⟩ := onWay
  rcases Relation.ReflTransGen.cases_tail under with same | ⟨child, under, isParent⟩
  · exact absurd same above
  · refine ⟨child, isParent, ⟨under, .head isParent leads⟩, ?_⟩
    rintro rfl
    exact absurd (ranked id child isParent) (not_lt.mpr (leads_le ranked leads))

/-- The way is on the lists of children. -/
theorem Waiting.below (waiting : Waiting parent top bottom resource system)
    (onWay : OnWay parent top bottom id) : system.Below id bottom := by
  obtain ⟨under, leads⟩ := onWay
  induction under with
  | refl => exact .refl
  | @tail child id under isParent ih =>
    have leads' : Leads parent child top := .head isParent leads
    have notTop : child ≠ top := by
      rintro rfl
      exact absurd (ranked id child isParent) (not_lt.mpr (leads_le ranked leads))
    exact Relation.ReflTransGen.head (waiting.linked id child ⟨under, leads'⟩ notTop isParent).1 (ih leads')

end Ranked

section Step

variable (ranked : ∀ id child, parent child = some id → id < child)
  (waiting : Waiting parent top bottom resource system)

include ranked waiting

/-- Work on top of a stack that serves calls work that serves, or the resource has been asked. -/
theorem Waiting.serves (asks : system.Asks (.step thread granted))
    (here : system.threads[thread]? = some (work :: rest)) (performs : Performs system work pushed after)
    (serves : Serves parent top bottom resource work) :
    after.Asked resource ∨ (∀ called ∈ pushed, ¬Needs parent top bottom called) ∧
      ∃ called ∈ pushed, Serves parent top bottom resource called := by
  cases performs with
  | late id reason isSet =>
    exact .inl (asks.early thread granted id reason rest rfl here isSet bottom
      (waiting.below ranked serves) resource waiting.registered)
  | cancel id reason =>
    refine .inr ⟨by simp [Needs, Work.IsClosing], ?_⟩
    by_cases atBottom : id = bottom
    · exact ⟨.request id reason, by simp, atBottom⟩
    · exact ⟨.cancelChildren id, by simp, serves, atBottom⟩
  | request id reason =>
    obtain rfl : id = bottom := serves
    exact .inr ⟨by simp [Needs, Work.IsClosing], .requestOne resource reason,
      List.mem_map_of_mem (List.mem_reverse.mpr waiting.registered), rfl⟩
  | requestOne asked reason =>
    obtain rfl : asked = resource := serves
    exact .inl ⟨reason, List.mem_append_right _ (List.mem_singleton_self _)⟩
  | cancelChildren id =>
    obtain ⟨onWay, above⟩ := serves
    obtain ⟨child, isParent, onWay', notTop⟩ := onWay.below ranked above
    obtain ⟨listed, kept⟩ := waiting.linked id child onWay' notTop isParent
    have isLive : child ∈ system.liveChildren id := List.mem_filter.mpr ⟨listed, by simp [kept]⟩
    exact .inr ⟨by simp [Needs, Work.IsClosing], .cancel child .parentCancelled,
      List.mem_map_of_mem isLive, onWay'⟩
  | accept _ _ _ admits => cases admits <;> cases serves
  | _ => cases serves

theorem Waiting.guarded_next (asks : system.Asks action) (moves : Moves system action next)
    (running : next.Running stack) :
    next.Asked resource ∨ Guarded (Needs parent top bottom) (Serves parent top bottom resource) stack := by
  cases moves.stacked running with
  | old _ _ old => exact .inr (waiting.guarded stack old)
  | start _ _ before _ _ old _ starts =>
    refine .inr ((waiting.guarded before old).push ?_)
    rintro ⟨id, _, closing⟩
    exact starts.not_closing closing
  | finish => exact .inr (guarded_of_calm (by simp [Needs, Work.IsClosing]))
  | spawned => exact .inr (guarded_of_calm (by simp [Needs, Work.IsClosing]))
  | perform thread granted first rest pushed after here performs same log =>
    have old := List.mem_of_getElem? here
    have guarded := waiting.guarded _ old
    by_cases serves : Serves parent top bottom resource first
    · rcases waiting.serves ranked asks here performs serves with ⟨reason, asked⟩ | ⟨calm, serving⟩
      · exact .inl ⟨reason, log ▸ asked⟩
      · exact .inr (guarded_append calm serving)
    · right
      by_cases closes : ∃ id, OnWay parent top bottom id ∧ first = .close id ∧ (system.scope id).closed = false
      · obtain ⟨id, onWay, rfl, fresh⟩ := closes
        rw [performs.pushesCancel fresh]
        exact ⟨by simp [Needs, Work.IsClosing], .inl onWay⟩
      · refine (guarded.pop serves).append ?_
        rintro called member ⟨id, onWay, closing⟩
        rcases performs.closings member closing with isClose | isClosing
        · exact closes ⟨id, onWay, isClose⟩
        · exact guarded.top ⟨id, onWay, isClosing⟩

omit ranked in
theorem Waiting.notOnWay {stage : CloseStage} (running : system.Running (.closing id stage :: rest)) :
    ¬OnWay parent top bottom id :=
  fun onWay => (waiting.guarded _ running).top ⟨id, onWay, stage, rfl⟩

omit ranked in
/-- The close of a scope on the way goes on. -/
theorem Waiting.closing_next (moves : Moves system action next) (onWay : OnWay parent top bottom id)
    (below : id ≠ top) (closed : (next.scope id).closed) :
    ∃ stack, next.Running stack ∧ ∃ work ∈ stack, work.IsClosing id := by
  cases before : (system.scope id).closed with
  | false =>
    obtain ⟨_, _, rest, _, _, running⟩ := moves.flags before closed
    exact ⟨_, running, .closing id .children, by simp, .children, rfl⟩
  | true =>
    obtain ⟨stack, running, work, member, closing⟩ := waiting.closing id onWay below before
    rcases moves.running running with stays | ⟨first, stays⟩ | ⟨task, scope, rfl⟩ |
      ⟨thread, granted, first, rest, pushed, after, _, rfl, performs, stays⟩
    · exact ⟨stack, stays, work, member, closing⟩
    · exact ⟨_, stays, work, List.mem_cons_of_mem _ member, closing⟩
    · obtain ⟨stage, rfl⟩ := closing
      cases List.mem_singleton.mp member
    · rcases List.mem_cons.mp member with rfl | member
      · obtain ⟨stage, rfl⟩ := closing
        exact absurd onWay (waiting.notOnWay running)
      · exact ⟨_, stays, work, List.mem_append_right _ member, closing⟩

/-- The resource is asked before a close on the way passes it by. -/
theorem Waiting.step (asks : system.Asks action) (moves : Moves system action next) :
    next.Asked resource ∨ Waiting parent top bottom resource next := by
  by_cases asked : next.Asked resource
  · exact .inl asked
  · refine .inr ⟨waiting.leads, ?_, fun id child onWay below isParent => ⟨?_, ?_⟩, fun stack running => ?_,
      fun id onWay below closed => waiting.closing_next moves onWay below closed⟩
    · have listed : resource ∈ (system.scope bottom).items .resource := waiting.registered
      rcases moves.keepsItem listed with registered | ⟨stage, rest, running⟩
      · exact registered
      · exact absurd ⟨.refl _, waiting.leads⟩ (waiting.notOnWay running)
    · rcases moves.keepsChild (waiting.linked id child onWay below isParent).1 with
        listed | ⟨rest, running⟩ | ⟨⟨rest, running⟩, _⟩
      · exact listed
      · obtain ⟨id', isParent', above⟩ := onWay.above below
        obtain rfl : id = id' := Option.some.inj (isParent.symm.trans isParent')
        exact absurd above (waiting.notOnWay running)
      · exact absurd onWay (waiting.notOnWay running)
    · refine moves.kept (waiting.linked id child onWay below isParent).2 ?_
      rintro rfl
      -- A closed scope on the way is still on the stack of its closer.
      obtain ⟨stack, running, work, member, stage, rfl⟩ :=
        waiting.closing child onWay below (asks.drops child rfl)
      cases moves with
      | refuse _ _ _ _ starts => cases starts
      | start _ _ _ _ _ _ _ _ starts => cases starts
      | drop _ _ free => exact free stack running _ member rfl
    · exact (waiting.guarded_next ranked asks moves running).resolve_left asked

end Step

end Waiting

/-- The scope below is open, and so are those between. -/
structure OpenBelow (system : ScopeSystem) (top bottom : ScopeId) : Prop where
  leads : Leads (fun id => (system.scope id).parent) bottom top
  unclosed : ∀ id, OnWay (fun id => (system.scope id).parent) top bottom id → id ≠ top →
    (system.scope id).closed = false
  kept : ∀ id, OnWay (fun id => (system.scope id).parent) top bottom id → id ≠ top →
    (system.scope id).dropped = false

/-- Until the scope above is cancelled, what is registered in open scopes below has not been passed by. -/
theorem OpenBelow.waiting (sound : system.Sound) {top bottom : ScopeId} {resource : ResourceId}
    (unset : (system.scope top).reason = none) (below : system.OpenBelow top bottom)
    (registered : resource ∈ (system.scope bottom).resources) :
    Waiting (fun id => (system.scope id).parent) top bottom resource system where
  leads := below.leads
  registered := registered
  linked id child onWay notTop isParent := by
    refine ⟨?_, below.kept child onWay notTop⟩
    rcases sound.listed id child isParent with listed | closed | ⟨closed, isSet⟩
    · exact listed
    · rw [below.unclosed child onWay notTop] at closed
      cases closed
    · obtain ⟨id', isParent', onWay'⟩ := onWay.above notTop
      obtain rfl : id = id' := Option.some.inj (isParent.symm.trans isParent')
      by_cases atTop : id = top
      · subst atTop
        rw [unset] at isSet
        cases isSet
      · rw [below.unclosed id onWay' atTop] at closed
        cases closed
  guarded stack running := by
    refine (sound.cancelled stack running top unset).mono ?_ ?_
    · rintro work member ⟨id, onWay, stage, rfl⟩
      by_cases atTop : id = top
      · exact ⟨stage, by rw [atTop]⟩
      · have closed := sound.flagged stack running id stage member
        rw [below.unclosed id onWay atTop] at closed
        cases closed
    · rintro work ⟨reason, rfl⟩
      exact ⟨below.leads, .refl _⟩
  closing id onWay notTop closed := by
    rw [below.unclosed id onWay notTop] at closed
    cases closed

/-- Any number of actions that all meet a condition. -/
def Run (condition : ScopeSystem → ScopeAction → Prop) : ScopeSystem → ScopeSystem → Prop :=
  Relation.ReflTransGen fun system next =>
    ∃ action, condition system action ∧ system.act action = some next

theorem Initial.sound (initial : system.Initial) : system.Sound := by
  have noScope (id : ScopeId) : system.scope id = .missing := by simp [scope, initial.scopes]
  refine ⟨?_, ?_, ?_, ?_, ?_⟩
  · intro stack running work member
    obtain rfl := initial.threads stack running
    cases member
  · intro stack running id stage member
    obtain rfl := initial.threads stack running
    cases member
  · intro stack running id _
    obtain rfl := initial.threads stack running
    trivial
  · intro id child isParent
    rw [noScope] at isParent
    cases isParent
  · intro id child isParent
    rw [noScope] at isParent
    cases isParent

theorem Run.sound {condition : ScopeSystem → ScopeAction → Prop} {first last : ScopeSystem}
    (run : Run condition first last) (sound : first.Sound) : last.Sound := by
  induction run with
  | refl => exact sound
  | tail _ step ih =>
    obtain ⟨action, _, acted⟩ := step
    exact (act_moves acted).sound ih

section OneThread

/-- Follow the actions, as long as they succeed and pass the check. -/
def follow (check : ScopeSystem → ScopeAction → Bool) (system : ScopeSystem) :
    List ScopeAction → Option ScopeSystem
  | [] => some system
  | action :: actions =>
      if check system action then (system.act action).bind fun next => follow check next actions else none

theorem follow_run {condition : ScopeSystem → ScopeAction → Prop} (check : ScopeSystem → ScopeAction → Bool)
    (meets : ∀ system action, check system action → condition system action)
    (actions : List ScopeAction) (followed : follow check system actions = some next) :
    Run condition system next := by
  induction actions generalizing system with
  | nil => cases followed; exact .refl
  | cons action actions ih =>
    simp only [follow] at followed
    split at followed
    next checked =>
      obtain ⟨middle, acted, followed⟩ := Option.bind_eq_some_iff.mp followed
      exact .head ⟨action, meets system action checked, acted⟩ (ih followed)
    next => cases followed

/-- Nothing is dropped, and no call of `cancel` finds a reason. -/
def firstCancel (system : ScopeSystem) : ScopeAction → Bool
  | .drop _ => false
  | .step thread _ =>
      match system.threads[thread]? with
      | some (.cancel id _ :: _) => (system.scope id).reason.isNone
      | _ => true
  | _ => true

theorem firstCancel_asks (system : ScopeSystem) (action : ScopeAction)
    (isFirst : firstCancel system action) : system.Asks action where
  early thread granted id reason rest isStep here isSet := by
    subst isStep
    simp [firstCancel, here] at isFirst
    rw [isFirst] at isSet
    cases isSet
  drops id isDrop := by
    subst isDrop
    cases isFirst

def oneThread : ScopeSystem := ⟨[], [[]], [], 0, []⟩

theorem oneThread_initial : oneThread.Initial := ⟨rfl, by simp [oneThread], rfl, rfl⟩

/-- A scope with one resource. -/
def registered : ScopeSystem :=
  ⟨[{ ScopeInner.new none with resources := [0] }], [[]], [], 1, [.admitted .resource 0 0]⟩

theorem registered_run : Run (fun _ _ => True) oneThread registered :=
  follow_run (fun _ _ => true) (fun _ _ _ => trivial) [.root, .register 0 0, .step 0 true] (by decide)

theorem registered_open : registered.OpenBelow 0 0 := by
  have only {id : ScopeId} (onWay : OnWay (fun id => (registered.scope id).parent) 0 0 id) : id = 0 := by
    rcases onWay.1.cases_head with same | ⟨above, isParent, _⟩
    · exact same.symm
    · cases isParent
  exact ⟨.refl _, fun id onWay notTop => absurd (only onWay) notTop,
    fun id onWay notTop => absurd (only onWay) notTop⟩

/-- The close of the scope has asked the resource and waits. -/
def asking : ScopeSystem :=
  ⟨[{ ScopeInner.new none with reason := some .scopeClosed, closed := true, resources := [0] }],
    [[.closing 0 .tasks]], [], 1, [.admitted .resource 0 0, .asked 0 .scopeClosed]⟩

/-- The token was cancelled first: the close asks nobody. -/
def bypassed : ScopeSystem :=
  ⟨[{ ScopeInner.new none with reason := some .siblingFailed, closed := true, resources := [0] }],
    [[.closing 0 .tasks]], [], 1, [.admitted .resource 0 0]⟩

end OneThread

end ScopeSystem

end HellRs.Scope.Shared
