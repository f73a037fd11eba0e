import HellRs.Scope.Token

/-! # Cancellation is stable and reaches every waiter

As long as parents outlive their children, a token that a cancellation has reached stays cancelled,
and a thread that waits on it is awake or has its notification ahead. Its reason is that of the first
cancellation that reached it, if later ones do not overwrite it.
-/

namespace HellRs.Scope

open Chase

namespace TokenSystem

variable {system next : TokenSystem} {thread worker : ThreadId} {token other : TokenId}

section Fields

theorem get_append (tokens : List Token) (new : Token) (other : TokenId) :
    (tokens ++ [new])[other]? = if other = tokens.length then some new else tokens[other]? := by
  split_ifs with same
  · simp [same]
  · rcases Nat.lt_or_gt_of_ne same with old | beyond
    · rw [List.getElem?_append_left old]
    · rw [List.getElem?_eq_none (by simp; omega), List.getElem?_eq_none (by omega)]

@[simp] theorem modify_length (change : Token → Token) :
    (system.modify token change).tokens.length = system.tokens.length := by
  simp [modify]

theorem get_modify (change : Token → Token) :
    (system.modify token change).tokens[other]? =
      (system.tokens[other]?).map fun state => if token = other then change state else state := by
  rw [modify, List.getElem?_modify]
  by_cases same : token = other
  · simp [same]
  · simp [same]

theorem modify_parent {change : Token → Token} (keeps : ∀ state, (change state).parent = state.parent) :
    (system.modify token change).parent = system.parent := by
  funext other
  rw [parent, get_modify, parent]
  cases system.tokens[other]? with
  | none => rfl
  | some state => by_cases same : token = other <;> simp [same, keeps]

theorem modify_reason {change : Token → Token} (keeps : ∀ state, (change state).reason = state.reason) :
    (system.modify token change).reason = system.reason := by
  funext other
  rw [reason, get_modify, reason]
  cases system.tokens[other]? with
  | none => rfl
  | some state => by_cases same : token = other <;> simp [same, keeps]

theorem modify_handles {change : Token → Token} (keeps : ∀ state, (change state).handles = state.handles) :
    (system.modify token change).handles = system.handles := by
  funext other
  rw [handles, get_modify, handles]
  cases system.tokens[other]? with
  | none => rfl
  | some state => by_cases same : token = other <;> simp [same, keeps]

theorem modify_children {change : Token → Token} (keeps : ∀ state, (change state).children = state.children) :
    (system.modify token change).children = system.children := by
  funext other
  rw [children, get_modify, children]
  cases system.tokens[other]? with
  | none => rfl
  | some state => by_cases same : token = other <;> simp [same, keeps]

theorem mem_children_modify {change : Token → Token} {child : TokenId}
    (keeps : ∀ state, child ∈ state.children → child ∈ (change state).children)
    (member : child ∈ system.children other) : child ∈ (system.modify token change).children other := by
  rw [children, get_modify]
  rw [children] at member
  cases here : system.tokens[other]? with
  | none => simp [here] at member
  | some state =>
    rw [here] at member
    by_cases same : token = other
    · simpa [same] using keeps state member
    · simpa [same] using member

theorem reason_set (reason : CancelReason) (other : TokenId) (held : 0 < system.handles token) :
    (system.modify token fun state => { state with reason := some reason }).reason other =
      if other = token then some reason else system.reason other := by
  rw [TokenSystem.reason, get_modify]
  by_cases same : other = token
  · subst same
    cases here : system.tokens[other]? with
    | none => simp [handles, here] at held
    | some state => simp
  · rw [if_neg same, TokenSystem.reason]
    cases system.tokens[other]? <;> simp [Ne.symm same]

theorem handles_sub :
    (system.modify token fun state => { state with handles := state.handles - 1 }).handles other =
      if other = token then system.handles other - 1 else system.handles other := by
  rw [handles, get_modify, handles]
  by_cases same : other = token
  · subst same
    cases system.tokens[other]? <;> simp
  · cases system.tokens[other]? <;> simp [same, Ne.symm same]

theorem handles_le {change : Token → Token} (grows : ∀ state, state.handles ≤ (change state).handles) :
    system.handles other ≤ (system.modify token change).handles other := by
  rw [handles, handles, get_modify]
  cases system.tokens[other]? with
  | none => simp
  | some state =>
    by_cases same : token = other
    · simpa [same] using grows state
    · simp [same]

end Fields

/-- The first step of a call. -/
inductive Begins (thread : ThreadId) (token : TokenId) : TokenAction → Program → Prop
  | observe : Begins thread token (.observe thread token) (.observe [token])
  | wait : Begins thread token (.wait thread token) (.lock token)
  | cancel (reason : CancelReason) :
      Begins thread token (.cancel thread token reason) (.cancel token reason)

/-- What an action does. -/
inductive Moves (system : TokenSystem) : TokenAction → TokenSystem → Prop
  | create : Moves system .create { system with tokens := system.tokens ++ [⟨none, none, [], 1⟩] }
  | clone (token : TokenId) (held : 0 < system.handles token) :
      Moves system (.clone token)
        (system.modify token fun state => { state with handles := state.handles + 1 })
  | drop (thread : ThreadId) (token : TokenId) (before after : Program)
      (here : system.threads[thread]? = some before) (resting : before.resting)
      (free : system.handles token = 1 → ¬system.borrowed token)
      (ends : after = .idle ∨ after = .detach token ∧ system.handles token = 1) :
      Moves system (.drop thread token) ((system.become thread after).modify token fun state =>
        { state with handles := state.handles - 1 })
  | start (thread : ThreadId) (token : TokenId) (before after : Program) (action : TokenAction)
      (here : system.threads[thread]? = some before) (resting : before.resting)
      (held : 0 < system.handles token) (begins : Begins thread token action after) :
      Moves system action (system.become thread after)
  | child (thread : ThreadId) (token : TokenId) (held : 0 < system.handles token) :
      Moves system (.child thread token)
        { system with tokens := (system.modify token fun state =>
            { state with children := system.liveChildren token ++ [system.tokens.length] }).tokens ++
              [⟨none, some token, [], 1⟩] }
  | observe (thread : ThreadId) (expired : Bool) (path : List TokenId) (after : Program)
      (here : system.threads[thread]? = some (.observe path))
      (result : (∃ path', system.read path = .inr path' ∧ after = .observe path') ∨
        ∃ result, system.read path = .inl result ∧
          after = .observed (path.getLast?.getD 0) result) :
      Moves system (.step thread expired) (system.become thread after)
  | check (thread : ThreadId) (expired : Bool) (token : TokenId) (path : List TokenId) (stage : Stage)
      (after : Program) (here : system.threads[thread]? = some (.check token path stage))
      (result : (∃ path', system.read path = .inr path' ∧ after = .check token path' stage) ∨
        ∃ result, system.read path = .inl result ∧
          after = checked token stage expired result.isSome) :
      Moves system (.step thread expired) (system.become thread after)
  | lock (thread : ThreadId) (expired : Bool) (token : TokenId) (before : Program) (stage : Stage)
      (here : system.threads[thread]? = some before)
      (waits : before = .lock token ∧ stage = .first ∨ before = .woken token ∧ stage = .loop)
      (unlocked : system.unlocked token) :
      Moves system (.step thread expired) (system.become thread (.check token [token] stage))
  | wake (thread : ThreadId) (expired : Bool) (token : TokenId)
      (here : system.threads[thread]? = some (.asleep token)) :
      Moves system (.step thread expired) (system.become thread (.woken token))
  | late (thread : ThreadId) (expired : Bool) (token : TokenId) (reason : CancelReason)
      (here : system.threads[thread]? = some (.cancel token reason))
      (already : (system.reason token).isSome) :
      Moves system (.step thread expired) (system.become thread .idle)
  | cancel (thread : ThreadId) (expired : Bool) (token : TokenId) (reason : CancelReason)
      (here : system.threads[thread]? = some (.cancel token reason))
      (unlocked : system.unlocked token) (fresh : system.reason token = none) :
      Moves system (.step thread expired)
        (((system.modify token fun state => { state with reason := some reason }).notifyAll
          token).become thread (.notify [.gather token, .release token]))
  | notified (thread : ThreadId) (expired : Bool)
      (here : system.threads[thread]? = some (.notify [])) :
      Moves system (.step thread expired) (system.become thread .idle)
  | notify (thread : ThreadId) (expired : Bool) (token : TokenId) (rest : List Pending)
      (here : system.threads[thread]? = some (.notify (.wake token :: rest)))
      (unlocked : system.unlocked token) :
      Moves system (.step thread expired) ((system.notifyAll token).become thread
        (.notify (.gather token :: .release token :: rest)))
  | gather (thread : ThreadId) (expired : Bool) (token : TokenId) (rest : List Pending)
      (here : system.threads[thread]? = some (.notify (.gather token :: rest))) :
      Moves system (.step thread expired)
        ((system.modify token fun state => { state with children := system.liveChildren token }).become
          thread (.notify ((system.liveChildren token).map .wake ++ rest)))
  | release (thread : ThreadId) (expired : Bool) (token : TokenId) (rest : List Pending)
      (here : system.threads[thread]? = some (.notify (.release token :: rest))) :
      Moves system (.step thread expired) (system.become thread (.notify rest))
  | detach (thread : ThreadId) (expired : Bool) (token parent : TokenId)
      (here : system.threads[thread]? = some (.detach token)) :
      Moves system (.step thread expired) ((system.modify parent fun state =>
        { state with children := state.children.filter fun child =>
          child ≠ token && system.alive child }).become thread .idle)
  | detached (thread : ThreadId) (expired : Bool) (token : TokenId)
      (here : system.threads[thread]? = some (.detach token)) :
      Moves system (.step thread expired) (system.become thread .idle)

theorem call_cases {program : Program} (called : system.call thread token program = some next) :
    ∃ before, system.threads[thread]? = some before ∧ before.resting ∧ 0 < system.handles token ∧
      next = system.become thread program := by
  simp only [call, Option.bind_eq_bind, Option.bind_eq_some_iff] at called
  obtain ⟨before, here, called⟩ := called
  split at called
  next holds =>
    simp only [Bool.and_eq_true, decide_eq_true_eq] at holds
    cases called
    exact ⟨before, here, holds.1, holds.2, rfl⟩
  next => cases called

theorem act_moves {action : TokenAction} (acted : system.act action = some next) :
    Moves system action next := by
  cases action with
  | create => cases acted; exact .create
  | clone token =>
    simp only [act] at acted
    split at acted <;> cases acted
    exact .clone token ‹_›
  | drop thread token =>
    simp only [act] at acted
    split at acted
    next => cases acted
    next free =>
      simp only [Option.bind_eq_bind, Option.bind_eq_some_iff] at acted
      obtain ⟨middle, called, acted⟩ := acted
      obtain ⟨before, here, resting, _, rfl⟩ := call_cases called
      cases acted
      refine .drop thread token before _ here resting (by simpa using free) ?_
      split <;> simp_all
  | observe thread token =>
    obtain ⟨before, here, resting, held, rfl⟩ := call_cases acted
    exact .start thread token before _ _ here resting held .observe
  | wait thread token =>
    obtain ⟨before, here, resting, held, rfl⟩ := call_cases acted
    exact .start thread token before _ _ here resting held .wait
  | cancel thread token reason =>
    obtain ⟨before, here, resting, held, rfl⟩ := call_cases acted
    exact .start thread token before _ _ here resting held (.cancel reason)
  | child thread token =>
    simp only [act, Option.bind_eq_bind, Option.bind_eq_some_iff] at acted
    obtain ⟨before, here, acted⟩ := acted
    split at acted <;> cases acted
    exact .child thread token (by simp_all)
  | step thread expired =>
    simp only [act, Option.bind_eq_bind, Option.bind_eq_some_iff] at acted
    obtain ⟨program, here, acted⟩ := acted
    cases program with
    | idle | observed | waited => cases acted
    | observe path =>
      simp only [step] at acted
      split at acted
      next result isResult => cases acted; exact .observe _ _ _ _ here (.inr ⟨result, isResult, rfl⟩)
      next path' isPath => cases acted; exact .observe _ _ _ _ here (.inl ⟨path', isPath, rfl⟩)
    | lock token =>
      simp only [step] at acted
      split at acted <;> cases acted
      exact .lock _ _ _ _ _ here (.inl ⟨rfl, rfl⟩) ‹_›
    | check token path stage =>
      simp only [step] at acted
      split at acted
      next result isResult => cases acted; exact .check _ _ _ _ _ _ here (.inr ⟨result, isResult, rfl⟩)
      next path' isPath => cases acted; exact .check _ _ _ _ _ _ here (.inl ⟨path', isPath, rfl⟩)
    | asleep token => cases acted; exact .wake _ _ _ here
    | woken token =>
      simp only [step] at acted
      split at acted <;> cases acted
      exact .lock _ _ _ _ _ here (.inr ⟨rfl, rfl⟩) ‹_›
    | cancel token reason =>
      simp only [step] at acted
      split at acted
      next unlocked =>
        split at acted
        next already isSet => cases acted; exact .late _ _ _ _ here (by simp [isSet])
        next fresh => cases acted; exact .cancel _ _ _ _ here unlocked fresh
      next => cases acted
    | notify work =>
      simp only [step] at acted
      match work with
      | [] => cases acted; exact .notified _ _ here
      | .wake token :: rest =>
        simp only [notifyStep] at acted
        split at acted <;> cases acted
        exact .notify _ _ _ _ here ‹_›
      | .gather token :: rest => cases acted; exact .gather _ _ _ _ here
      | .release token :: rest => cases acted; exact .release _ _ _ _ here
    | detach token =>
      simp only [step] at acted
      split at acted
      next parent _ => cases acted; exact .detach _ _ _ parent here
      next => cases acted; exact .detached _ _ _ here

end TokenSystem

/-- The notification of a token is still to come. -/
def Pending.Covers (parent : TokenId → Option TokenId) (token : TokenId) : Pending → Prop
  | wake ancestor => Leads parent token ancestor
  | gather ancestor => ∃ child, parent child = some ancestor ∧ Leads parent token child
  | release _ => False

def Program.Covers (parent : TokenId → Option TokenId) (token : TokenId) : Program → Prop
  | notify work => ∃ pending ∈ work, pending.Covers parent token
  | _ => False

/-- A walk of `is_cancelled`: the tokens from a token up to an ancestor, which comes first. -/
structure Walk (parent : TokenId → Option TokenId) (token : TokenId) (path : List TokenId) : Prop where
  origin : path.getLast? = some token
  leads : ∀ current ∈ path.head?, Leads parent token current

namespace TokenSystem

variable {system next : TokenSystem} {thread worker : ThreadId} {token other : TokenId}

/-- A cancellation has reached the token: its own or that of an ancestor. -/
def Reached (system : TokenSystem) (token : TokenId) : Prop :=
  ∃ ancestor, Leads system.parent token ancestor ∧ (system.reason ancestor).isSome

/-- What `reason` reports when nothing else happens. -/
def ReasonIs (system : TokenSystem) (token : TokenId) (reason : CancelReason) : Prop :=
  system.reason token = some reason ∨
    system.reason token = none ∧ reason = .parentCancelled ∧ system.Reached token

/-- The thread is about to wake the threads that wait on the token. -/
def CoveredBy (system : TokenSystem) (worker : ThreadId) (token : TokenId) : Prop :=
  ∃ program, system.threads[worker]? = some program ∧ program.Covers system.parent token

def Covered (system : TokenSystem) (token : TokenId) : Prop := ∃ worker, system.CoveredBy worker token

/-- The action neither drops the last handle of a token before those of its children, nor sets a
reason on a token that the cancellation of an ancestor has reached, other than the one it has there;
and no reading goes past a reason that is set meanwhile. -/
structure Orderly (system : TokenSystem) (action : TokenAction) : Prop where
  outlives : ∀ thread token, action = .drop thread token → system.handles token = 1 →
    ∀ child, system.parent child = some token → system.handles child = 0
  first : ∀ thread expired token reason, action = .step thread expired →
    system.threads[thread]? = some (.cancel token reason) → system.reason token = none →
      reason = .parentCancelled ∨ ¬system.Reached token
  reads : ∀ thread expired current path origin, action = .step thread expired →
    system.threads[thread]? = some (.observe (current :: path)) → path.getLast? = some origin →
      (system.reason current).isSome →
        system.reason origin = none ∨ system.reason origin = some .parentCancelled

/-- What holds in every state of an orderly run. -/
structure Sound (system : TokenSystem) : Prop where
  inside : ∀ token parent, system.parent token = some parent → parent < system.tokens.length
  borrowed : ∀ program ∈ system.threads, (∀ work, program ≠ .notify work) →
    ∀ token, program.subject = some token → 0 < system.handles token
  detaching : ∀ token, .detach token ∈ system.threads →
    token < system.tokens.length ∧ system.handles token = 0
  attached : ∀ token parent, system.parent token = some parent → 0 < system.handles token →
    0 < system.handles parent ∧ token ∈ system.children parent
  observing : ∀ path, .observe path ∈ system.threads → ∃ origin, Walk system.parent origin path
  checking : ∀ token path stage, .check token path stage ∈ system.threads →
    Walk system.parent token path ∧
      (system.Reached token → (∃ current ∈ path.head?, system.Reached current) ∨ system.Covered token)
  waiting : ∀ token, .asleep token ∈ system.threads → system.Reached token → system.Covered token

/-- What every action keeps of the forest. -/
structure Extends (system next : TokenSystem) : Prop where
  length : system.tokens.length ≤ next.tokens.length
  parent : ∀ token, token ≠ system.tokens.length → next.parent token = system.parent token
  reason : ∀ token reason, system.reason token = some reason → next.reason token = some reason

theorem Extends.refl (system : TokenSystem) : Extends system system :=
  ⟨le_rfl, fun _ _ => rfl, fun _ _ => id⟩

/-- Only the tokens matter. -/
theorem Extends.congr {middle : TokenSystem} (extended : Extends system middle)
    (same : next.tokens = middle.tokens) : Extends system next := by
  obtain ⟨tokens, threads⟩ := next
  obtain rfl : tokens = middle.tokens := same
  exact ⟨extended.length, extended.parent, extended.reason⟩

theorem Extends.modify {change : Token → Token}
    (parent : ∀ state, (change state).parent = state.parent)
    (reason : ∀ state, (change state).reason = state.reason) :
    Extends system (system.modify token change) := by
  refine ⟨by simp, fun other _ => ?_, fun other found => ?_⟩
  · rw [modify_parent parent]
  · rw [modify_reason reason]
    exact id

theorem Extends.setHandles (handles : Token → ℕ) :
    Extends system (system.modify token fun state => { state with handles := handles state }) :=
  .modify (fun _ => rfl) (fun _ => rfl)

theorem Extends.setChildren (children : Token → List TokenId) :
    Extends system (system.modify token fun state => { state with children := children state }) :=
  .modify (fun _ => rfl) (fun _ => rfl)

theorem Extends.append {tokens : List Token} {new : Token} (grown : tokens = system.tokens ++ [new])
    (same : next.tokens = tokens) : Extends system next := by
  subst grown
  refine ⟨by simp [same], fun other isOld => ?_, fun other found isReason => ?_⟩
  · rw [TokenSystem.parent, same, get_append, if_neg isOld, TokenSystem.parent]
  · have isOld : other ≠ system.tokens.length := by
      rintro rfl
      simp [TokenSystem.reason] at isReason
    rw [TokenSystem.reason, same, get_append, if_neg isOld]
    exact isReason

theorem Extends.trans {middle : TokenSystem} (first : Extends system middle)
    (second : Extends middle next) (same : middle.tokens.length = system.tokens.length) :
    Extends system next :=
  ⟨first.length.trans second.length,
    fun token isOld => (second.parent token (same ▸ isOld)).trans (first.parent token isOld),
    fun token reason isReason => second.reason token reason (first.reason token reason isReason)⟩

/-- Setting a reason that is not set. -/
theorem Extends.setReason {reason : CancelReason} (fresh : system.reason token = none)
    (held : 0 < system.handles token) :
    Extends system (system.modify token fun state => { state with reason := some reason }) := by
  refine ⟨by simp, fun other _ => ?_, fun other found isReason => ?_⟩
  · exact congrFun (modify_parent (by simp)) other
  · rw [reason_set _ _ held, if_neg]
    · exact isReason
    · rintro rfl
      simp [fresh] at isReason

theorem Sound.held (sound : system.Sound) {program : Program}
    (here : system.threads[thread]? = some program) (calls : ∀ work, program ≠ .notify work)
    (borrows : program.subject = some token) : 0 < system.handles token :=
  sound.borrowed program (List.mem_of_getElem? here) calls token borrows

theorem Moves.extends {action : TokenAction} (sound : system.Sound) (moves : Moves system action next) :
    Extends system next := by
  cases moves with
  | create => exact .append rfl rfl
  | clone => exact .setHandles _
  | drop => exact (Extends.setHandles _).congr rfl
  | gather => exact (Extends.setChildren _).congr rfl
  | detach => exact (Extends.setChildren _).congr rfl
  | child => exact (Extends.setChildren _).trans (.append rfl rfl) (modify_length _)
  | cancel thread expired token reason here unlocked fresh =>
    exact (Extends.setReason fresh (sound.held here nofun rfl)).congr rfl
  | _ => exact (Extends.refl system).congr rfl

section Leads

variable (inside : ∀ token parent, system.parent token = some parent → parent < system.tokens.length)
  (extended : Extends system next)

include inside extended

/-- No old token has a new ancestor. -/
theorem Extends.leads (isOld : token ≠ system.tokens.length) :
    Leads next.parent token other ↔ Leads system.parent token other := by
  have stays : ∀ other, ∀ above, system.parent other = some above → above ≠ system.tokens.length :=
    fun other above isParent => (inside other above isParent).ne
  constructor
  · intro leads
    induction leads using Relation.ReflTransGen.head_induction_on with
    | refl => exact .refl _
    | @head first second link rest ih =>
      have link' : system.parent first = some second := (extended.parent first isOld).symm.trans link
      exact (ih (stays first second link')).head link'
  · intro leads
    induction leads using Relation.ReflTransGen.head_induction_on with
    | refl => exact .refl _
    | @head first second link rest ih =>
      exact (ih (stays first second link)).head ((extended.parent first isOld).trans link)

theorem Extends.reached (isOld : token ≠ system.tokens.length) (reached : system.Reached token) :
    next.Reached token := by
  obtain ⟨ancestor, leads, isSet⟩ := reached
  obtain ⟨reason, isReason⟩ := Option.isSome_iff_exists.mp isSet
  exact ⟨ancestor, (extended.leads inside isOld).mpr leads,
    by rw [extended.reason ancestor reason isReason]; rfl⟩

theorem Extends.covers {program : Program} (isOld : token ≠ system.tokens.length)
    (covers : program.Covers system.parent token) : program.Covers next.parent token := by
  cases program with
  | notify work =>
    obtain ⟨pending, member, covers⟩ := covers
    refine ⟨pending, member, ?_⟩
    cases pending with
    | wake ancestor => exact (extended.leads inside isOld).mpr covers
    | gather ancestor =>
      obtain ⟨child, isParent, leads⟩ := covers
      have old : child ≠ system.tokens.length := by
        rintro rfl
        simp [TokenSystem.parent] at isParent
      exact ⟨child, (extended.parent child old).trans isParent,
        (extended.leads inside isOld).mpr leads⟩
    | release => exact covers
  | _ => exact covers

end Leads

section Handles

theorem lt_length_of_held (held : 0 < system.handles token) : token < system.tokens.length := by
  rw [TokenSystem.handles] at held
  by_contra beyond
  simp [List.getElem?_eq_none (not_lt.mp beyond)] at held

/-- The ancestors of a token that has a handle have handles. -/
theorem Sound.heldAbove (sound : system.Sound) (leads : Leads system.parent token other)
    (held : 0 < system.handles token) : 0 < system.handles other :=
  leads.mem_of_closed
    (fun child held above isParent => (sound.attached child above isParent held).1) held

/-- A token keeps its handle, if its last one is not dropped. -/
theorem Moves.handles {action : TokenAction}
    (moves : Moves system action next) (held : 0 < system.handles token) :
    0 < next.handles token ∨
      (∃ thread, action = .drop thread token) ∧ system.handles token = 1 ∧ ¬system.borrowed token := by
  cases moves with
  | create =>
    left
    rw [TokenSystem.handles, get_append, if_neg (lt_length_of_held held).ne]
    exact held
  | clone other => exact .inl (held.trans_le (handles_le (by simp)))
  | drop thread other before after here resting free ends =>
    have count : ((system.become thread after).modify other fun state =>
        { state with handles := state.handles - 1 }).handles token =
          if token = other then system.handles token - 1 else system.handles token := handles_sub
    rw [count]
    split_ifs with same
    · subst same
      rcases Nat.lt_or_ge 1 (system.handles token) with many | one
      · exact .inl (by omega)
      · have last : system.handles token = 1 := by omega
        exact .inr ⟨⟨thread, rfl⟩, last, free last⟩
    · exact .inl held
  | child thread other _ =>
    left
    have listed : 0 < (system.modify other fun state =>
      { state with children := system.liveChildren other ++ [system.tokens.length] }).handles token :=
        held.trans_le (handles_le (by simp))
    rw [TokenSystem.handles, get_append, if_neg]
    · exact listed
    · simpa using (lt_length_of_held held).ne
  | gather thread expired other rest here => exact .inl (held.trans_le (handles_le (by simp)))
  | detach thread expired other parent here => exact .inl (held.trans_le (handles_le (by simp)))
  | cancel thread expired other reason here unlocked fresh =>
    exact .inl (held.trans_le (handles_le (by simp)))
  | _ => exact .inl held

/-- A token without a handle gets none, unless it is new. -/
theorem Moves.handlesBelow {action : TokenAction} (moves : Moves system action next)
    (isOld : token < system.tokens.length) (none : system.handles token = 0) :
    next.handles token = 0 := by
  cases moves with
  | create =>
    rw [TokenSystem.handles, get_append, if_neg isOld.ne]
    exact none
  | clone other held =>
    have other' : other ≠ token := by
      rintro rfl
      omega
    rw [TokenSystem.handles, get_modify]
    rw [TokenSystem.handles] at none
    cases here : system.tokens[token]? <;> simp_all
  | drop thread other before after here resting free ends =>
    have count : ((system.become thread after).modify other fun state =>
        { state with handles := state.handles - 1 }).handles token =
          if token = other then system.handles token - 1 else system.handles token := handles_sub
    rw [count, none]
    simp
  | child thread other _ =>
    rw [TokenSystem.handles, get_append, if_neg (by simpa using isOld.ne)]
    exact (congrFun (modify_handles (by simp)) token).trans none
  | gather => exact (congrFun (modify_handles (by simp)) token).trans none
  | detach => exact (congrFun (modify_handles (by simp)) token).trans none
  | cancel => exact (congrFun (modify_handles (by simp)) token).trans none
  | _ => exact none

end Handles

section Threads

theorem mem_become {program after : Program} (member : program ∈ (system.become thread after).threads) :
    program = after ∨ program ∈ system.threads :=
  (List.mem_or_eq_of_mem_set member).symm

/-- After a notification no thread sleeps on the token. -/
theorem mem_notifyAll {program : Program} (member : program ∈ (system.notifyAll token).threads) :
    (program = .woken token ∧ .asleep token ∈ system.threads) ∨
      program ∈ system.threads ∧ program ≠ .asleep token := by
  obtain ⟨before, isBefore, rfl⟩ := List.mem_map.mp member
  cases before with
  | asleep other =>
    by_cases same : other = token
    · subst same
      exact .inl ⟨by simp [Program.notified], isBefore⟩
    · exact .inr ⟨by simpa [Program.notified, same] using isBefore, by simp [Program.notified, same]⟩
  | _ => exact .inr ⟨isBefore, nofun⟩

theorem subject_borrowed {program : Program} (member : program ∈ system.threads)
    (borrows : program.subject = some token) : system.borrowed token :=
  List.any_eq_true.mpr ⟨program, member, by simpa using borrows⟩

/-- One read of a walk that goes on. -/
theorem read_walks {path path' : List TokenId} (reads : system.read path = .inr path') :
    ∃ current rest parent, path = current :: rest ∧ path' = parent :: path ∧
      system.reason current = none ∧ system.parent current = some parent := by
  cases path with
  | nil => cases reads
  | cons current rest =>
    simp only [read] at reads
    split at reads
    next => cases reads
    next fresh =>
      split at reads
      next parent upgraded =>
        cases reads
        exact ⟨current, rest, parent, rfl, rfl, fresh, (Option.filter_eq_some_iff.mp upgraded).1⟩
      next => cases reads

theorem Walk.step {path path' : List TokenId} (walk : Walk system.parent token path)
    (reads : system.read path = .inr path') : Walk system.parent token path' := by
  obtain ⟨current, rest, parent, rfl, rfl, _, isParent⟩ := read_walks reads
  refine ⟨?_, ?_⟩
  · rw [List.getLast?_cons_cons]
    exact walk.origin
  · rintro above ⟨⟩
    exact (walk.leads current rfl).trans (Leads.head isParent (.refl _))

theorem Walk.start : Walk system.parent token [token] :=
  ⟨rfl, by rintro current ⟨⟩; exact .refl _⟩

/-- What a thread borrows after its own step. -/
theorem Moves.subject {action : TokenAction} (moves : Moves system action next) {program : Program}
    (member : program ∈ next.threads) (calls : ∀ work, program ≠ .notify work)
    (borrows : program.subject = some token) :
    (∃ before ∈ system.threads, (∀ work, before ≠ .notify work) ∧ before.subject = some token) ∨
      0 < system.handles token ∧ ∀ thread, action ≠ .drop thread token := by
  cases moves with
  | create => exact .inl ⟨program, member, calls, borrows⟩
  | clone => exact .inl ⟨program, member, calls, borrows⟩
  | child => exact .inl ⟨program, member, calls, borrows⟩
  | drop thread other before after here resting free ends =>
    rcases mem_become member with rfl | old
    · rcases ends with rfl | ⟨rfl, _⟩ <;> cases borrows
    · exact .inl ⟨program, old, calls, borrows⟩
  | start thread other before after action here resting held begins =>
    rcases mem_become member with rfl | old
    · cases begins <;> cases borrows <;> exact .inr ⟨held, nofun⟩
    · exact .inl ⟨program, old, calls, borrows⟩
  | observe thread expired path after here result =>
    rcases mem_become member with rfl | old
    · rcases result with ⟨path', reads, rfl⟩ | ⟨result, _, rfl⟩
      · obtain ⟨current, rest, parent, rfl, rfl, _, _⟩ := read_walks reads
        refine .inl ⟨_, List.mem_of_getElem? here, nofun, ?_⟩
        simpa [Program.subject] using borrows
      · cases borrows
    · exact .inl ⟨program, old, calls, borrows⟩
  | check thread expired other path stage after here result =>
    rcases mem_become member with rfl | old
    · refine .inl ⟨_, List.mem_of_getElem? here, nofun, ?_⟩
      rcases result with ⟨path', reads, rfl⟩ | ⟨result, _, rfl⟩
      · exact borrows
      · cases stage <;> cases isResult : result.isSome <;> cases expired <;>
          simp_all [checked, Program.subject]
    · exact .inl ⟨program, old, calls, borrows⟩
  | lock thread expired other before stage here waits unlocked =>
    rcases mem_become member with rfl | old
    · rcases waits with ⟨rfl, _⟩ | ⟨rfl, _⟩ <;>
        exact .inl ⟨_, List.mem_of_getElem? here, nofun, borrows⟩
    · exact .inl ⟨program, old, calls, borrows⟩
  | wake thread expired other here =>
    rcases mem_become member with rfl | old
    · exact .inl ⟨_, List.mem_of_getElem? here, nofun, borrows⟩
    · exact .inl ⟨program, old, calls, borrows⟩
  | cancel thread expired other reason here unlocked fresh =>
    rcases mem_become member with rfl | old
    · cases calls _ rfl
    · rcases mem_notifyAll old with ⟨rfl, slept⟩ | ⟨old, _⟩
      · exact .inl ⟨_, slept, nofun, borrows⟩
      · exact .inl ⟨program, old, calls, borrows⟩
  | notify thread expired other rest here unlocked =>
    rcases mem_become member with rfl | old
    · cases calls _ rfl
    · rcases mem_notifyAll old with ⟨rfl, slept⟩ | ⟨old, _⟩
      · exact .inl ⟨_, slept, nofun, borrows⟩
      · exact .inl ⟨program, old, calls, borrows⟩
  | gather thread expired other rest here =>
    rcases mem_become member with rfl | old
    · cases calls _ rfl
    · exact .inl ⟨program, old, calls, borrows⟩
  | release thread expired other rest here =>
    rcases mem_become member with rfl | old
    · cases calls _ rfl
    · exact .inl ⟨program, old, calls, borrows⟩
  | late | notified | detach | detached =>
    rcases mem_become member with rfl | old
    · cases borrows
    · exact .inl ⟨program, old, calls, borrows⟩

theorem Moves.borrowed {action : TokenAction} (sound : system.Sound)
    (moves : Moves system action next) {program : Program} (member : program ∈ next.threads)
    (calls : ∀ work, program ≠ .notify work) (borrows : program.subject = some token) :
    0 < next.handles token := by
  rcases moves.subject member calls borrows with ⟨before, old, calls', borrows'⟩ | ⟨held, keeps⟩
  · rcases moves.handles (sound.borrowed before old calls' token borrows') with held | ⟨_, _, free⟩
    · exact held
    · exact absurd (subject_borrowed old borrows') free
  · rcases moves.handles held with held | ⟨⟨thread, isDrop⟩, _⟩
    · exact held
    · exact absurd isDrop (keeps thread)

end Threads

section Forest

theorem alive_of_held (held : 0 < system.handles token) : system.alive token := by
  simp [alive, held]

theorem mem_liveChildren (member : token ∈ system.children other) (held : 0 < system.handles token) :
    token ∈ system.liveChildren other :=
  List.mem_filter.mpr ⟨member, alive_of_held held⟩

theorem lt_length_of_parent {above : TokenId} (isParent : system.parent token = some above) :
    token < system.tokens.length := by
  rw [TokenSystem.parent] at isParent
  by_contra beyond
  simp [List.getElem?_eq_none (not_lt.mp beyond)] at isParent

/-- A child that has a handle stays in the list of its parent. -/
theorem Moves.listed {action : TokenAction} (sound : system.Sound) (moves : Moves system action next)
    (held : 0 < system.handles token) (member : token ∈ system.children other) :
    token ∈ next.children other := by
  have isOld : other < system.tokens.length := by
    rw [TokenSystem.children] at member
    by_contra beyond
    simp [List.getElem?_eq_none (not_lt.mp beyond)] at member
  cases moves with
  | create =>
    rw [TokenSystem.children, get_append, if_neg isOld.ne]
    exact member
  | clone => exact mem_children_modify (by simp) member
  | drop thread dropped before after =>
    have member' : token ∈ (system.become thread after).children other := member
    exact mem_children_modify (by simp) member'
  | child thread parent _ =>
    rw [TokenSystem.children, get_append, if_neg (by simpa using isOld.ne)]
    by_cases same : parent = other
    · subst same
      have isState : ∃ state, system.tokens[parent]? = some state := ⟨_, List.getElem?_eq_getElem isOld⟩
      obtain ⟨state, isState⟩ := isState
      rw [get_modify, isState]
      simpa using .inl (mem_liveChildren member held)
    · rw [get_modify]
      rw [TokenSystem.children] at member
      cases isState : system.tokens[other]? <;> simp_all
  | gather thread expired gathered rest here =>
    by_cases same : gathered = other
    · subst same
      obtain ⟨state, isState⟩ : ∃ state, system.tokens[gathered]? = some state :=
        ⟨_, List.getElem?_eq_getElem isOld⟩
      have gathers : token ∈ (system.modify gathered fun state =>
          { state with children := system.liveChildren gathered }).children gathered := by
        rw [TokenSystem.children, get_modify, isState]
        simpa using mem_liveChildren member held
      exact gathers
    · have stays : token ∈ (system.modify gathered fun state =>
          { state with children := system.liveChildren gathered }).children other := by
        rw [TokenSystem.children, get_modify]
        rw [TokenSystem.children] at member
        cases isState : system.tokens[other]? <;> simp_all
      exact stays
  | detach thread expired leaving above here =>
    have leaving' : token ≠ leaving := by
      rintro rfl
      have none := (sound.detaching token (List.mem_of_getElem? here)).2
      omega
    have stays : token ∈ (system.modify above fun state =>
        { state with children := state.children.filter fun child =>
          child ≠ leaving && system.alive child }).children other :=
      mem_children_modify (fun state old => by simp [old, leaving', alive_of_held held]) member
    exact stays
  | cancel thread expired cancelled reason =>
    have stays : token ∈ (system.modify cancelled fun state =>
        { state with reason := some reason }).children other := mem_children_modify (by simp) member
    exact stays
  | _ => exact member

/-- Only a new child gets a parent. -/
theorem Moves.newParent {action : TokenAction} (moves : Moves system action next) {above : TokenId}
    (isParent : next.parent system.tokens.length = some above) :
    0 < system.handles above ∧ (∃ thread, action = .child thread above) ∧
      system.tokens.length ∈ next.children above ∧ next.tokens.length = system.tokens.length + 1 := by
  cases moves with
  | child thread other held =>
    rw [TokenSystem.parent, get_append, if_pos (by simp)] at isParent
    cases isParent
    refine ⟨held, ⟨thread, rfl⟩, ?_, by simp⟩
    rw [TokenSystem.children, get_append, if_neg (by simpa using (lt_length_of_held held).ne), get_modify,
      List.getElem?_eq_getElem (lt_length_of_held held)]
    simp
  | create => simp [TokenSystem.parent] at isParent
  | clone other => simp [TokenSystem.parent] at isParent
  | drop thread other before after =>
    have same : ((system.become thread after).modify other fun state =>
      { state with handles := state.handles - 1 }).parent = system.parent := modify_parent (by simp)
    rw [same] at isParent
    simp [TokenSystem.parent] at isParent
  | gather thread expired other =>
    have same : (system.modify other fun state =>
      { state with children := system.liveChildren other }).parent = system.parent := modify_parent (by simp)
    have isParent' := (congrFun same _).symm.trans isParent
    simp [TokenSystem.parent] at isParent'
  | detach thread expired leaving other =>
    have same : (system.modify other fun state =>
      { state with children := state.children.filter fun child =>
          child ≠ leaving && system.alive child }).parent = system.parent := modify_parent (by simp)
    have isParent' := (congrFun same _).symm.trans isParent
    simp [TokenSystem.parent] at isParent'
  | cancel thread expired other reason =>
    have same : (system.modify other fun state =>
      { state with reason := some reason }).parent = system.parent := modify_parent (by simp)
    have isParent' := (congrFun same _).symm.trans isParent
    simp [TokenSystem.parent] at isParent'
  | _ =>
    have isParent' : system.parent system.tokens.length = some above := isParent
    simp [TokenSystem.parent] at isParent'

theorem Moves.inside {action : TokenAction} (sound : system.Sound) (moves : Moves system action next)
    {above : TokenId} (isParent : next.parent token = some above) : above < next.tokens.length := by
  have extended := moves.extends sound
  by_cases isOld : token = system.tokens.length
  · subst isOld
    exact (lt_length_of_held (moves.newParent isParent).1).trans_le extended.length
  · rw [extended.parent token isOld] at isParent
    exact (sound.inside token above isParent).trans_le extended.length

theorem Moves.attached {action : TokenAction} (sound : system.Sound) (orderly : Orderly system action)
    (moves : Moves system action next) {above : TokenId} (isParent : next.parent token = some above)
    (held : 0 < next.handles token) : 0 < next.handles above ∧ token ∈ next.children above := by
  have extended := moves.extends sound
  by_cases isOld : token = system.tokens.length
  · subst isOld
    obtain ⟨heldAbove, ⟨thread, rfl⟩, listed, _⟩ := moves.newParent isParent
    refine ⟨?_, listed⟩
    rcases moves.handles heldAbove with held | ⟨⟨_, ⟨⟩⟩, _⟩
    exact held
  · rw [extended.parent token isOld] at isParent
    have held' : 0 < system.handles token := by
      by_contra none
      have none' := moves.handlesBelow (lt_length_of_parent isParent) (by omega)
      omega
    obtain ⟨heldAbove, listed⟩ := sound.attached token above isParent held'
    refine ⟨?_, moves.listed sound held' listed⟩
    rcases moves.handles heldAbove with stays | ⟨⟨thread, isDrop⟩, last, _⟩
    · exact stays
    · have none := orderly.outlives thread above isDrop last token isParent
      omega

/-- A token that is detached has no handle. -/
theorem Moves.detaching {action : TokenAction} (sound : system.Sound)
    (moves : Moves system action next) (member : .detach token ∈ next.threads) :
    token < next.tokens.length ∧ next.handles token = 0 := by
  have old (member : .detach token ∈ system.threads) :
      token < next.tokens.length ∧ next.handles token = 0 := by
    obtain ⟨isOld, none⟩ := sound.detaching token member
    exact ⟨isOld.trans_le (moves.extends sound).length, moves.handlesBelow isOld none⟩
  cases moves with
  | create | clone | child => exact old member
  | drop thread other before after here resting free ends =>
    rcases mem_become member with same | member
    · rcases ends with rfl | ⟨rfl, last⟩
      · cases same
      · cases same
        have held : 0 < system.handles token := by omega
        refine ⟨by simpa [become] using lt_length_of_held held, ?_⟩
        rw [handles_sub, if_pos rfl]
        exact Nat.sub_eq_zero_of_le last.le
    · exact old member
  | start thread other before after action here resting held begins =>
    rcases mem_become member with rfl | member
    · cases begins
    · exact old member
  | observe thread expired path after here result =>
    rcases mem_become member with rfl | member
    · rcases result with ⟨path', _, ⟨⟩⟩ | ⟨result, _, ⟨⟩⟩
    · exact old member
  | check thread expired other path stage after here result =>
    rcases mem_become member with rfl | member
    · rcases result with ⟨path', _, ⟨⟩⟩ | ⟨result, _, ends⟩
      cases stage <;> cases isResult : result.isSome <;> cases expired <;>
        simp [checked, isResult] at ends
    · exact old member
  | cancel | notify =>
    rcases mem_become member with same | member
    · cases same
    · rcases mem_notifyAll member with ⟨same, _⟩ | ⟨member, _⟩
      · cases same
      · exact old member
  | lock | wake | late | notified | gather | release | detach | detached =>
    rcases mem_become member with same | member
    · cases same
    · exact old member

theorem Extends.walk (extended : Extends system next) (sound : system.Sound) {path : List TokenId}
    (isOld : token ≠ system.tokens.length) (walk : Walk system.parent token path) :
    Walk next.parent token path :=
  ⟨walk.origin, fun current first =>
    (extended.leads sound.inside isOld).mpr (walk.leads current first)⟩

theorem Sound.observed (sound : system.Sound) {path : List TokenId}
    (member : .observe path ∈ system.threads) :
    ∃ origin, Walk system.parent origin path ∧ 0 < system.handles origin := by
  obtain ⟨origin, walk⟩ := sound.observing path member
  exact ⟨origin, walk, sound.borrowed _ member nofun origin walk.origin⟩

theorem Moves.observing {action : TokenAction} (sound : system.Sound)
    (moves : Moves system action next) {path : List TokenId} (member : .observe path ∈ next.threads) :
    ∃ origin, Walk next.parent origin path := by
  have extended := moves.extends sound
  have old {path : List TokenId} (member : .observe path ∈ system.threads) :
      ∃ origin, Walk next.parent origin path := by
    obtain ⟨origin, walk, held⟩ := sound.observed member
    exact ⟨origin, extended.walk sound (lt_length_of_held held).ne walk⟩
  cases moves with
  | create | clone | child => exact old member
  | drop thread other before after here resting free ends =>
    rcases mem_become member with same | member
    · rcases ends with rfl | ⟨rfl, _⟩ <;> cases same
    · exact old member
  | start thread other before after action here resting held begins =>
    rcases mem_become member with same | member
    · cases begins <;> cases same
      exact ⟨other, Walk.start⟩
    · exact old member
  | observe thread expired before after here result =>
    rcases mem_become member with same | member
    · rcases result with ⟨path', reads, rfl⟩ | ⟨result, _, rfl⟩
      · cases same
        obtain ⟨origin, walk, held⟩ := sound.observed (List.mem_of_getElem? here)
        exact ⟨origin, extended.walk sound (lt_length_of_held held).ne (Walk.step walk reads)⟩
      · cases same
    · exact old member
  | check thread expired other before stage after here result =>
    rcases mem_become member with same | member
    · rcases result with ⟨path', _, rfl⟩ | ⟨result, _, rfl⟩
      · cases same
      · cases stage <;> cases isResult : result.isSome <;> cases expired <;>
          simp [checked, isResult] at same
    · exact old member
  | cancel | notify =>
    rcases mem_become member with same | member
    · cases same
    · rcases mem_notifyAll member with ⟨same, _⟩ | ⟨member, _⟩
      · cases same
      · exact old member
  | lock | wake | late | notified | gather | release | detach | detached =>
    rcases mem_become member with same | member
    · cases same
    · exact old member

end Forest

section Waking

theorem get_become (other : thread ≠ worker) (after : Program) :
    (system.become thread after).threads[worker]? = system.threads[worker]? :=
  List.getElem?_set_ne other

theorem get_become_self {before : Program} (here : system.threads[thread]? = some before)
    (after : Program) : (system.become thread after).threads[thread]? = some after :=
  List.getElem?_set_self (List.getElem?_eq_some_iff.mp here).1

theorem get_notifyAll {work : List Pending} (here : system.threads[worker]? = some (.notify work)) :
    (system.notifyAll token).threads[worker]? = some (.notify work) := by
  rw [notifyAll, List.getElem?_map, here]
  rfl

/-- The only action that sets a reason. -/
theorem Moves.reason {action : TokenAction} (moves : Moves system action next) :
    (∀ other reason, next.reason other = some reason → system.reason other = some reason) ∨
      ∃ thread expired cancelled reason, action = .step thread expired ∧
        system.threads[thread]? = some (.cancel cancelled reason) ∧ system.unlocked cancelled ∧
        system.reason cancelled = none ∧
        next = ((system.modify cancelled fun state => { state with reason := some reason }).notifyAll
          cancelled).become thread (.notify [.gather cancelled, .release cancelled]) := by
  cases moves with
  | create =>
    left
    intro other reason isReason
    rw [TokenSystem.reason, get_append] at isReason
    split at isReason
    · cases isReason
    · exact isReason
  | clone other =>
    left
    rw [modify_reason (by simp)]
    exact fun _ _ => id
  | drop thread other before after =>
    left
    have same : ((system.become thread after).modify other fun state =>
      { state with handles := state.handles - 1 }).reason = system.reason := modify_reason (by simp)
    rw [same]
    exact fun _ _ => id
  | child thread other held =>
    left
    intro found reason isReason
    rw [TokenSystem.reason, get_append] at isReason
    split at isReason
    · cases isReason
    · have same : (system.modify other fun state => { state with
          children := system.liveChildren other ++ [system.tokens.length] }).reason = system.reason :=
        modify_reason (by simp)
      rw [← same]
      exact isReason
  | gather thread expired other rest here =>
    left
    have same : (system.modify other fun state =>
      { state with children := system.liveChildren other }).reason = system.reason :=
        modify_reason (by simp)
    exact fun found reason isReason => (congrFun same found).symm.trans isReason
  | detach thread expired leaving above here =>
    left
    have same : (system.modify above fun state => { state with
      children := state.children.filter fun child => child ≠ leaving && system.alive child }).reason =
        system.reason := modify_reason (by simp)
    exact fun found reason isReason => (congrFun same found).symm.trans isReason
  | cancel thread expired cancelled reason here unlocked fresh =>
    exact .inr ⟨thread, expired, cancelled, reason, rfl, here, unlocked, fresh, rfl⟩
  | _ => exact .inl fun _ _ => id

/-- A token is reached by the cancellation that sets a reason on it or on an ancestor. -/
theorem Moves.reachedBack {action : TokenAction} (sound : system.Sound)
    (moves : Moves system action next) (isOld : token ≠ system.tokens.length)
    (reached : next.Reached token) :
    system.Reached token ∨
      ∃ thread expired cancelled reason, action = .step thread expired ∧
        system.threads[thread]? = some (.cancel cancelled reason) ∧ system.unlocked cancelled ∧
        system.reason cancelled = none ∧ Leads system.parent token cancelled ∧
        next = ((system.modify cancelled fun state => { state with reason := some reason }).notifyAll
          cancelled).become thread (.notify [.gather cancelled, .release cancelled]) := by
  obtain ⟨ancestor, leads, isSet⟩ := reached
  have leads' := ((moves.extends sound).leads sound.inside isOld).mp leads
  obtain ⟨reason, isReason⟩ := Option.isSome_iff_exists.mp isSet
  rcases moves.reason with same | ⟨thread, expired, cancelled, given, isStep, here, unlocked, fresh, rfl⟩
  · exact .inl ⟨ancestor, leads', by rw [same ancestor reason isReason]; rfl⟩
  · by_cases isCancelled : ancestor = cancelled
    · subst isCancelled
      exact .inr ⟨thread, expired, ancestor, given, isStep, here, unlocked, fresh, leads', rfl⟩
    · have other := reason_set given ancestor (sound.held here nofun rfl)
      rw [if_neg isCancelled] at other
      exact .inl ⟨ancestor, leads', other ▸ isSet⟩

/-- A thread that sleeps on a token or checks it under its mutex has not missed the notifications
that are still to come. -/
theorem Moves.coveredBy {action : TokenAction} (sound : system.Sound) (moves : Moves system action next)
    (held : 0 < system.handles token)
    (awaits : .asleep token ∈ next.threads ∨ ∃ path stage, .check token path stage ∈ next.threads)
    (covered : system.CoveredBy worker token) : next.CoveredBy worker token := by
  have isOld := (lt_length_of_held held).ne
  have extended := moves.extends sound
  obtain ⟨program, isProgram, covers⟩ := covered
  have covers' := extended.covers sound.inside isOld covers
  cases program with
  | notify work =>
    cases moves with
    | create => exact ⟨_, isProgram, covers'⟩
    | clone => exact ⟨_, isProgram, covers'⟩
    | child => exact ⟨_, isProgram, covers'⟩
    | drop thread other before after here resting =>
      have busy : thread ≠ worker := by
        rintro rfl
        rw [here] at isProgram
        cases isProgram
        cases resting
      exact ⟨_, (get_become busy after).trans isProgram, covers'⟩
    | start thread other before after action here resting =>
      have busy : thread ≠ worker := by
        rintro rfl
        rw [here] at isProgram
        cases isProgram
        cases resting
      exact ⟨_, (get_become busy after).trans isProgram, covers'⟩
    | lock thread expired other before stage here waits =>
      have busy : thread ≠ worker := by
        rintro rfl
        rw [here] at isProgram
        cases isProgram
        rcases waits with ⟨⟨⟩, _⟩ | ⟨⟨⟩, _⟩
      exact ⟨_, (get_become busy _).trans isProgram, covers'⟩
    | cancel thread expired other reason here =>
      have busy : thread ≠ worker := by
        rintro rfl
        rw [here] at isProgram
        cases isProgram
      exact ⟨_, (get_become busy _).trans (get_notifyAll isProgram), covers'⟩
    | notified thread expired here =>
      have busy : thread ≠ worker := by
        rintro rfl
        rw [here] at isProgram
        cases isProgram
        obtain ⟨pending, member, _⟩ := covers
        cases member
      exact ⟨_, (get_become busy _).trans isProgram, covers'⟩
    | notify thread expired other rest here unlocked =>
      by_cases same : thread = worker
      · subst same
        rw [here] at isProgram
        cases isProgram
        have notified : (system.notifyAll other).threads[thread]? = some (.notify (.wake other :: rest)) :=
          get_notifyAll here
        refine ⟨_, get_become_self notified _, ?_⟩
        obtain ⟨pending, member, covers⟩ := covers'
        rcases List.mem_cons.mp member with rfl | member
        · -- The token itself is woken here; nobody is in a section under its mutex.
          rcases Relation.ReflTransGen.cases_tail covers with rfl | ⟨child, leads, isParent⟩
          · exfalso
            rcases awaits with slept | ⟨path, stage, checks⟩
            · rcases mem_become slept with same | slept
              · cases same
              · rcases mem_notifyAll slept with ⟨same, _⟩ | ⟨_, awake⟩
                · cases same
                · exact awake rfl
            · rcases mem_become checks with same | checks
              · cases same
              · rcases mem_notifyAll checks with ⟨same, _⟩ | ⟨checks, _⟩
                · cases same
                · exact absurd rfl (of_decide_eq_true (List.all_eq_true.mp unlocked _ checks))
          · exact ⟨.gather other, by simp, child, isParent, leads⟩
        · exact ⟨pending, by simp [member], covers⟩
      · exact ⟨_, (get_become same _).trans (get_notifyAll isProgram), covers'⟩
    | gather thread expired other rest here =>
      by_cases same : thread = worker
      · subst same
        rw [here] at isProgram
        cases isProgram
        refine ⟨_, get_become_self here _, extended.covers sound.inside isOld ?_⟩
        obtain ⟨pending, member, covers⟩ := covers
        rcases List.mem_cons.mp member with rfl | member
        · obtain ⟨child, isParent, leads⟩ := covers
          have heldChild := sound.heldAbove leads held
          have listed := (sound.attached child other isParent heldChild).2
          have live := mem_liveChildren listed heldChild
          exact ⟨.wake child, List.mem_append_left _ (List.mem_map_of_mem live), leads⟩
        · exact ⟨pending, List.mem_append_right _ member, covers⟩
      · exact ⟨_, (get_become same _).trans isProgram, covers'⟩
    | release thread expired other rest here =>
      by_cases same : thread = worker
      · subst same
        rw [here] at isProgram
        cases isProgram
        refine ⟨_, get_become_self here _, ?_⟩
        obtain ⟨pending, member, covers⟩ := covers'
        rcases List.mem_cons.mp member with rfl | member
        · cases covers
        · exact ⟨pending, member, covers⟩
      · exact ⟨_, (get_become same _).trans isProgram, covers'⟩
    | observe thread expired path after here | check thread expired other path stage after here
    | wake thread expired other here | late thread expired other reason here
    | detach thread expired other parent here | detached thread expired other here =>
      have busy : thread ≠ worker := by
        rintro rfl
        rw [here] at isProgram
        cases isProgram
      exact ⟨_, (get_become busy _).trans isProgram, covers'⟩
  | _ => cases covers

theorem Moves.covered {action : TokenAction} (sound : system.Sound) (moves : Moves system action next)
    (held : 0 < system.handles token)
    (awaits : .asleep token ∈ next.threads ∨ ∃ path stage, .check token path stage ∈ next.threads)
    (covered : system.Covered token) : next.Covered token := by
  obtain ⟨worker, covered⟩ := covered
  exact ⟨worker, moves.coveredBy sound held awaits covered⟩

end Waking

section Waiting

theorem Reached.above (reached : system.Reached token) (fresh : system.reason token = none) :
    ∃ parent, system.parent token = some parent ∧ system.Reached parent := by
  obtain ⟨ancestor, leads, isSet⟩ := reached
  rcases leads.cases_head with rfl | ⟨parent, isParent, leads⟩
  · rw [fresh] at isSet
    cases isSet
  · exact ⟨parent, isParent, ancestor, leads, isSet⟩

/-- A walk that ends without a reason has not missed one. -/
theorem Sound.read_none (sound : system.Sound) {current : TokenId} {path : List TokenId}
    (reads : system.read (current :: path) = .inl none) (held : 0 < system.handles current) :
    ¬system.Reached current := by
  intro reached
  simp only [read] at reads
  split at reads
  next => cases reads
  next fresh =>
    obtain ⟨parent, isParent, _⟩ := reached.above fresh
    have upgraded : system.upgradeParent current = some parent := by
      rw [upgradeParent, isParent]
      simp [alive_of_held (sound.attached current parent isParent held).1]
    rw [upgraded] at reads
    cases reads

/-- A walk towards a reason stays on the way. -/
theorem read_towards {path path' : List TokenId} (reads : system.read path = .inr path')
    (towards : ∃ current ∈ path.head?, system.Reached current) :
    ∃ current ∈ path'.head?, system.Reached current := by
  obtain ⟨current, rest, parent, rfl, rfl, fresh, isParent⟩ := read_walks reads
  obtain ⟨_, ⟨⟩, reached⟩ := towards
  obtain ⟨parent', isParent', reached⟩ := reached.above fresh
  obtain rfl : parent = parent' := Option.some.inj (isParent.symm.trans isParent')
  exact ⟨parent, rfl, reached⟩

/-- The descendants of a token that is cancelled are still to be notified. -/
theorem coveredBy_cancel (cancelled : TokenId) {reason : CancelReason}
    (here : system.threads[thread]? = some (.cancel cancelled reason))
    (leads : Leads system.parent token cancelled) (other : token ≠ cancelled) :
    (((system.modify cancelled fun state => { state with reason := some reason }).notifyAll
      cancelled).become thread (.notify [.gather cancelled, .release cancelled])).CoveredBy thread token := by
  rcases Relation.ReflTransGen.cases_tail leads with rfl | ⟨child, leads, isParent⟩
  · exact absurd rfl other
  · have same : (system.modify cancelled fun state => { state with reason := some reason }).parent =
      system.parent := modify_parent (by simp)
    refine ⟨.notify [.gather cancelled, .release cancelled], ?_, .gather cancelled, by simp,
      child, ?_, ?_⟩
    · have still : ((system.modify cancelled fun state => { state with reason := some reason }).notifyAll
          cancelled).threads[thread]? = some (.cancel cancelled reason) := by
        rw [notifyAll, List.getElem?_map]
        exact congrArg (Option.map (Program.notified cancelled)) here
      exact get_become_self still _
    · exact (congrFun same child).trans isParent
    · have leads' : Leads (system.modify cancelled fun state =>
        { state with reason := some reason }).parent token child := by rwa [same]
      exact leads'

/-- A thread that stays asleep keeps what covers it. -/
theorem Moves.stillWaiting {action : TokenAction} (sound : system.Sound)
    (moves : Moves system action next) (old : .asleep token ∈ system.threads)
    (stays : .asleep token ∈ next.threads) (reached : next.Reached token) : next.Covered token := by
  have held := sound.borrowed _ old nofun token rfl
  rcases moves.reachedBack sound (lt_length_of_held held).ne reached with reached |
    ⟨thread, expired, cancelled, reason, rfl, here, unlocked, fresh, leads, rfl⟩
  · exact moves.covered sound held (.inl stays) (sound.waiting token old reached)
  · refine ⟨thread, coveredBy_cancel cancelled here leads ?_⟩
    rintro rfl
    rcases mem_become stays with same | stays
    · cases same
    · rcases mem_notifyAll stays with ⟨same, _⟩ | ⟨_, awake⟩
      · cases same
      · exact awake rfl

/-- A thread that stays in its check keeps what covers it. -/
theorem Moves.stillChecking {action : TokenAction} (sound : system.Sound)
    (moves : Moves system action next) {path : List TokenId} {stage : Stage}
    (old : .check token path stage ∈ system.threads) (stays : .check token path stage ∈ next.threads) :
    Walk next.parent token path ∧ (next.Reached token →
      (∃ current ∈ path.head?, next.Reached current) ∨ next.Covered token) := by
  have extended := moves.extends sound
  have held := sound.borrowed _ old nofun token rfl
  have isOld := (lt_length_of_held held).ne
  obtain ⟨walk, checks⟩ := sound.checking token path stage old
  refine ⟨extended.walk sound isOld walk, fun reached => ?_⟩
  rcases moves.reachedBack sound isOld reached with reached |
    ⟨thread, expired, cancelled, reason, rfl, here, unlocked, fresh, leads, rfl⟩
  · rcases checks reached with ⟨current, first, towards⟩ | covered
    · have heldCurrent := sound.heldAbove (walk.leads current first) held
      exact .inl ⟨current, first,
        extended.reached sound.inside (lt_length_of_held heldCurrent).ne towards⟩
    · exact .inr (moves.covered sound held (.inr ⟨path, stage, stays⟩) covered)
  · refine .inr ⟨thread, coveredBy_cancel cancelled here leads ?_⟩
    rintro rfl
    exact absurd rfl (of_decide_eq_true (List.all_eq_true.mp unlocked _ old))

theorem Moves.checking {action : TokenAction} (sound : system.Sound)
    (moves : Moves system action next) {path : List TokenId} {stage : Stage}
    (member : .check token path stage ∈ next.threads) :
    Walk next.parent token path ∧ (next.Reached token →
      (∃ current ∈ path.head?, next.Reached current) ∨ next.Covered token) := by
  have still (old : .check token path stage ∈ system.threads) := moves.stillChecking sound old member
  have start (isStart : path = [token]) : Walk next.parent token path ∧ (next.Reached token →
      (∃ current ∈ path.head?, next.Reached current) ∨ next.Covered token) := by
    subst isStart
    exact ⟨Walk.start, fun reached => .inl ⟨token, rfl, reached⟩⟩
  cases moves with
  | create | clone | child => exact still member
  | drop thread other before after here resting free ends =>
    rcases mem_become member with same | old
    · rcases ends with rfl | ⟨rfl, _⟩ <;> cases same
    · exact still old
  | start thread other before after action here resting held begins =>
    rcases mem_become member with same | old
    · cases begins <;> cases same
    · exact still old
  | observe thread expired path after here result =>
    rcases mem_become member with same | old
    · rcases result with ⟨path', _, rfl⟩ | ⟨result, _, rfl⟩ <;> cases same
    · exact still old
  | lock thread expired other before stage here waits =>
    rcases mem_become member with same | old
    · cases same
      exact start rfl
    · exact still old
  | check thread expired other before stage' after here result =>
    have moves := Moves.check thread expired other before stage' after here result
    rcases mem_become member with same | old
    · rcases result with ⟨path', reads, rfl⟩ | ⟨result, reads, rfl⟩
      · cases same
        have old := List.mem_of_getElem? here
        obtain ⟨walk, checks⟩ := sound.checking token before stage old
        have walk : Walk system.parent token path := Walk.step walk reads
        refine ⟨walk, fun reached => ?_⟩
        rcases checks reached with towards | covered
        · have towards : ∃ current ∈ path.head?, system.Reached current := read_towards reads towards
          exact .inl towards
        · have held := sound.borrowed _ old nofun token rfl
          exact .inr (moves.covered sound held (.inr ⟨path, stage, member⟩) covered)
      · refine start ?_
        cases stage' <;> cases isResult : result.isSome <;> cases expired <;>
          simp_all [checked]
    · exact still old
  | cancel | notify =>
    rcases mem_become member with same | old
    · cases same
    · rcases mem_notifyAll old with ⟨same, _⟩ | ⟨old, _⟩
      · cases same
      · exact still old
  | wake | late | notified | gather | release | detach | detached =>
    rcases mem_become member with same | old
    · cases same
    · exact still old

/-- No thread falls asleep or stays asleep unnoticed. -/
theorem Moves.waiting {action : TokenAction} (sound : system.Sound)
    (moves : Moves system action next) (member : .asleep token ∈ next.threads)
    (reached : next.Reached token) : next.Covered token := by
  have still (old : .asleep token ∈ system.threads) := moves.stillWaiting sound old member reached
  cases moves with
  | create | clone | child => exact still member
  | drop thread other before after here resting free ends =>
    rcases mem_become member with same | old
    · rcases ends with rfl | ⟨rfl, _⟩ <;> cases same
    · exact still old
  | start thread other before after action here resting held begins =>
    rcases mem_become member with same | old
    · cases begins <;> cases same
    · exact still old
  | observe thread expired path after here result =>
    rcases mem_become member with same | old
    · rcases result with ⟨path', _, rfl⟩ | ⟨result, _, rfl⟩ <;> cases same
    · exact still old
  | check thread expired other path stage after here result =>
    have moves := Moves.check thread expired other path stage after here result
    rcases mem_become member with same | old
    · rcases result with ⟨path', reads, rfl⟩ | ⟨result, reads, rfl⟩
      · cases same
      · obtain ⟨rfl, rfl⟩ : other = token ∧ result = none := by
          cases stage <;> cases result <;> cases expired <;> simp_all [checked]
        have old := List.mem_of_getElem? here
        have held := sound.borrowed _ old nofun other rfl
        obtain ⟨walk, checks⟩ := sound.checking other path stage old
        rcases checks reached with ⟨current, first, towards⟩ | covered
        · obtain ⟨rest, rfl⟩ := List.head?_eq_some_iff.mp first
          exact absurd towards (sound.read_none reads (sound.heldAbove (walk.leads current first) held))
        · exact moves.covered sound held (.inl member) covered
    · exact still old
  | cancel | notify =>
    rcases mem_become member with same | old
    · cases same
    · rcases mem_notifyAll old with ⟨same, _⟩ | ⟨old, _⟩
      · cases same
      · exact still old
  | lock | wake | late | notified | gather | release | detach | detached =>
    rcases mem_become member with same | old
    · cases same
    · exact still old

end Waiting

theorem Moves.sound {action : TokenAction} (sound : system.Sound) (orderly : Orderly system action)
    (moves : Moves system action next) : next.Sound where
  inside _ _ := moves.inside sound
  borrowed _ member calls _ := moves.borrowed sound member calls
  detaching _ := moves.detaching sound
  attached _ _ := moves.attached sound orderly
  observing _ := moves.observing sound
  checking _ _ _ := moves.checking sound
  waiting _ := moves.waiting sound

end TokenSystem

end HellRs.Scope
