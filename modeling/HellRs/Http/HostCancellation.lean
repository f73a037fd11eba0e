import Mathlib
import HellRs.Lib.Threads

/-! # The callbacks of a host cancellation

`Cancellation::cancel` and `Cancellation::on_cancel` of the HTTP host. Threads interleave at the flag, at the lock of the
callbacks and at what is done under it. A callback is code as well: it may register and cancel in turn, and it returns.
No code panics under the lock, so it is never poisoned.
-/

namespace HellRs.Http

open Threads

/-- What a thread or a callback does with the cancellation. -/
inductive Code where
  | done
  | onCancel (callback rest : Code)
  | cancel (rest : Code)
  | isCancelled (next : Bool → Code)

/-- A callback with the number of its registration. -/
structure Callback where
  id : ℕ
  code : Code

/-- Where a call is. -/
inductive Frame where
  | run (code : Code)
  /-- `on_cancel` before the lock. -/
  | register (callback : Callback)
  /-- `on_cancel` under the lock, before the flag is read. -/
  | check (callback : Callback)
  | push (callback : Callback)
  /-- `on_cancel` with the lock to release, and the callback it has kept. -/
  | release (left : Option Callback)
  /-- `cancel` after the flag is set, before the lock. -/
  | drain
  | take
  /-- `cancel` with the lock to release, and the callbacks it has taken. -/
  | taken (callbacks : List Callback)
  /-- The callbacks to call, without the lock. -/
  | invoke (callbacks : List Callback)

/-- The `CancellationState` with its lock. The number of registrations, the number of calls of `cancel` and the callbacks
that were run are kept for the specification. -/
structure CancellationState where
  cancelled : Bool
  callbacks : List Callback
  lock : Option ℕ
  registered : ℕ
  cancels : ℕ
  ran : List ℕ

/-- `Cancellation::new`. -/
def CancellationState.new : CancellationState := ⟨false, [], none, 0, 0, []⟩

/-- What a frame does when its thread is in turn: the frames that replace it, and the state after. A frame that waits for
the lock does nothing. -/
def CancellationState.perform (state : CancellationState) (thread : ℕ) :
    Frame → Option (List Frame × CancellationState)
  | .run .done => some ([], state)
  | .run (.onCancel callback rest) =>
      some ([.register ⟨state.registered, callback⟩, .run rest], { state with registered := state.registered + 1 })
  | .run (.cancel rest) =>
      -- `swap` returns whether another call has been first
      if state.cancelled then some ([.run rest], { state with cancels := state.cancels + 1 })
      else some ([.drain, .run rest], { state with cancelled := true, cancels := state.cancels + 1 })
  | .run (.isCancelled next) => some ([.run (next state.cancelled)], state)
  | .register callback =>
      if state.lock = none then some ([.check callback], { state with lock := some thread }) else none
  | .check callback => some ([if state.cancelled then .release (some callback) else .push callback], state)
  | .push callback => some ([.release none], { state with callbacks := state.callbacks ++ [callback] })
  | .release left => some ([.invoke left.toList], { state with lock := none })
  | .drain => if state.lock = none then some ([.take], { state with lock := some thread }) else none
  | .take => some ([.taken state.callbacks], { state with callbacks := [] })
  | .taken callbacks => some ([.invoke callbacks], { state with lock := none })
  | .invoke [] => some ([], state)
  | .invoke (callback :: callbacks) =>
      some ([.run callback.code, .invoke callbacks], { state with ran := state.ran ++ [callback.id] })

/-- The threads that share a cancellation, each with its calls, the innermost first. -/
structure CancellationThreads where
  state : CancellationState
  threads : List (List Frame)

namespace CancellationThreads

def start (codes : List Code) : CancellationThreads := ⟨.new, codes.map fun code => [.run code]⟩

/-- One turn of a thread. -/
def turn (system : CancellationThreads) (thread : ℕ) : Option CancellationThreads :=
  match system.threads[thread]? with
  | some (frame :: rest) =>
      (system.state.perform thread frame).map fun (pushed, state) => ⟨state, system.threads.set thread (pushed ++ rest)⟩
  | _ => none

/-- The turns of an interleaving. -/
def run (system : CancellationThreads) : List ℕ → Option CancellationThreads
  | [] => some system
  | thread :: schedule => (system.turn thread).bind fun next => next.run schedule

/-- Every thread has returned from all its calls. -/
def Finished (system : CancellationThreads) : Prop := ∀ stack ∈ system.threads, stack = []

end CancellationThreads

section Step

variable {system next : CancellationThreads} {state after : CancellationState} {thread : ℕ} {frame : Frame}
  {pushed rest : List Frame}

theorem CancellationThreads.turn_eq_some_iff : system.turn thread = some next ↔
    ∃ frame rest pushed state, system.threads[thread]? = some (frame :: rest) ∧
      system.state.perform thread frame = some (pushed, state) ∧
      next = ⟨state, system.threads.set thread (pushed ++ rest)⟩ := by
  unfold turn
  split
  next frame rest here =>
    simp only [Option.map_eq_some_iff, Prod.exists, here, Option.some.injEq, List.cons.injEq]
    constructor
    · rintro ⟨pushed, state, performed, rfl⟩
      exact ⟨frame, rest, pushed, state, ⟨rfl, rfl⟩, performed, rfl⟩
    · rintro ⟨_, _, pushed, state, ⟨rfl, rfl⟩, performed, rfl⟩
      exact ⟨pushed, state, performed, rfl⟩
  next stuck =>
    simp only [reduceCtorEq, false_iff]
    rintro ⟨frame, rest, -, -, here, -⟩
    exact stuck frame rest here

/-- What a turn of a frame may do, one case for each branch. -/
inductive Performs (state : CancellationState) (thread : ℕ) : Frame → List Frame → CancellationState → Prop
  | done : Performs state thread (.run .done) [] state
  | onCancel (callback rest : Code) :
      Performs state thread (.run (.onCancel callback rest)) [.register ⟨state.registered, callback⟩, .run rest]
        { state with registered := state.registered + 1 }
  | again (rest : Code) (late : state.cancelled = true) :
      Performs state thread (.run (.cancel rest)) [.run rest] { state with cancels := state.cancels + 1 }
  | first (rest : Code) (early : state.cancelled = false) :
      Performs state thread (.run (.cancel rest)) [.drain, .run rest]
        { state with cancelled := true, cancels := state.cancels + 1 }
  | isCancelled (code : Bool → Code) :
      Performs state thread (.run (.isCancelled code)) [.run (code state.cancelled)] state
  | register (callback : Callback) (free : state.lock = none) :
      Performs state thread (.register callback) [.check callback] { state with lock := some thread }
  | keep (callback : Callback) (late : state.cancelled = true) :
      Performs state thread (.check callback) [.release (some callback)] state
  | store (callback : Callback) (early : state.cancelled = false) :
      Performs state thread (.check callback) [.push callback] state
  | push (callback : Callback) :
      Performs state thread (.push callback) [.release none] { state with callbacks := state.callbacks ++ [callback] }
  | release (left : Option Callback) :
      Performs state thread (.release left) [.invoke left.toList] { state with lock := none }
  | drain (free : state.lock = none) :
      Performs state thread .drain [.take] { state with lock := some thread }
  | take : Performs state thread .take [.taken state.callbacks] { state with callbacks := [] }
  | taken (callbacks : List Callback) :
      Performs state thread (.taken callbacks) [.invoke callbacks] { state with lock := none }
  | invoked : Performs state thread (.invoke []) [] state
  | invoke (callback : Callback) (callbacks : List Callback) :
      Performs state thread (.invoke (callback :: callbacks)) [.run callback.code, .invoke callbacks]
        { state with ran := state.ran ++ [callback.id] }

theorem CancellationState.performs (performed : state.perform thread frame = some (pushed, after)) :
    Performs state thread frame pushed after := by
  unfold perform at performed
  split at performed
  case h_1 | h_2 | h_4 | h_7 | h_8 | h_10 | h_11 | h_12 | h_13 =>
    obtain ⟨rfl, rfl⟩ := by simpa using performed
    constructor
  case h_3 rest =>
    split at performed
    next late =>
      obtain ⟨rfl, rfl⟩ := by simpa using performed
      exact .again rest late
    next early =>
      obtain ⟨rfl, rfl⟩ := by simpa using performed
      exact .first rest (by simpa using early)
  case h_5 callback =>
    split at performed
    next free =>
      obtain ⟨rfl, rfl⟩ := by simpa using performed
      exact .register callback free
    next => cases performed
  case h_6 callback =>
    obtain ⟨rfl, rfl⟩ := by simpa using performed
    split
    next late => exact .keep callback late
    next early => exact .store callback (by simpa using early)
  case h_9 =>
    split at performed
    next free =>
      obtain ⟨rfl, rfl⟩ := by simpa using performed
      exact .drain free
    next => cases performed

end Step

section Rank

/-- A bound on the turns of code, with those of the callbacks that it registers. -/
def Code.size : Code → ℕ
  | .done => 1
  | .onCancel callback rest => callback.size + rest.size + 7
  | .cancel rest => rest.size + 5
  | .isCancelled next => 1 + max (next true).size (next false).size

def Callback.rank (callback : Callback) : ℕ := callback.code.size + 1

def ranks (callbacks : List Callback) : ℕ := (callbacks.map Callback.rank).sum

def Frame.rank : Frame → ℕ
  | .run code => code.size
  | .register callback => callback.rank + 5
  | .check callback => callback.rank + 4
  | .push callback => callback.rank + 3
  | .release left => ranks left.toList + 2
  | .drain => 4
  | .take => 3
  | .taken callbacks => ranks callbacks + 2
  | .invoke callbacks => ranks callbacks + 1

def stackRank (stack : List Frame) : ℕ := (stack.map Frame.rank).sum

/-- A bound on the turns that are left. -/
def CancellationThreads.rank (system : CancellationThreads) : ℕ :=
  ranks system.state.callbacks + (system.threads.map stackRank).sum

variable {system next : CancellationThreads} {state after : CancellationState} {thread : ℕ} {frame : Frame}
  {pushed rest : List Frame}

theorem Performs.rank (performs : Performs state thread frame pushed after) :
    ranks after.callbacks + stackRank pushed < ranks state.callbacks + frame.rank := by
  cases performs <;>
    simp only [stackRank, ranks, Frame.rank, Callback.rank, Code.size, List.map_cons, List.map_nil, List.sum_cons,
      List.sum_nil, List.map_append, List.sum_append, Option.toList_some, Option.toList_none] <;> try omega
  case isCancelled code =>
    cases state.cancelled <;> omega

theorem CancellationThreads.turn_rank (turns : system.turn thread = some next) : next.rank < system.rank := by
  obtain ⟨frame, rest, pushed, state, here, performed, rfl⟩ := turn_eq_some_iff.mp turns
  have lower := (CancellationState.performs performed).rank
  have moved := sum_map_set stackRank here (pushed ++ rest)
  simp only [stackRank, List.map_append, List.sum_append, List.map_cons, List.sum_cons] at lower moved
  simp only [CancellationThreads.rank]
  omega

end Rank

section Pending

/-- How often a registration is among the callbacks. -/
def among (id : ℕ) (callbacks : List Callback) : ℕ := callbacks.countP (·.id = id)

/-- How often a registration is in the hands of a call. -/
def Frame.pending (id : ℕ) : Frame → ℕ
  | .register callback | .check callback | .push callback => among id [callback]
  | .release left => among id left.toList
  | .taken callbacks | .invoke callbacks => among id callbacks
  | .run _ | .drain | .take => 0

def stackPending (id : ℕ) (stack : List Frame) : ℕ := (stack.map (Frame.pending id)).sum

/-- How often a registration was run or is still to be dealt with. -/
def CancellationThreads.count (id : ℕ) (system : CancellationThreads) : ℕ :=
  system.state.ran.count id + among id system.state.callbacks + (system.threads.map (stackPending id)).sum

variable {system next : CancellationThreads} {state after : CancellationState} {thread : ℕ} {frame : Frame}
  {pushed rest : List Frame}

/-- Only a registration adds to what is to be dealt with. -/
theorem Performs.count (performs : Performs state thread frame pushed after) (id : ℕ) :
    after.ran.count id + among id after.callbacks + stackPending id pushed +
        (if id < state.registered then 1 else 0) =
      state.ran.count id + among id state.callbacks + frame.pending id +
        if id < after.registered then 1 else 0 := by
  cases performs with
  | onCancel callback rest =>
    simp only [stackPending, Frame.pending, among, List.map_cons, List.map_nil, List.sum_cons, List.sum_nil,
      List.countP_cons, List.countP_nil, decide_eq_true_eq]
    split_ifs <;> omega
  | invoke callback callbacks =>
    simp only [stackPending, Frame.pending, among, List.map_cons, List.map_nil, List.sum_cons, List.sum_nil,
      List.countP_cons, List.count_append, List.count_singleton, beq_iff_eq, decide_eq_true_eq]
    omega
  | push callback =>
    simp only [stackPending, Frame.pending, among, List.map_cons, List.map_nil, List.sum_cons, List.sum_nil,
      List.countP_append, Option.toList_none, List.countP_nil]
    omega
  | done | again | first | isCancelled | register | keep | store | release | drain | take | taken | invoked =>
    simp only [stackPending, Frame.pending, among, List.map_cons, List.map_nil, List.sum_cons, List.sum_nil,
      Option.toList_some, List.countP_nil] <;> omega

end Pending

section Invariant

/-- The frames that hold the lock. -/
def Frame.holds : Frame → Bool
  | .check _ | .push _ | .release _ | .take | .taken _ => true
  | .run _ | .register _ | .drain | .invoke _ => false

/-- The frames that only follow a call of `cancel`. -/
def Frame.late : Frame → Bool
  | .release left => left.isSome
  | .invoke callbacks => !callbacks.isEmpty
  | .drain | .take | .taken _ => true
  | .run _ | .register _ | .check _ | .push _ => false

/-- The frames that are going to take the callbacks. -/
def Frame.drains : Frame → Bool
  | .drain | .take => true
  | .run _ | .register _ | .check _ | .push _ | .release _ | .taken _ | .invoke _ => false

def Frame.pushes : Frame → Bool
  | .push _ => true
  | .run _ | .register _ | .check _ | .release _ | .drain | .take | .taken _ | .invoke _ => false

/-- What every reachable system keeps. -/
structure CancellationThreads.Sound (system : CancellationThreads) : Prop where
  counted : ∀ id, system.count id = if id < system.state.registered then 1 else 0
  /-- The holder of the lock is the thread whose innermost call has it. -/
  locked : ∀ thread stack, system.threads[thread]? = some stack →
    (system.state.lock = some thread ↔ ∃ frame ∈ stack.head?, frame.holds)
  owner : ∀ thread, system.state.lock = some thread → thread < system.threads.length
  outer : ∀ stack ∈ system.threads, ∀ frame ∈ stack.tail, frame.holds = false
  /-- Before the first call of `cancel` nothing was run. -/
  early : system.state.cancelled = false → system.state.cancels = 0 ∧ system.state.ran = [] ∧
    ∀ stack ∈ system.threads, ∀ frame ∈ stack, frame.late = false
  /-- After it, callbacks that wait are going to be taken. -/
  late : system.state.cancelled = true → 0 < system.state.cancels ∧
    ((∃ stack ∈ system.threads, ∃ frame ∈ stack, frame.drains) ∨
      system.state.callbacks = [] ∧ ∀ stack ∈ system.threads, ∀ frame ∈ stack, frame.pushes = false)

theorem CancellationThreads.sound_start (codes : List Code) : (start codes).Sound where
  counted id := by
    have nothing : ((start codes).threads.map (stackPending id)).sum = 0 := by
      refine List.sum_eq_zero fun pending member => ?_
      simp only [start, List.map_map, List.mem_map, Function.comp_apply] at member
      obtain ⟨code, -, rfl⟩ := member
      rfl
    rw [CancellationThreads.count, nothing]
    rfl
  locked thread stack here := by
    obtain ⟨code, -, rfl⟩ := List.mem_map.mp (List.mem_of_getElem? here)
    simp [start, CancellationState.new, Frame.holds]
  owner := nofun
  outer stack member frame below := by
    obtain ⟨code, -, rfl⟩ := List.mem_map.mp member
    cases below
  early _ := by
    refine ⟨rfl, rfl, fun stack member frame inside => ?_⟩
    obtain ⟨code, -, rfl⟩ := List.mem_map.mp member
    rw [List.mem_singleton.mp inside]
    rfl
  late := nofun

variable {system next : CancellationThreads} {state after : CancellationState} {thread : ℕ} {frame : Frame}
  {pushed rest : List Frame}

/-- Who has the lock, if the frame in turn knew whether it has it. -/
theorem Performs.lock (performs : Performs state thread frame pushed after)
    (held : state.lock = some thread ↔ frame.holds) (outer : ∀ frame ∈ rest, frame.holds = false) :
    (after.lock = some thread ↔ ∃ frame ∈ (pushed ++ rest).head?, frame.holds) ∧
      (∀ frame ∈ (pushed ++ rest).tail, frame.holds = false) ∧
      ∀ other, other ≠ thread → (after.lock = some other ↔ state.lock = some other) := by
  have below : ¬ ∃ frame ∈ rest.head?, frame.holds := by
    rintro ⟨frame, top, holds⟩
    rw [outer frame (List.mem_of_mem_head? top)] at holds
    cases holds
  have under : ∀ frame ∈ rest.tail, frame.holds = false := fun frame member => outer frame (List.mem_of_mem_tail member)
  cases performs with
  | register callback free | drain free =>
    refine ⟨by simp [Frame.holds], by simpa using outer, fun other different => ?_⟩
    simp [free, Ne.symm different]
  | push callback | take | keep callback late | store callback early =>
    exact ⟨by simpa [Frame.holds] using held, by simpa using outer, fun other _ => Iff.rfl⟩
  | release left | taken callbacks =>
    have owner : state.lock = some thread := held.mpr rfl
    refine ⟨by simp [Frame.holds], by simpa using outer, fun other different => ?_⟩
    simp [owner, Ne.symm different]
  | done | invoked =>
    exact ⟨⟨fun owner => absurd (held.mp owner) nofun, fun top => absurd top below⟩, under, fun other _ => Iff.rfl⟩
  | onCancel callback code | again code late | first code early | isCancelled code | invoke callback callbacks =>
    refine ⟨by simpa [Frame.holds] using held, ?_, fun other _ => Iff.rfl⟩
    simpa [Frame.holds] using outer

/-- While the flag is not set, nothing of a call of `cancel` is on the way. -/
theorem Performs.early (performs : Performs state thread frame pushed after) (unset : after.cancelled = false)
    (early : state.cancelled = false → frame.late = false) :
    state.cancelled = false ∧ after.cancels = state.cancels ∧ after.ran = state.ran ∧
      ∀ frame ∈ pushed, frame.late = false := by
  cases performs with
  | again code late | keep callback late => cases unset.symm.trans late
  | first code early => cases unset
  | release left => exact ⟨unset, rfl, rfl, by simpa [Frame.late] using early unset⟩
  | drain | take | taken | invoke => cases early unset
  | done | onCancel | isCancelled | register | store | push | invoked =>
    exact ⟨unset, rfl, rfl, by simp [Frame.late]⟩

/-- Once the flag is set, callbacks are only taken away. -/
theorem Performs.late (performs : Performs state thread frame pushed after) (set : state.cancelled = true) :
    state.cancels ≤ after.cancels ∧ (∀ frame ∈ pushed, frame.pushes = false) ∧
      (frame.pushes = false → state.callbacks = [] → after.callbacks = []) ∧
      (frame.drains → (∃ frame ∈ pushed, frame.drains) ∨ after.callbacks = [] ∧ frame.holds) := by
  cases performs with
  | first code early | store callback early => cases early.symm.trans set
  | push callback => exact ⟨Nat.le_refl _, by simp [Frame.pushes], nofun, nofun⟩
  | drain free => exact ⟨Nat.le_refl _, by simp [Frame.pushes], fun _ empty => empty, fun _ => .inl ⟨.take, by simp, rfl⟩⟩
  | take => exact ⟨Nat.le_refl _, by simp [Frame.pushes], fun _ _ => rfl, fun _ => .inr ⟨rfl, rfl⟩⟩
  | again => exact ⟨Nat.le_succ _, by simp [Frame.pushes], fun _ empty => empty, nofun⟩
  | done | onCancel | isCancelled | register | keep | release | taken | invoked | invoke =>
    exact ⟨Nat.le_refl _, by simp [Frame.pushes], fun _ empty => empty, nofun⟩

/-- The thread that has the lock is alone under it. -/
theorem CancellationThreads.Sound.pushes_eq_false (sound : system.Sound)
    (here : system.threads[thread]? = some (frame :: rest)) (holds : frame.holds) (other : frame.pushes = false) :
    ∀ stack ∈ system.threads, ∀ frame ∈ stack, frame.pushes = false := by
  have owner : system.state.lock = some thread := (sound.locked thread _ here).mpr ⟨frame, rfl, holds⟩
  intro stack member inner inside
  by_contra pushes
  have inner_holds : inner.holds := by
    cases inner <;> first | rfl | exact absurd rfl pushes
  cases stack with
  | nil => cases inside
  | cons top below =>
    rcases List.mem_cons.mp inside with rfl | deeper
    · obtain ⟨index, there⟩ := List.mem_iff_getElem?.mp member
      have also : system.state.lock = some index := (sound.locked index _ there).mpr ⟨inner, rfl, inner_holds⟩
      obtain rfl : thread = index := Option.some.inj (owner.symm.trans also)
      obtain ⟨rfl, rfl⟩ : frame = inner ∧ rest = below := by simpa using here.symm.trans there
      exact pushes other
    · rw [sound.outer _ member inner deeper] at inner_holds
      cases inner_holds

theorem CancellationThreads.Sound.turn (sound : system.Sound) (turns : system.turn thread = some next) :
    next.Sound := by
  obtain ⟨frame, rest, pushed, state, here, performed, rfl⟩ := turn_eq_some_iff.mp turns
  have performs := CancellationState.performs performed
  have member : frame :: rest ∈ system.threads := List.mem_of_getElem? here
  have inside : thread < system.threads.length := (List.getElem?_eq_some_iff.mp here).1
  have outer : ∀ frame ∈ rest, frame.holds = false := sound.outer _ member
  have lock := performs.lock (by simpa using sound.locked thread _ here) outer
  refine ⟨fun id => ?_, fun other stack there => ?_, fun other owner => ?_, ?_, fun unset => ?_, fun set => ?_⟩
  · have before := sound.counted id
    have step := performs.count id
    have moved := sum_map_set (stackPending id) here (pushed ++ rest)
    simp only [CancellationThreads.count, stackPending, List.map_append, List.sum_append, List.map_cons,
      List.sum_cons] at before step moved ⊢
    omega
  · rw [List.getElem?_set] at there
    split_ifs at there with same
    · obtain rfl := same
      obtain rfl : pushed ++ rest = stack := by simpa using there
      exact lock.1
    · rw [lock.2.2 other (Ne.symm same)]
      exact sound.locked other stack there
  · rw [List.length_set]
    by_cases same : other = thread
    · rwa [same]
    · exact sound.owner other ((lock.2.2 other same).mp owner)
  · exact forall_mem_set sound.outer lock.2.1
  · have calm := performs.early unset fun before => (sound.early before).2.2 _ member frame List.mem_cons_self
    obtain ⟨cancels, ran, early⟩ := sound.early calm.1
    refine ⟨calm.2.1.trans cancels, calm.2.2.1.trans ran, forall_mem_set early fun inner member' => ?_⟩
    rcases List.mem_append.mp member' with new | old
    · exact calm.2.2.2 inner new
    · exact early _ member inner (List.mem_cons_of_mem frame old)
  · cases before : system.state.cancelled with
    | false =>
      -- the first call of `cancel` is in turn
      cases performs with
      | first code early =>
        exact ⟨Nat.succ_pos _, .inl ⟨_, List.mem_set inside _, .drain, List.mem_cons_self, rfl⟩⟩
      | again code late | keep callback late => cases before.symm.trans late
      | _ => cases before.symm.trans set
    | true =>
      obtain ⟨cancels, rest'⟩ := sound.late before
      obtain ⟨more, calm, empty, draining⟩ := performs.late before
      refine ⟨Nat.lt_of_lt_of_le cancels more, ?_⟩
      have kept : (∀ stack ∈ system.threads, ∀ frame ∈ stack, frame.pushes = false) →
          ∀ stack ∈ system.threads.set thread (pushed ++ rest), ∀ frame ∈ stack, frame.pushes = false := by
        refine fun none => forall_mem_set none fun inner member' => ?_
        rcases List.mem_append.mp member' with new | old
        · exact calm inner new
        · exact none _ member inner (List.mem_cons_of_mem frame old)
      rcases rest' with drains | ⟨nothing, none⟩
      · by_cases top : frame.drains
        · rcases draining top with ⟨inner, new, drains⟩ | ⟨nothing, holds⟩
          · exact .inl ⟨_, List.mem_set inside _, inner, List.mem_append_left _ new, drains⟩
          · refine .inr ⟨nothing, kept (sound.pushes_eq_false here holds ?_)⟩
            cases frame <;> first | rfl | cases top
        · refine .inl (exists_mem_set here _ drains ?_)
          rintro ⟨inner, member', drains⟩
          rcases List.mem_cons.mp member' with rfl | old
          · exact absurd drains top
          · exact ⟨inner, List.mem_append_right _ old, drains⟩
      · exact .inr ⟨empty (none _ member frame List.mem_cons_self) nothing, kept none⟩

end Invariant

section Runs

variable {system next : CancellationThreads} {thread : ℕ}

namespace CancellationThreads

theorem Sound.run (sound : system.Sound) {schedule : List ℕ} (runs : system.run schedule = some next) : next.Sound := by
  induction schedule generalizing system with
  | nil =>
    obtain rfl : system = next := by simpa [CancellationThreads.run] using runs
    exact sound
  | cons thread schedule ih =>
    obtain ⟨after, turns, runs⟩ := Option.bind_eq_some_iff.mp runs
    exact ih (sound.turn turns) runs

theorem run_rank {schedule : List ℕ} (runs : system.run schedule = some next) :
    schedule.length + next.rank ≤ system.rank := by
  induction schedule generalizing system with
  | nil =>
    obtain rfl : system = next := by simpa [CancellationThreads.run] using runs
    simp
  | cons thread schedule ih =>
    obtain ⟨after, turns, runs⟩ := Option.bind_eq_some_iff.mp runs
    have lower := turn_rank turns
    have rest := ih runs
    simp only [List.length_cons]
    omega

/-- A frame waits only for the lock, and not while its thread has it. -/
theorem exists_turn {frame : Frame} {rest : List Frame} (here : system.threads[thread]? = some (frame :: rest))
    (free : frame.holds ∨ system.state.lock = none) : ∃ next, system.turn thread = some next := by
  have performs : ∃ result, system.state.perform thread frame = some result := by
    cases frame with
    | run code =>
      cases code with
      | cancel code => cases set : system.state.cancelled <;> exact ⟨_, by rw [CancellationState.perform, set]; rfl⟩
      | done | onCancel | isCancelled => exact ⟨_, rfl⟩
    | register callback =>
      have free := free.resolve_left nofun
      exact ⟨_, by rw [CancellationState.perform, if_pos free]⟩
    | drain =>
      have free := free.resolve_left nofun
      exact ⟨_, by rw [CancellationState.perform, if_pos free]⟩
    | invoke callbacks => cases callbacks <;> exact ⟨_, rfl⟩
    | check | push | release | take | taken => exact ⟨_, rfl⟩
  obtain ⟨result, performed⟩ := performs
  exact ⟨_, turn_eq_some_iff.mpr ⟨frame, rest, _, _, here, performed, rfl⟩⟩

/-- Some thread can always go on: the one that has the lock, or any if it is free. -/
theorem Sound.progress (sound : system.Sound) : system.Finished ∨ ∃ thread next, system.turn thread = some next := by
  cases lock : system.state.lock with
  | some owner =>
    have inside := sound.owner owner lock
    obtain ⟨frame, top, holds⟩ := (sound.locked owner _ (List.getElem?_eq_getElem inside)).mp lock
    obtain ⟨rest, split⟩ : ∃ rest, system.threads[owner] = frame :: rest := List.head?_eq_some_iff.mp top
    exact .inr ⟨owner, exists_turn (by rw [List.getElem?_eq_getElem inside, split]) (.inl holds)⟩
  | none =>
    rw [or_iff_not_imp_left, Finished]
    push Not
    rintro ⟨stack, member, busy⟩
    obtain ⟨thread, here⟩ := List.mem_iff_getElem?.mp member
    obtain ⟨frame, rest, rfl⟩ := List.exists_cons_of_ne_nil busy
    exact ⟨thread, exists_turn here (.inr lock)⟩

theorem Sound.exists_finish (sound : system.Sound) :
    ∃ schedule last, system.run schedule = some last ∧ last.Finished := by
  induction bound : system.rank using Nat.strongRecOn generalizing system with
  | _ bound' ih =>
    rcases sound.progress with finished | ⟨thread, next, turns⟩
    · exact ⟨[], system, rfl, finished⟩
    · obtain ⟨schedule, last, runs, finished⟩ := ih next.rank (bound ▸ turn_rank turns) (sound.turn turns) rfl
      exact ⟨thread :: schedule, last, by rw [CancellationThreads.run, turns]; exact runs, finished⟩

/-- When all threads have returned, nothing is left with a call. -/
theorem Finished.nothing_pending (finished : system.Finished) (id : ℕ) :
    (system.threads.map (stackPending id)).sum = 0 := by
  refine List.sum_eq_zero fun pending member => ?_
  obtain ⟨stack, inside, rfl⟩ := List.mem_map.mp member
  rw [finished stack inside]
  rfl

theorem Sound.count_ran_le (sound : system.Sound) (id : ℕ) :
    system.state.ran.count id ≤ if id < system.state.registered then 1 else 0 := by
  rw [← sound.counted id, count, Nat.add_assoc]
  exact Nat.le_add_right ..

/-- Whatever was registered was run when all threads have returned after a call of `cancel`. -/
theorem Sound.ran (sound : system.Sound) (finished : system.Finished) (cancelled : 0 < system.state.cancels)
    {id : ℕ} (registered : id < system.state.registered) : system.state.ran.count id = 1 := by
  have set : system.state.cancelled = true := by
    by_contra unset
    rw [(sound.early (by simpa using unset)).1] at cancelled
    cases cancelled
  have nothing : system.state.callbacks = [] := by
    rcases (sound.late set).2 with ⟨stack, member, frame, inside, -⟩ | ⟨nothing, -⟩
    · rw [finished stack member] at inside
      cases inside
    · exact nothing
  have counted := sound.counted id
  rw [count, nothing, finished.nothing_pending, if_pos registered] at counted
  exact counted

end CancellationThreads

open CancellationThreads

end Runs

end HellRs.Http
