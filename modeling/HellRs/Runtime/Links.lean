import HellRs.Runtime.Interruption

/-! # Alias links

A thunk that has become an alias of another links to it, and the loop of `enter_thunk` follows the
links without a charge. An iteration that makes a thunk an alias keeps the links acyclic exactly
when the links of the target do not lead back to the thunk.
-/

namespace HellRs.Runtime

open Core Builtins Chase

variable {H : Host}

/-- The thunk of which this one is an alias. -/
def ThunkState.link : ThunkState H → Option ThunkId
  | .indirection target => some target
  | _ => none

/-- The alias links of a heap. -/
def Heap.links (heap : Heap H) (thunk : ThunkId) : Option ThunkId :=
  heap[thunk]?.bind ThunkState.link

namespace Heap

variable {heap heap' : Heap H}

theorem links_of_grows (grows : heap.Grows heap') : heap'.links = heap.links := by
  funext thunk
  cases here : heap[thunk]? with
  | some state => simp [links, here, grows.get here]
  | none =>
    cases new : heap'[thunk]? with
    | none => simp [links, here, new]
    | some state =>
      rcases grows.get_iff new with old | ⟨_, initial⟩
      · simp [here] at old
      · cases state <;> first | exact initial.elim | simp [links, here, new, ThunkState.link]

theorem links_set {thunk : ThunkId} (inside : thunk < heap.length) (state : ThunkState H) :
    Heap.links (heap.set thunk state) = Function.update heap.links thunk state.link := by
  funext other
  by_cases same : other = thunk
  · subst same
    simp [links, inside]
  · simp [links, Ne.symm same, same]

theorem links_key (thunk target : ThunkId) (link : heap.links thunk = some target) :
    thunk ∈ List.range heap.length := by
  simp only [links, Option.bind_eq_some_iff] at link
  obtain ⟨state, here, _⟩ := link
  exact List.mem_range.mpr (List.getElem?_eq_some_iff.mp here).1

end Heap

namespace System

variable {natives : Natives H} {program : CoreProgram} {limit : FrameLimit} {system next : System H}

/-- The action makes the thunk an alias of the target. -/
def Aliases (system : System H) (action : Action H) (thunk target : ThunkId) : Prop :=
  ∃ id evaluator, action = .step id ∧ system.evaluators[id]? = some evaluator ∧
    (system.view evaluator).Aliases thunk target

/-- The action makes no thunk an alias of one that leads back to it. -/
def Productive (system : System H) (action : Action H) : Prop :=
  ∀ thunk target, system.Aliases action thunk target → ¬Leads system.heap.links target thunk

theorem Aliases.links {action : Action H} {thunk target : ThunkId}
    (reachable : Reachable natives program limit system)
    (aliases : system.Aliases action thunk target)
    (acted : system.act natives program limit action = some next) :
    next.heap.links = Function.update system.heap.links thunk (some target) ∧
      system.heap.links thunk = none := by
  obtain ⟨id, evaluator, rfl, here, phase, running, rest, stack⟩ := aliases
  have evaluating : system.heap[thunk]? = some (.evaluating id) := by
    refine (reachable.owned.evaluating thunk id).mpr ?_
    rw [holds_of here]
    exact List.mem_append_right _ (by simp [show evaluator.stack = _ from stack])
  have step : (system.view evaluator).step natives program limit id = some
      (((system.view evaluator).store thunk (.indirection target)).move (.loop (.enter target)) rest) := by
    simp only [Local.step, phase, running, Local.iterate, stack]
  rw [act_step here step] at acted
  obtain rfl := Option.some.inj acted
  exact ⟨Heap.links_set (List.getElem?_eq_some_iff.mp evaluating).1 _,
    by simp [Heap.links, evaluating, ThunkState.link]⟩

/-- Only an aliasing action changes the links. -/
theorem act_links {action : Action H} (reachable : Reachable natives program limit system)
    (acted : system.act natives program limit action = some next)
    (plain : ∀ thunk target, ¬system.Aliases action thunk target) :
    next.heap.links = system.heap.links := by
  rcases act_cases acted with ⟨id, evaluator, state, here, acts, rfl⟩ | ⟨cell, rfl, rfl⟩
  · cases acts with
    | force | cancel | exhaust => rfl
    | step step =>
      change state.heap.links = _
      cases Local.step_effect step with
      | quiet grows => exact Heap.links_of_grows grows
      | claim thunk suspension suspended grows =>
        have none : system.heap.links thunk = none := by
          simp [Heap.links, show system.heap[thunk]? = _ from suspended, ThunkState.link]
        rw [Heap.links_of_grows grows, Heap.links_set (List.getElem?_eq_some_iff.mp suspended).1]
        exact Function.update_eq_self_iff.mpr none.symm
      | settle thunk result settled linked stored same =>
        have evaluating : system.heap[thunk]? = some (.evaluating id) := by
          refine (reachable.owned.evaluating thunk id).mpr ?_
          rw [holds_of here]
          exact same.mem_iff.mpr (List.mem_cons_self ..)
        have none : system.heap.links thunk = none := by
          simp [Heap.links, evaluating, ThunkState.link]
        have final : result.link = Option.none := by
          cases result with
          | indirection target =>
            exact absurd ⟨id, evaluator, rfl, here, linked target rfl⟩ (plain thunk target)
          | _ => rfl
        rw [stored]
        change Heap.links (system.heap.set thunk result) = _
        rw [Heap.links_set (List.getElem?_eq_some_iff.mp evaluating).1, final]
        exact Function.update_eq_self_iff.mpr none.symm
  · exact Heap.links_of_grows (system.heap.grows_allocate cell)

/-- An action keeps the links acyclic exactly when it makes no thunk an alias of one that leads back
to it. -/
theorem acyclic_act_iff {action : Action H} (reachable : Reachable natives program limit system)
    (acyclic : Acyclic system.heap.links)
    (acted : system.act natives program limit action = some next) :
    Acyclic next.heap.links ↔ system.Productive action := by
  by_cases aliasing : ∃ thunk target, system.Aliases action thunk target
  · obtain ⟨thunk, target, aliases⟩ := aliasing
    obtain ⟨links, final⟩ := aliases.links reachable acted
    rw [links, acyclic_update_iff acyclic final]
    constructor
    · intro apart other found isAlias
      obtain ⟨id, evaluator, rfl, here, phase, _, rest, stack⟩ := aliases
      obtain ⟨_, _, ⟨⟩, here', phase', _, rest', stack'⟩ := isAlias
      obtain rfl := Option.some.inj (here.symm.trans here')
      obtain rfl : target = found := by simpa using phase.symm.trans phase'
      obtain ⟨⟨⟩, _⟩ := List.cons.inj (stack.symm.trans stack')
      exact apart
    · exact fun productive => productive thunk target aliases
  · have plain : ∀ thunk target, ¬system.Aliases action thunk target :=
      fun thunk target aliases => aliasing ⟨thunk, target, aliases⟩
    rw [act_links reachable acted plain]
    exact ⟨fun _ thunk target aliases => absurd aliases (plain thunk target), fun _ => acyclic⟩

/-- In a run whose steps are all productive the links stay acyclic. -/
theorem acyclic_run {first last : System H} {actions : List (Action H)}
    (reachable : Reachable natives program limit first) (acyclic : Acyclic first.heap.links)
    (run : RunWhere natives program limit Productive first actions last) :
    Acyclic last.heap.links := by
  induction run with
  | refl => exact acyclic
  | snoc run productive acted ih =>
    exact (acyclic_act_iff (reachable.run run.run) ih acted).mpr productive

/-- An evaluator whose links lead to a thunk of its own reports a black hole, after following
them. -/
theorem reports_of_leads {id : EvaluationId} {thunk own : ThunkId} (enters : system.Enters id thunk)
    (leads : Leads system.heap.links thunk own) (owns : system.Owns id own) :
    ∃ rounds found, system.acts natives program limit (.replicate rounds (.step id)) = some found ∧
      Reports natives program limit found id := by
  generalize isHeap : system.heap = heap at leads
  induction leads using Relation.ReflTransGen.head_induction_on generalizing system with
  | refl => exact ⟨0, system, rfl, (enters_owned enters owns).1.mpr (.refl _)⟩
  | @head thunk target link rest ih =>
    obtain ⟨evaluator, here, entering⟩ := enters
    have indirection : system.heap[thunk]? = some (.indirection target) := by
      simp only [Link, Heap.links, Option.bind_eq_some_iff] at link
      obtain ⟨state, found, isLink⟩ := link
      cases state <;> simp_all [ThunkState.link]
    have step : (system.view evaluator).step natives program limit id =
        some ((system.view evaluator).move (.entering target) evaluator.stack) := by
      simp [Local.step, Local.enterThunk, view, Local.phase, Local.stack, entering, indirection]
    have enters' : (system.update id ((system.view evaluator).move (.entering target)
        evaluator.stack)).Enters id target := ⟨_, by rw [update_evaluators here, if_pos rfl], rfl⟩
    obtain ⟨rounds, found, acted, reports⟩ := ih enters' owns isHeap
    refine ⟨rounds + 1, found, ?_, reports⟩
    simp [List.replicate_succ, acts, act_step here step, acted]

end System

end HellRs.Runtime
