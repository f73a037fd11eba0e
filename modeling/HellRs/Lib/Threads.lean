import Mathlib

/-! # Threads in turn

The threads of a system are a list. A turn replaces one of them, so whatever is added up over all of them changes by what
the new one has more than the old one, and whatever all of them have need only be shown of the new one.
-/

namespace HellRs.Threads

variable {α M : Type*} [AddCommMonoid M]

/-- The sum over all threads after a turn. -/
theorem sum_map_set (weight : α → M) {threads : List α} {thread : ℕ} {old : α} (here : threads[thread]? = some old)
    (new : α) : ((threads.set thread new).map weight).sum + weight old = (threads.map weight).sum + weight new := by
  induction threads generalizing thread with
  | nil => cases here
  | cons first threads ih =>
    cases thread with
    | zero =>
      obtain rfl : first = old := by simpa using here
      simp only [List.set_cons_zero, List.map_cons, List.sum_cons]
      ac_rfl
    | succ thread =>
      have inside : threads[thread]? = some old := by simpa using here
      have rest := ih inside
      simp only [List.set_cons_succ, List.map_cons, List.sum_cons]
      rw [add_assoc, rest, ← add_assoc]

theorem forall_mem_set {property : α → Prop} {threads : List α} {thread : ℕ} {new : α}
    (others : ∀ stack ∈ threads, property stack) (this : property new) :
    ∀ stack ∈ threads.set thread new, property stack := by
  intro stack member
  rcases List.mem_or_eq_of_mem_set member with member | rfl
  · exact others stack member
  · exact this

/-- A thread that is not the one in turn is still there. -/
theorem exists_mem_set {property : α → Prop} {threads : List α} {thread : ℕ} {old : α}
    (here : threads[thread]? = some old) (new : α) (some : ∃ stack ∈ threads, property stack)
    (moves : property old → property new) : ∃ stack ∈ threads.set thread new, property stack := by
  obtain ⟨stack, member, holds⟩ := some
  obtain ⟨other, there⟩ := List.mem_iff_getElem?.mp member
  by_cases same : thread = other
  · subst same
    obtain rfl : old = stack := Option.some.inj (here.symm.trans there)
    exact ⟨new, List.mem_set (List.getElem?_eq_some_iff.mp here).1 new, moves holds⟩
  · exact ⟨stack, List.mem_iff_getElem?.mpr ⟨other, by rw [List.getElem?_set_ne same, there]⟩, holds⟩

end HellRs.Threads
