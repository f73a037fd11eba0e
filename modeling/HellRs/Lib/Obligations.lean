import Mathlib

/-! # Obligations on a call stack

A stack of work, its top first. Some entries may only come to the top when another entry, one that
serves them, has run before. `Guarded` says that every entry in need still has one above it. Replacing
the top entry by the work it calls keeps that, when what it pushes serves whom it served.
-/

namespace HellRs.Obligations

variable {α : Type*} {needs serves : α → Prop}

def Guarded (needs serves : α → Prop) : List α → Prop
  | [] => True
  | top :: rest => ¬needs top ∧ (serves top ∨ Guarded needs serves rest)

theorem Guarded.top {top : α} {rest : List α} (guarded : Guarded needs serves (top :: rest)) :
    ¬needs top :=
  guarded.1

/-- An entry that serves nobody can be taken away. -/
theorem Guarded.pop {top : α} {rest : List α} (guarded : Guarded needs serves (top :: rest))
    (idle : ¬serves top) : Guarded needs serves rest :=
  guarded.2.resolve_left idle

theorem Guarded.push {top : α} {rest : List α} (guarded : Guarded needs serves rest)
    (calm : ¬needs top) : Guarded needs serves (top :: rest) :=
  ⟨calm, .inr guarded⟩

/-- Work that needs nothing may be pushed. -/
theorem Guarded.append {pushed rest : List α} (guarded : Guarded needs serves rest)
    (calm : ∀ entry ∈ pushed, ¬needs entry) : Guarded needs serves (pushed ++ rest) := by
  induction pushed with
  | nil => exact guarded
  | cons top pushed ih =>
    rw [List.forall_mem_cons] at calm
    exact (ih calm.2).push calm.1

/-- Work that needs nothing and serves guards whatever is below. -/
theorem guarded_append {pushed rest : List α} (calm : ∀ entry ∈ pushed, ¬needs entry)
    (serving : ∃ entry ∈ pushed, serves entry) : Guarded needs serves (pushed ++ rest) := by
  induction pushed with
  | nil =>
    obtain ⟨entry, member, _⟩ := serving
    cases member
  | cons top pushed ih =>
    rw [List.forall_mem_cons] at calm
    obtain ⟨entry, member, serves⟩ := serving
    refine ⟨calm.1, ?_⟩
    rcases List.mem_cons.mp member with rfl | member
    · exact .inl serves
    · exact .inr (ih calm.2 ⟨entry, member, serves⟩)

/-- Fewer needs and more service. -/
theorem Guarded.mono {needs' serves' : α → Prop} {stack : List α} (guarded : Guarded needs serves stack)
    (fewer : ∀ entry ∈ stack, needs' entry → needs entry) (more : ∀ entry, serves entry → serves' entry) :
    Guarded needs' serves' stack := by
  induction stack with
  | nil => trivial
  | cons top rest ih =>
    rw [List.forall_mem_cons] at fewer
    refine ⟨fun need => guarded.1 (fewer.1 need), ?_⟩
    rcases guarded.2 with serving | guarded
    · exact .inl (more top serving)
    · exact .inr (ih guarded fewer.2)

theorem guarded_of_calm {stack : List α} (calm : ∀ entry ∈ stack, ¬needs entry) :
    Guarded needs serves stack := by
  induction stack with
  | nil => trivial
  | cons top rest ih =>
    rw [List.forall_mem_cons] at calm
    exact ⟨calm.1, .inr (ih calm.2)⟩

end HellRs.Obligations
