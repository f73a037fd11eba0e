import Mathlib

/-! # Following links

Links are a partial function: every element has at most one successor. `Leads` follows them any
number of times. `meets` is the usual bounded walk with a visited list, and it decides whether a
target lies ahead when the links start from finitely many elements. Links are acyclic when no
element leads back to itself through a step; adding a link keeps that exactly when its end does not
lead to its start.
-/

namespace HellRs.Chase

variable {α : Type*}

/-- One link. -/
def Link (next : α → Option α) (first second : α) : Prop := next first = some second

/-- Following links any number of times. -/
def Leads (next : α → Option α) : α → α → Prop := Relation.ReflTransGen (Link next)

variable {next : α → Option α}

theorem Leads.refl (first : α) : Leads next first first := Relation.ReflTransGen.refl

theorem Leads.head {first second third : α} (link : next first = some second)
    (rest : Leads next second third) : Leads next first third :=
  Relation.ReflTransGen.head link rest

theorem Leads.trans {first second third : α} (left : Leads next first second)
    (right : Leads next second third) : Leads next first third :=
  Relation.ReflTransGen.trans left right

/-- Links have one successor, so what lies ahead of an element lies ahead of its successor. -/
theorem Leads.cases_head {first last : α} (leads : Leads next first last) :
    first = last ∨ ∃ second, next first = some second ∧ Leads next second last :=
  Relation.ReflTransGen.cases_head leads

/-- A set that is closed under the links holds everything ahead of its elements. -/
theorem Leads.mem_of_closed {set : α → Prop}
    (closed : ∀ element, set element → ∀ successor, next element = some successor → set successor)
    {first last : α} (leads : Leads next first last) (start : set first) : set last := by
  induction leads with
  | refl => exact start
  | tail _ link ih => exact closed _ ih _ link

section Walk

/-- Whether the walk from an element meets the target before it ends or repeats. -/
def meets [DecidableEq α] (next : α → Option α) (target : α) : ℕ → α → List α → Bool
  | 0, _, _ => false
  | fuel + 1, current, visited =>
      if current ∈ visited then false
      else if current = target then true
      else match next current with
        | none => false
        | some successor => meets next target fuel successor (current :: visited)

/-- Elements already walked: each has a successor, which is walked too or comes next. -/
structure Walked (next : α → Option α) (target : α) (keys visited : List α) (current : α) : Prop where
  nodup : visited.Nodup
  keys : ∀ element ∈ visited, element ∈ keys
  closed : ∀ element ∈ visited, ∀ successor, next element = some successor →
    successor ∈ visited ∨ successor = current
  missed : target ∉ visited

theorem Walked.step {target current successor : α} {keys visited : List α}
    (walked : Walked next target keys visited current) (fresh : current ∉ visited)
    (other : current ≠ target) (link : next current = some successor) (key : current ∈ keys) :
    Walked next target keys (current :: visited) successor where
  nodup := List.nodup_cons.mpr ⟨fresh, walked.nodup⟩
  keys := List.forall_mem_cons.mpr ⟨key, walked.keys⟩
  closed := by
    intro element member after isAfter
    rcases List.mem_cons.mp member with rfl | member
    · exact .inr (Option.some.inj (isAfter.symm.trans link))
    · rcases walked.closed element member after isAfter with inside | rfl
      · exact .inl (List.mem_cons_of_mem _ inside)
      · exact .inl (List.mem_cons_self ..)
  missed := by
    rintro (_ | ⟨_, member⟩)
    · exact other rfl
    · exact walked.missed member

/-- A repeated walk is inside the visited elements for good. -/
theorem Walked.not_leads {target current : α} {keys visited : List α}
    (walked : Walked next target keys visited current) (repeated : current ∈ visited) :
    ¬Leads next current target := by
  intro leads
  have closed : ∀ element, element ∈ visited → ∀ successor, next element = some successor →
      successor ∈ visited := by
    intro element member successor link
    rcases walked.closed element member successor link with inside | rfl
    · exact inside
    · exact repeated
  exact walked.missed (leads.mem_of_closed closed repeated)

variable [DecidableEq α]

theorem meets_iff_of_walked {target : α} {keys : List α}
    (linked : ∀ element successor, next element = some successor → element ∈ keys)
    {fuel : ℕ} {current : α} {visited : List α}
    (walked : Walked next target keys visited current)
    (enough : keys.length < visited.length + fuel) :
    meets next target fuel current visited = true ↔ Leads next current target := by
  induction fuel generalizing current visited with
  | zero =>
    have bound := (walked.nodup.subperm walked.keys).length_le
    omega
  | succ fuel ih =>
    rw [meets]
    split_ifs with repeated found
    · simpa using walked.not_leads repeated
    · simpa [found] using Leads.refl target
    · cases link : next current with
      | none =>
        simp only [Bool.false_eq_true, false_iff]
        intro leads
        rcases leads.cases_head with same | ⟨_, isNext, _⟩
        · exact found same
        · simp [link] at isNext
      | some successor =>
        have further := walked.step repeated found link (linked _ _ link)
        rw [ih further (by rw [List.length_cons]; omega)]
        constructor
        · exact fun rest => rest.head link
        · intro leads
          rcases leads.cases_head with same | ⟨_, isNext, rest⟩
          · exact absurd same found
          · rwa [Option.some.inj (link.symm.trans isNext)]

/-- The walk decides whether the target lies ahead. -/
theorem meets_iff (keys : List α)
    (linked : ∀ element successor, next element = some successor → element ∈ keys)
    {target current : α} (fuel : ℕ) (enough : keys.length < fuel) :
    meets next target fuel current [] = true ↔ Leads next current target :=
  meets_iff_of_walked linked ⟨List.nodup_nil, by simp, by simp, by simp⟩ (by simpa using enough)

end Walk

/-- No element leads back to itself through a link. -/
def Acyclic (next : α → Option α) : Prop :=
  ∀ first second, next first = some second → ¬Leads next second first

section Acyclic

/-- With a new link, a path takes it for the last time or not at all. -/
theorem leads_update [DecidableEq α] {source target first last : α} (final : next source = none)
    (leads : Leads (Function.update next source (some target)) first last) :
    Leads next first last ∨ Leads next first source ∧ Leads next target last := by
  induction leads with
  | refl => exact .inl (.refl first)
  | @tail middle last _ link ih =>
    by_cases same : middle = source
    · subst same
      have isTarget : target = last := by simpa [Link] using link
      subst isTarget
      have before : Leads next first middle := ih.elim id And.left
      exact .inr ⟨before, .refl target⟩
    · have old : next middle = some last := by simpa [Link, same] using link
      rcases ih with direct | ⟨before, after⟩
      · exact .inl (direct.tail old)
      · exact .inr ⟨before, after.tail old⟩

theorem leads_update_of_leads [DecidableEq α] {source target first last : α}
    (final : next source = none) (leads : Leads next first last) :
    Leads (Function.update next source (some target)) first last := by
  induction leads with
  | refl => exact .refl first
  | @tail middle last _ link ih =>
    refine ih.tail ?_
    have other : middle ≠ source := by
      rintro rfl
      simp [Link, final] at link
    simpa [Link, other] using link

/-- A new link keeps the links acyclic exactly when its end does not lead to its start. -/
theorem acyclic_update_iff [DecidableEq α] {source target : α} (acyclic : Acyclic next)
    (final : next source = none) :
    Acyclic (Function.update next source (some target)) ↔ ¬Leads next target source := by
  constructor
  · intro still back
    exact still source target (by simp) (leads_update_of_leads final back)
  · intro apart first second link back
    by_cases same : first = source
    · subst same
      obtain rfl : target = second := by simpa using link
      rcases leads_update final back with direct | ⟨_, direct⟩
      · exact apart direct
      · exact apart direct
    · have old : next first = some second := by simpa [same] using link
      rcases leads_update final back with direct | ⟨before, after⟩
      · exact acyclic first second old direct
      · exact apart (after.trans (before.head old))

/-- Acyclic links from finitely many elements can only be followed finitely often. -/
theorem Acyclic.wellFounded (acyclic : Acyclic next) (keys : List α)
    (linked : ∀ element successor, next element = some successor → element ∈ keys) :
    WellFounded fun second first => next first = some second := by
  let ahead : α → α → Prop := fun second first => Relation.TransGen (Link next) first second
  have : IsStrictOrder α ahead := {
    irrefl := by
      intro element cycle
      obtain ⟨second, link, back⟩ := Relation.TransGen.head'_iff.mp cycle
      exact acyclic element second link back
    trans := fun _ _ _ later earlier => earlier.trans later }
  have last : ∀ element, element ∉ keys → Acc (fun second first => next first = some second) element :=
    fun element outside => ⟨element, fun successor link => absurd (linked _ _ link) outside⟩
  refine ⟨fun element => ?_⟩
  by_cases inside : element ∈ keys
  · refine Set.WellFoundedOn.induction (s := {element | element ∈ keys}) (r := ahead)
      (List.finite_toSet keys).wellFoundedOn inside ?_
    intro current _ ih
    refine ⟨current, fun successor link => ?_⟩
    by_cases further : successor ∈ keys
    · exact ih successor further (.single link)
    · exact last successor further
  · exact last element inside

end Acyclic

end HellRs.Chase
