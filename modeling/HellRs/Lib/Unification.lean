import Mathlib
import HellRs.Lib.Term

/-! # Solved bindings and the solutions of a unification problem

A unifier keeps a partial map from variables to terms, its bindings. The bindings are acyclic when
a rank decreases along them; then exactly one substitution resolves them, and every solution of the
bindings is an instance of it. The rules at the end say how one step of a unification algorithm
changes the set of solutions: decomposition and binding keep it, a clash, an occurs failure and a
difference of sorts show that it is empty.
-/

namespace HellRs.Unification

open Term

variable {V L N K : Type*}

/-- A substitution of terms over the same variables. -/
abbrev Subst (V L N : Type*) := V → Term V L N

instance : Nonempty (Subst V L N) := ⟨var⟩

/-- The current bindings of a unifier. -/
abbrev Bindings (V L N : Type*) := V → Option (Term V L N)

/-- The substitution satisfies the equation of every binding. -/
def Solves (θ : Subst V L N) (bindings : Bindings V L N) : Prop :=
  ∀ v t, bindings v = some t → θ v = t.bind θ

/-- The substitution makes every pair equal. -/
def Unifies (θ : Subst V L N) (pairs : List (Term V L N × Term V L N)) : Prop :=
  ∀ pair ∈ pairs, pair.1.bind θ = pair.2.bind θ

/-- The bindings followed to the end: unbound variables stay. -/
structure Resolves (σ : Subst V L N) (bindings : Bindings V L N) : Prop where
  free : ∀ v, bindings v = none → σ v = var v
  bound : ∀ v t, bindings v = some t → σ v = t.bind σ

/-- No variable depends on itself through the bindings. -/
def Acyclic (bindings : Bindings V L N) : Prop :=
  ∃ rank : V → ℕ, ∀ v t, bindings v = some t → ∀ u, t.Occurs u → rank u < rank v

theorem Resolves.solves {σ : Subst V L N} {bindings : Bindings V L N}
    (resolves : Resolves σ bindings) : Solves σ bindings :=
  resolves.bound

/-- `depth` unfoldings of the bindings. -/
def unfold (bindings : Bindings V L N) : ℕ → Subst V L N
  | 0, v => var v
  | depth + 1, v =>
      match bindings v with
      | none => var v
      | some t => t.bind (unfold bindings depth)

private theorem unfold_stable {bindings : Bindings V L N} {rank : V → ℕ}
    (ranked : ∀ v t, bindings v = some t → ∀ u, t.Occurs u → rank u < rank v) {v : V}
    {depth : ℕ} (deep : rank v < depth) :
    unfold bindings depth v = unfold bindings (rank v + 1) v := by
  induction h : rank v using Nat.strongRecOn generalizing v depth with
  | _ _ ih =>
    subst h
    obtain ⟨depth, rfl⟩ : ∃ rest, depth = rest + 1 := ⟨depth - 1, by omega⟩
    simp only [unfold]
    cases bound : bindings v with
    | none => rfl
    | some t =>
      apply Term.bind_congr
      intro u occurs
      have lower := ranked v t bound u occurs
      exact (ih _ lower (by omega) rfl).trans (ih _ lower lower rfl).symm

/-- Acyclic bindings are resolved by some substitution. -/
theorem Acyclic.exists_resolves {bindings : Bindings V L N} (acyclic : Acyclic bindings) :
    ∃ σ, Resolves σ bindings := by
  obtain ⟨rank, ranked⟩ := acyclic
  refine ⟨fun v => unfold bindings (rank v + 1) v, ⟨?_, ?_⟩⟩
  · intro v unbound
    simp only [unfold, unbound]
  · intro v t bound
    simp only [unfold, bound]
    apply Term.bind_congr
    intro u occurs
    exact unfold_stable ranked (ranked v t bound u occurs)

/-- Every solution of acyclic bindings is an instance of what resolves them. -/
theorem Acyclic.factors {bindings : Bindings V L N} (acyclic : Acyclic bindings)
    {σ θ : Subst V L N} (resolves : Resolves σ bindings) (solves : Solves θ bindings) (v : V) :
    θ v = (σ v).bind θ := by
  obtain ⟨rank, ranked⟩ := acyclic
  induction h : rank v using Nat.strongRecOn generalizing v with
  | _ _ ih =>
    subst h
    cases bound : bindings v with
    | none => rw [resolves.free v bound, bind_var]
    | some t =>
      rw [resolves.bound v t bound, solves v t bound, bind_bind]
      apply Term.bind_congr
      intro u occurs
      exact ih _ (ranked v t bound u occurs) u rfl

/-- What resolves acyclic bindings is unique. -/
theorem Acyclic.resolves_unique {bindings : Bindings V L N} (acyclic : Acyclic bindings)
    {σ τ : Subst V L N} (left : Resolves σ bindings) (right : Resolves τ bindings) : σ = τ := by
  obtain ⟨rank, ranked⟩ := acyclic
  funext v
  induction h : rank v using Nat.strongRecOn generalizing v with
  | _ _ ih =>
    subst h
    cases bound : bindings v with
    | none => rw [left.free v bound, right.free v bound]
    | some t =>
      rw [left.bound v t bound, right.bound v t bound]
      apply Term.bind_congr
      intro u occurs
      exact ih _ (ranked v t bound u occurs) u rfl

/-- An instance of what resolves the bindings solves them. -/
theorem Resolves.solves_of_factors {bindings : Bindings V L N} {σ θ : Subst V L N}
    (resolves : Resolves σ bindings) (factors : ∀ v, θ v = (σ v).bind θ) : Solves θ bindings := by
  intro v t bound
  rw [factors v, resolves.bound v t bound, bind_bind]
  exact Term.bind_congr fun u _ => (factors u).symm

/-- A solution acts alike on a term and on the term with the bindings resolved. -/
theorem Acyclic.bind_resolved {bindings : Bindings V L N} (acyclic : Acyclic bindings)
    {σ θ : Subst V L N} (resolves : Resolves σ bindings) (solves : Solves θ bindings)
    (t : Term V L N) : (t.bind σ).bind θ = t.bind θ := by
  rw [bind_bind]
  exact Term.bind_congr fun v _ => (acyclic.factors resolves solves v).symm

/-- The solutions of acyclic bindings are exactly the instances of what resolves them. -/
theorem Acyclic.solves_iff {bindings : Bindings V L N} (acyclic : Acyclic bindings)
    {σ : Subst V L N} (resolves : Resolves σ bindings) {θ : Subst V L N} :
    Solves θ bindings ↔ ∀ v, θ v = (σ v).bind θ :=
  ⟨acyclic.factors resolves, resolves.solves_of_factors⟩

theorem acyclic_empty : Acyclic (fun _ => none : Bindings V L N) :=
  ⟨fun _ => 0, fun _ _ bound => by cases bound⟩

section Update

variable [DecidableEq V] {bindings : Bindings V L N} {σ : Subst V L N} {v : V} {t : Term V L N}

/-- Binding a variable that the resolved term does not mention keeps the bindings acyclic. -/
theorem Acyclic.update (acyclic : Acyclic bindings) (resolves : Resolves σ bindings)
    (unbound : bindings v = none) (fresh : ¬ (t.bind σ).Occurs v) :
    Acyclic (Function.update bindings v (some t)) := by
  classical
  obtain ⟨rank, ranked⟩ := acyclic
  -- The variables that reach `v` move above every variable of the new term.
  refine ⟨fun u => if (σ u).Occurs v then rank u + t.bound rank else rank u, ?_⟩
  intro u s bound w occurs
  by_cases same : u = v
  · subst same
    rw [Function.update_self] at bound
    obtain rfl := Option.some.inj bound
    have off : ¬ (σ w).Occurs u := fun inner => fresh (occurs_bind.mpr ⟨w, occurs, inner⟩)
    have below := lt_bound (f := rank) occurs
    have self : (σ u).Occurs u := by rw [resolves.free u unbound]; rfl
    simp only [off, self, if_true, if_false]
    omega
  · rw [Function.update_of_ne same] at bound
    have lower := ranked u s bound w occurs
    by_cases reaches : (σ w).Occurs v
    · have above : (σ u).Occurs v := by
        rw [resolves.bound u s bound]
        exact occurs_bind.mpr ⟨w, occurs, reaches⟩
      simp only [reaches, above, if_true]; omega
    · by_cases above : (σ u).Occurs v
      · simp only [reaches, above, if_true, if_false]; omega
      · simp only [reaches, above, if_false]; exact lower

/-- One more binding is one more equation. -/
theorem solves_update_iff (unbound : bindings v = none) {θ : Subst V L N} :
    Solves θ (Function.update bindings v (some t)) ↔ Solves θ bindings ∧ θ v = t.bind θ := by
  constructor
  · intro solves
    refine ⟨fun u s bound => solves u s ?_, solves v t (Function.update_self ..)⟩
    rw [Function.update_of_ne (fun same => by rw [same, unbound] at bound; cases bound)]
    exact bound
  · rintro ⟨solves, equation⟩ u s bound
    by_cases same : u = v
    · subst same
      rw [Function.update_self] at bound
      obtain rfl := Option.some.inj bound
      exact equation
    · rw [Function.update_of_ne same] at bound
      exact solves u s bound

end Update

section Compression

variable {bindings compressed : Bindings V L N}

/-- One step along a binding, from a bound variable to its term. -/
def Follows (bindings : Bindings V L N) : Term V L N → Term V L N → Prop :=
  Relation.ReflTransGen fun s t => ∃ v, s = var v ∧ bindings v = some t

/-- Every binding either stays or is replaced by a later term of its own chain. -/
def Compresses (bindings compressed : Bindings V L N) : Prop :=
  ∀ v, compressed v = bindings v ∨
    ∃ s t, bindings v = some s ∧ Follows bindings s t ∧ compressed v = some t

theorem compresses_refl (bindings : Bindings V L N) : Compresses bindings bindings :=
  fun _ => .inl rfl

theorem Solves.bind_eq_of_follows {θ : Subst V L N} (solves : Solves θ bindings)
    {s t : Term V L N} (follows : Follows bindings s t) : s.bind θ = t.bind θ := by
  induction follows with
  | refl => rfl
  | tail _ step ih =>
    obtain ⟨v, rfl, bound⟩ := step
    exact ih.trans (solves v _ bound)

theorem Compresses.unbound_iff (compresses : Compresses bindings compressed) (v : V) :
    compressed v = none ↔ bindings v = none := by
  rcases compresses v with same | ⟨s, t, bound, _, after⟩
  · rw [same]
  · simp [bound, after]

theorem Compresses.resolves (compresses : Compresses bindings compressed) {σ : Subst V L N}
    (resolves : Resolves σ bindings) : Resolves σ compressed := by
  refine ⟨fun v unbound => resolves.free v ((compresses.unbound_iff v).mp unbound), ?_⟩
  intro v t bound
  rcases compresses v with same | ⟨s, t', old, follows, after⟩
  · exact resolves.bound v t (same ▸ bound)
  · obtain rfl := Option.some.inj (bound.symm.trans after)
    exact (resolves.bound v s old).trans (resolves.solves.bind_eq_of_follows follows)

theorem Compresses.acyclic (compresses : Compresses bindings compressed)
    (acyclic : Acyclic bindings) : Acyclic compressed := by
  obtain ⟨rank, ranked⟩ := acyclic
  refine ⟨rank, ?_⟩
  intro v t bound
  rcases compresses v with same | ⟨s, t', old, follows, after⟩
  · exact ranked v t (same ▸ bound)
  · obtain rfl := Option.some.inj (bound.symm.trans after)
    clear after bound
    induction follows with
    | refl => exact ranked v s old
    | tail _ step ih =>
      obtain ⟨w, rfl, next⟩ := step
      intro u occurs
      exact Nat.lt_trans (ranked w _ next u occurs) (ih w rfl)

/-- Path compression changes no solution. -/
theorem Compresses.solves_iff (compresses : Compresses bindings compressed)
    (acyclic : Acyclic bindings) {θ : Subst V L N} :
    Solves θ compressed ↔ Solves θ bindings := by
  obtain ⟨σ, resolves⟩ := acyclic.exists_resolves
  rw [acyclic.solves_iff resolves,
    (compresses.acyclic acyclic).solves_iff (compresses.resolves resolves)]

end Compression

section Rules

variable {θ : Subst V L N} {rest : List (Term V L N × Term V L N)}

@[simp] theorem unifies_nil : Unifies θ [] := fun _ member => by cases member

@[simp] theorem unifies_cons {left right : Term V L N} :
    Unifies θ ((left, right) :: rest) ↔ left.bind θ = right.bind θ ∧ Unifies θ rest := by
  simp [Unifies]

/-- Decomposition. -/
theorem unifies_node {symbol : N} {a b a' b' : Term V L N} :
    Unifies θ ((node symbol a b, node symbol a' b') :: rest) ↔
      Unifies θ ((a, a') :: (b, b') :: rest) := by
  simp [and_assoc]

/-- A variable against a larger resolved term that mentions it has no finite solution. -/
theorem no_solution_of_occurs {bindings : Bindings V L N} (acyclic : Acyclic bindings)
    {σ : Subst V L N} (resolves : Resolves σ bindings) {v : V} {t : Term V L N}
    (occurs : (t.bind σ).Occurs v) (proper : t.bind σ ≠ var v) (solves : Solves θ bindings) :
    θ v ≠ t.bind θ := by
  rw [← acyclic.bind_resolved resolves solves t]
  exact ne_bind_of_occurs occurs proper

/-- Terms of different sorts have no common instance that respects sorts. -/
theorem no_solution_of_sort {S : Sorting L N K} {κ : V → K} (respects : Respects S κ θ)
    {s t : Term V L N} (differ : s.sort S κ ≠ t.sort S κ) : s.bind θ ≠ t.bind θ := by
  intro equal
  have sorts := congrArg (sort S κ) equal
  rw [respects.sort_bind, respects.sort_bind] at sorts
  exact differ sorts

end Rules

end HellRs.Unification
