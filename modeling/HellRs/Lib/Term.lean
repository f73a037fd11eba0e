import Mathlib

/-! # Finite first-order terms with binary nodes

Terms over variables, nullary symbols and binary symbols, with simultaneous substitution and
partial sorts. A term with symbols of higher arity is coded by chains of binary nodes. Sorts are
computed from the sorts of the symbols and may be undefined; a substitution that respects the
sorts of variables keeps the sort of every term.
-/

namespace HellRs

/-- Finite terms over variables `V`, nullary symbols `L` and binary symbols `N`. -/
inductive Term (V L N : Type*) where
  | var (name : V)
  | leaf (symbol : L)
  | node (symbol : N) (left right : Term V L N)
deriving DecidableEq, Repr

namespace Term

variable {V W L N K : Type*}

/-- Simultaneous substitution. -/
def bind (θ : V → Term W L N) : Term V L N → Term W L N
  | var v => θ v
  | leaf symbol => leaf symbol
  | node symbol left right => node symbol (left.bind θ) (right.bind θ)

/-- The variable has an occurrence in the term. -/
def Occurs (v : V) : Term V L N → Prop
  | var u => u = v
  | leaf _ => False
  | node _ left right => left.Occurs v ∨ right.Occurs v

/-- Number of symbols and variables, with repetitions. -/
def size : Term V L N → ℕ
  | var _ => 1
  | leaf _ => 1
  | node _ left right => left.size + right.size + 1

/-- Strict upper bound of a measure on the variables of a term. -/
def bound (f : V → ℕ) : Term V L N → ℕ
  | var v => f v + 1
  | leaf _ => 0
  | node _ left right => max (left.bound f) (right.bound f)

@[simp] theorem bind_var (θ : V → Term W L N) (v : V) : (var v).bind θ = θ v := rfl

@[simp] theorem bind_leaf (θ : V → Term W L N) (symbol : L) :
    (leaf symbol : Term V L N).bind θ = leaf symbol := rfl

@[simp] theorem bind_node (θ : V → Term W L N) (symbol : N) (left right : Term V L N) :
    (node symbol left right).bind θ = node symbol (left.bind θ) (right.bind θ) := rfl

@[simp] theorem occurs_var {v u : V} : (var u : Term V L N).Occurs v ↔ u = v := Iff.rfl

@[simp] theorem occurs_leaf {v : V} {symbol : L} : ¬ (leaf symbol : Term V L N).Occurs v := id

@[simp] theorem occurs_node {v : V} {symbol : N} {left right : Term V L N} :
    (node symbol left right).Occurs v ↔ left.Occurs v ∨ right.Occurs v := Iff.rfl

section Equations

-- Made here once, and not by each proof that rewrites with them.
attribute [local simp] size

end Equations

theorem size_pos (t : Term V L N) : 0 < t.size := by
  cases t <;> simp [size]

/-- Substitutions that agree on the variables of a term act on it alike. -/
theorem bind_congr {θ η : V → Term W L N} {t : Term V L N}
    (same : ∀ v, t.Occurs v → θ v = η v) : t.bind θ = t.bind η := by
  induction t with
  | var v => exact same v rfl
  | leaf _ => rfl
  | node symbol left right ihLeft ihRight =>
    rw [bind_node, bind_node, ihLeft fun v occurs => same v (.inl occurs),
      ihRight fun v occurs => same v (.inr occurs)]

theorem bind_bind {X : Type*} (θ : V → Term W L N) (η : W → Term X L N) (t : Term V L N) :
    (t.bind θ).bind η = t.bind fun v => (θ v).bind η := by
  induction t with
  | var _ => rfl
  | leaf _ => rfl
  | node _ _ _ ihLeft ihRight => simp only [bind_node, ihLeft, ihRight]

@[simp] theorem bind_self (t : Term V L N) : t.bind var = t := by
  induction t with
  | var _ => rfl
  | leaf _ => rfl
  | node _ _ _ ihLeft ihRight => simp only [bind_node, ihLeft, ihRight]

theorem occurs_bind {θ : V → Term W L N} {t : Term V L N} {w : W} :
    (t.bind θ).Occurs w ↔ ∃ v, t.Occurs v ∧ (θ v).Occurs w := by
  induction t with
  | var v => simp
  | leaf _ => simp
  | node _ left right ihLeft ihRight =>
    simp only [bind_node, occurs_node, ihLeft, ihRight]
    constructor
    · rintro (⟨v, occurs, inner⟩ | ⟨v, occurs, inner⟩)
      · exact ⟨v, .inl occurs, inner⟩
      · exact ⟨v, .inr occurs, inner⟩
    · rintro ⟨v, occurs | occurs, inner⟩
      · exact .inl ⟨v, occurs, inner⟩
      · exact .inr ⟨v, occurs, inner⟩

/-- The instance of a variable fits inside the instance of every term it occurs in. -/
theorem size_le_size_bind {θ : V → Term W L N} {v : V} {t : Term V L N} (occurs : t.Occurs v) :
    (θ v).size ≤ (t.bind θ).size := by
  induction t with
  | var u =>
    obtain rfl : u = v := occurs
    exact Nat.le_refl _
  | leaf _ => exact occurs.elim
  | node _ _ _ ihLeft ihRight =>
    rw [bind_node, size]
    rcases occurs with occurs | occurs
    · have := ihLeft occurs; omega
    · have := ihRight occurs; omega

/-- No finite term solves a variable against a larger term it occurs in. -/
theorem ne_bind_of_occurs {θ : V → Term W L N} {v : V} {t : Term V L N} (occurs : t.Occurs v)
    (proper : t ≠ var v) : θ v ≠ t.bind θ := by
  intro equal
  have sizes := congrArg size equal
  cases t with
  | var u => exact proper (by rw [show u = v from occurs])
  | leaf _ => exact occurs.elim
  | node symbol left right =>
    rw [bind_node, size] at sizes
    rcases occurs with occurs | occurs
    · have := size_le_size_bind (θ := θ) occurs; omega
    · have := size_le_size_bind (θ := θ) occurs; omega

theorem lt_bound {f : V → ℕ} {v : V} {t : Term V L N} (occurs : t.Occurs v) : f v < t.bound f := by
  induction t with
  | var u => rw [show u = v from occurs, bound]; omega
  | leaf _ => exact occurs.elim
  | node _ left right ihLeft ihRight =>
    rw [bound]
    rcases occurs with occurs | occurs
    · have := ihLeft occurs; omega
    · have := ihRight occurs; omega

theorem bound_le {f : V → ℕ} {limit : ℕ} {t : Term V L N} (below : ∀ v, t.Occurs v → f v < limit) :
    t.bound f ≤ limit := by
  induction t with
  | var v => exact below v rfl
  | leaf _ => exact Nat.zero_le _
  | node _ _ _ ihLeft ihRight =>
    exact Nat.max_le.mpr ⟨ihLeft fun v occurs => below v (.inl occurs),
      ihRight fun v occurs => below v (.inr occurs)⟩

/-- Partial sorts of symbols: a binary symbol may refuse the sorts of its arguments. -/
structure Sorting (L N K : Type*) where
  leaf : L → Option K
  node : N → K → K → Option K

/-- The sort of a term whose variables have the sorts `κ`. -/
def sort (S : Sorting L N K) (κ : V → K) : Term V L N → Option K
  | var v => some (κ v)
  | leaf symbol => S.leaf symbol
  | node symbol left right => do
      let leftSort ← left.sort S κ
      let rightSort ← right.sort S κ
      S.node symbol leftSort rightSort

/-- Every variable is replaced by a term of its own sort. -/
def Respects (S : Sorting L N K) (κ : V → K) (θ : V → Term V L N) : Prop :=
  ∀ v, (θ v).sort S κ = some (κ v)

theorem respects_var (S : Sorting L N K) (κ : V → K) : Respects S κ (var : V → Term V L N) :=
  fun _ => rfl

/-- A substitution that respects the sorts of the variables of a term keeps the sort of the term. -/
theorem sort_bind_of_occurs {S : Sorting L N K} {κ : V → K} {θ : V → Term V L N} {t : Term V L N}
    (respects : ∀ v, t.Occurs v → (θ v).sort S κ = some (κ v)) :
    (t.bind θ).sort S κ = t.sort S κ := by
  induction t with
  | var v => exact respects v rfl
  | leaf _ => rfl
  | node _ _ _ ihLeft ihRight =>
    simp only [bind_node, sort, ihLeft fun v occurs => respects v (.inl occurs),
      ihRight fun v occurs => respects v (.inr occurs)]

/-- A substitution that respects sorts keeps the sort of every term. -/
theorem Respects.sort_bind {S : Sorting L N K} {κ : V → K} {θ : V → Term V L N}
    (respects : Respects S κ θ) (t : Term V L N) : (t.bind θ).sort S κ = t.sort S κ :=
  sort_bind_of_occurs fun v _ => respects v

/-- Both arguments of a sorted node are sorted. -/
theorem sort_node_isSome {S : Sorting L N K} {κ : V → K} {symbol : N} {left right : Term V L N}
    (sorted : ((node symbol left right).sort S κ).isSome) :
    (left.sort S κ).isSome ∧ (right.sort S κ).isSome := by
  simp only [sort] at sorted
  cases leftSort : left.sort S κ with
  | none => simp [leftSort] at sorted
  | some _ =>
    cases rightSort : right.sort S κ with
    | none => simp [leftSort, rightSort] at sorted
    | some _ => exact ⟨rfl, rfl⟩

end Term

end HellRs
