import HellRs.Options.Parser

/-! # The order of options and positional arguments

An occurrence of an option that is moved past a positional argument only gets another position. Evaluation compares positions
and never reads them, so it takes the same occurrences in the same order.
-/

namespace HellRs.Options

variable {T : Type}

/-! ## Moved positions -/

/-- An occurrence at another position. -/
def OptionOccurrence.move (change : ℕ → ℕ) (occurrence : OptionOccurrence) : OptionOccurrence :=
  { occurrence with position := change occurrence.position }

def Occurrences.move (change : ℕ → ℕ) (options : Occurrences) : Occurrences :=
  options.map fun (name, occurrences) => (name, occurrences.map (OptionOccurrence.move change))

def OptionParseState.move (change : ℕ → ℕ) (state : OptionParseState) : OptionParseState :=
  { state with options := Occurrences.move change state.options }

/-- A property of all positions of occurrences. -/
def Occurrences.Within (options : Occurrences) (inside : ℕ → Prop) : Prop :=
  ∀ entry ∈ options, ∀ occurrence ∈ entry.2, inside occurrence.position

/-- The change keeps the order of the positions of a kind. -/
def Keeps (change : ℕ → ℕ) (inside : ℕ → Prop) : Prop :=
  ∀ first second, inside first → inside second → (change first ≤ change second ↔ first ≤ second)

variable {change : ℕ → ℕ} {inside : ℕ → Prop} {options : Occurrences} {state next : OptionParseState}

theorem lookup_move (name : Text) (options : Occurrences) : (Occurrences.move change options).lookup name =
    (options.lookup name).map (List.map (OptionOccurrence.move change)) := by
  induction options with
  | nil => rfl
  | cons entry options ih =>
    obtain ⟨other, occurrences⟩ := entry
    rw [Occurrences.move, List.map_cons, List.lookup_cons, List.lookup_cons]
    by_cases same : name == other
    · simp [same]
    · rw [Bool.not_eq_true] at same
      simp only [same]
      exact ih

theorem push_move (name : Text) (occurrence : OptionOccurrence) (options : Occurrences) :
    pushOccurrence name (occurrence.move change) (Occurrences.move change options) =
      Occurrences.move change (pushOccurrence name occurrence options) := by
  induction options with
  | nil => rfl
  | cons entry options ih =>
    obtain ⟨other, occurrences⟩ := entry
    rw [Occurrences.move, List.map_cons]
    simp only [pushOccurrence]
    split
    · simp [Occurrences.move]
    · split
      · rfl
      · change _ :: pushOccurrence name _ (Occurrences.move change options) = _
        rw [ih]
        rfl

theorem pop_move (name : Text) (options : Occurrences) :
    popOccurrence name (Occurrences.move change options) = Occurrences.move change (popOccurrence name options) := by
  induction options with
  | nil => rfl
  | cons entry options ih =>
    obtain ⟨other, occurrences⟩ := entry
    rw [Occurrences.move, List.map_cons]
    simp only [popOccurrence]
    split
    · simp [Occurrences.move]
    · change _ :: popOccurrence name (Occurrences.move change options) = _
      rw [ih]
      rfl

theorem front_move (name : Text) (options : Occurrences) :
    ((Occurrences.move change options).lookup name).bind List.head? =
      ((options.lookup name).bind List.head?).map (OptionOccurrence.move change) := by
  rw [lookup_move]
  cases options.lookup name with
  | none => rfl
  | some occurrences => exact List.head?_map ..

theorem Occurrences.Within.front (within : options.Within inside) {name : Text} {occurrence : OptionOccurrence}
    (front : (options.lookup name).bind List.head? = some occurrence) : inside occurrence.position := by
  obtain ⟨occurrences, found, first⟩ := Option.bind_eq_some_iff.mp front
  obtain ⟨before, after, rfl, -⟩ := List.lookup_eq_some_iff.mp found
  exact within (name, occurrences) (by simp) occurrence (List.mem_of_mem_head? first)

theorem Occurrences.Within.earliest (within : options.Within inside) {longs : List Text} {position : ℕ} {long : Text}
    (first : earliest options longs = some (position, long)) : inside position := by
  induction longs with
  | nil => cases first
  | cons other longs ih =>
    rw [Options.earliest] at first
    cases front : (options.lookup other).bind List.head? with
    | none =>
      rw [front] at first
      exact ih first
    | some occurrence =>
      have here := within.front front
      cases later : Options.earliest options longs with
      | none =>
        rw [front, later] at first
        cases first
        exact here
      | some entry =>
        rw [front, later] at first
        dsimp only at first
        split at first
        · cases first
          exact here
        · cases first
          exact ih later

/-- The earliest occurrence stays the earliest. -/
theorem earliest_move (keeps : Keeps change inside) (within : options.Within inside) (longs : List Text) :
    earliest (Occurrences.move change options) longs =
      (earliest options longs).map fun (position, long) => (change position, long) := by
  induction longs with
  | nil => rfl
  | cons long longs ih =>
    rw [earliest, earliest, front_move, ih]
    cases front : (options.lookup long).bind List.head? with
    | none => rfl
    | some occurrence =>
      cases later : earliest options longs with
      | none => rfl
      | some entry =>
        obtain ⟨position, other⟩ := entry
        have same := keeps occurrence.position position (within.front front) (within.earliest later)
        simp only [Option.map_some, OptionOccurrence.move]
        by_cases sooner : occurrence.position ≤ position
        · rw [if_pos sooner, if_pos (same.mpr sooner)]
          rfl
        · rw [if_neg sooner, if_neg (same.not.mpr sooner)]
          rfl

theorem Occurrences.Within.pop (within : options.Within inside) (name : Text) : Occurrences.Within (popOccurrence name options) inside := by
  induction options with
  | nil => exact within
  | cons entry options ih =>
    obtain ⟨other, occurrences⟩ := entry
    obtain ⟨here, rest⟩ := List.forall_mem_cons.mp within
    rw [popOccurrence]
    split
    · exact List.forall_mem_cons.mpr ⟨fun occurrence there => here occurrence (List.mem_of_mem_tail there), rest⟩
    · exact List.forall_mem_cons.mpr ⟨here, ih rest⟩

theorem Occurrences.Within.push (within : options.Within inside) {name : Text} {occurrence : OptionOccurrence}
    (new : inside occurrence.position) : Occurrences.Within (pushOccurrence name occurrence options) inside := by
  have single : ∀ other ∈ [occurrence], inside other.position := List.forall_mem_singleton.mpr new
  induction options with
  | nil => exact List.forall_mem_singleton.mpr single
  | cons entry options ih =>
    obtain ⟨other, occurrences⟩ := entry
    obtain ⟨here, rest⟩ := List.forall_mem_cons.mp within
    rw [pushOccurrence]
    split
    · refine List.forall_mem_cons.mpr ⟨fun occurrence there => ?_, rest⟩
      exact (List.mem_append.mp there).elim (here occurrence) (single occurrence)
    · split
      · exact List.forall_mem_cons.mpr ⟨single, within⟩
      · exact List.forall_mem_cons.mpr ⟨here, ih rest⟩

/-- Positions that do not change. -/
theorem move_eq_self (within : options.Within fun position => change position = position) : Occurrences.move change options = options := by
  have each : ∀ entry ∈ options, (entry.1, entry.2.map (OptionOccurrence.move change)) = entry := by
    intro entry member
    have same : entry.2.map (OptionOccurrence.move change) = entry.2 := by
      refine (List.map_congr_left fun occurrence there => ?_).trans (List.map_id _)
      rw [OptionOccurrence.move, within entry member occurrence there, id]
    rw [same]
  exact (List.map_congr_left each).trans (List.map_id' options)

theorem takeOptionOccurrence_move (keeps : Keeps change inside) (within : state.options.Within inside)
    (modifiers : OptionModifiers T) : takeOptionOccurrence (state.move change) modifiers =
      (takeOptionOccurrence state modifiers).map fun (occurrence, state) => (occurrence.move change, state.move change) := by
  simp only [takeOptionOccurrence, OptionParseState.move, earliest_move keeps within, Option.bind_eq_bind]
  cases earliest state.options (modifierLongs modifiers) with
  | none => rfl
  | some entry =>
    obtain ⟨position, long⟩ := entry
    simp only [Option.map_some, Option.bind_some, front_move]
    cases (state.options.lookup long).bind List.head? with
    | none => rfl
    | some occurrence =>
      simp only [Option.map_some, Option.bind_some, pop_move]
      rfl

theorem takeOptionOccurrence_within (within : state.options.Within inside) {modifiers : OptionModifiers T}
    {occurrence : OptionOccurrence} (taken : takeOptionOccurrence state modifiers = some (occurrence, next)) :
    next.options.Within inside := by
  simp only [takeOptionOccurrence, Option.bind_eq_bind, Option.bind_eq_some_iff] at taken
  obtain ⟨⟨position, long⟩, -, first, -, same⟩ := taken
  cases same
  exact within.pop long

theorem size_move (state : OptionParseState) : (state.move change).size = state.size := by
  simp [OptionParseState.size, OptionParseState.move, Occurrences.move, Function.comp_def]

/-! ## Evaluation -/

/-- Moved positions do not change what an evaluation returns, nor what it takes. -/
structure Indifferent (change : ℕ → ℕ) (inside : ℕ → Prop) (evaluate : Evaluates T) : Prop where
  same {state : OptionParseState} (within : state.options.Within inside) : evaluate (state.move change) =
    (evaluate state).map fun (evaluation, state) => (evaluation, state.move change)
  within {state next : OptionParseState} {evaluation : OptionEvaluation T} (within : state.options.Within inside)
    (evaluated : evaluate state = .ok (evaluation, next)) : next.options.Within inside

namespace Indifferent

variable {evaluate : Evaluates T}

theorem ok (evaluation : OptionEvaluation T) : Indifferent change inside fun state => .ok (evaluation, state) where
  same _ := rfl
  within within evaluated := by
    cases evaluated
    exact within

theorem error (error : OptionError) : Indifferent change inside (T := T) fun _ => .error error where
  same _ := rfl
  within _ evaluated := nomatch evaluated

theorem bind {continue_ : OptionEvaluation T → Evaluates T} (first : Indifferent change inside evaluate)
    (rest : ∀ evaluation, Indifferent change inside (continue_ evaluation)) :
    Indifferent change inside fun state => (evaluate state).bind fun result => continue_ result.1 result.2 where
  same {state} within := by
    rw [first.same within]
    cases evaluated : evaluate state with
    | error => rfl
    | ok result => exact (rest result.1).same (first.within within evaluated)
  within {state next evaluation} within evaluated := by
    cases early : evaluate state with
    | error =>
      rw [early] at evaluated
      cases evaluated
    | ok result =>
      rw [early] at evaluated
      exact (rest result.1).within (first.within within early) evaluated

/-- What the loop of `many` does with an item. -/
def manyTurn (again : List (Result T) → ℕ → Evaluates T) (values : List (Result T)) (consumed : ℕ) (evaluation : OptionEvaluation T) :
    Evaluates T := fun state =>
  match evaluation with
  | .success value itemConsumed =>
    if itemConsumed = 0 then .error .nonproductive else again (values ++ [value]) (consumed + itemConsumed) state
  | .missing expected itemConsumed =>
    if itemConsumed = 0 then .ok (.success (.list values) consumed, state) else .ok (.missing expected (consumed + itemConsumed), state)

theorem manyLoop (indifferent : Indifferent change inside evaluate) (fuel : ℕ) (values : List (Result T)) (consumed : ℕ) :
    Indifferent change inside (manyLoop evaluate fuel values consumed) := by
  induction fuel generalizing values consumed with
  | zero => exact error .exhausted
  | succ fuel ih =>
    have rest (evaluation : OptionEvaluation T) : Indifferent change inside (manyTurn (Options.manyLoop evaluate fuel) values consumed evaluation) := by
      unfold manyTurn
      cases evaluation with
      | success value itemConsumed =>
        by_cases unproductive : itemConsumed = 0
        · simp only [unproductive, ↓reduceIte]
          exact error .nonproductive
        · simp only [unproductive, ↓reduceIte]
          exact ih _ _
      | missing expected itemConsumed =>
        by_cases unproductive : itemConsumed = 0
        · simp only [unproductive, ↓reduceIte]
          exact ok _
        · simp only [unproductive, ↓reduceIte]
          exact ok _
    exact indifferent.bind rest

/-- An occurrence is taken, whatever its position is. -/
theorem take (keeps : Keeps change inside) (modifiers : OptionModifiers T) {found : OptionOccurrenceValue → Evaluates T}
    {missing : Evaluates T} (taken : ∀ value, Indifferent change inside (found value)) (other : Indifferent change inside missing) :
    Indifferent change inside fun state =>
      match takeOptionOccurrence state modifiers with
      | some (occurrence, state) => found occurrence.value state
      | none => missing state where
  same {state} within := by
    rw [takeOptionOccurrence_move keeps within]
    cases here : takeOptionOccurrence state modifiers with
    | none => exact other.same within
    | some entry => exact (taken _).same (takeOptionOccurrence_within within here)
  within {state next evaluation} within evaluated := by
    cases here : takeOptionOccurrence state modifiers with
    | none =>
      rw [here] at evaluated
      exact other.within within evaluated
    | some entry =>
      rw [here] at evaluated
      exact (taken _).within (takeOptionOccurrence_within within here) evaluated

/-- An option without a long name is an error. -/
theorem required {modifiers : OptionModifiers T} {evaluate : Text → Evaluates T}
    (rest : ∀ long, Indifferent change inside (evaluate long)) :
    Indifferent change inside fun state => (requiredLong modifiers).bind fun long => evaluate long state := by
  cases requiredLong modifiers with
  | error reason => exact error reason
  | ok long => exact rest long

theorem evaluateOption (keeps : Keeps change inside) (parser : OptionParser T) :
    Indifferent change inside (evaluateOption parser) := by
  induction parser with
  | pure value => exact ok _
  | helper => exact ok _
  | map function parser ih => exact ih.bind fun evaluation => ok (evaluation.map function)
  | apply function argument flipped first second =>
    cases flipped with
    | false => exact first.bind fun evaluation => second.bind fun evaluation' => ok (applyEvaluations false evaluation evaluation')
    | true => exact second.bind fun evaluation => first.bind fun evaluation' => ok (applyEvaluations true evaluation evaluation')
  | optional parser ih => exact ih.bind fun evaluation => ok evaluation.optional
  | many parser ih =>
    constructor
    · intro state within
      rw [Options.evaluateOption, size_move]
      exact (ih.manyLoop (state.size + 1) [] 0).same within
    · intro state next evaluation within evaluated
      exact (ih.manyLoop (state.size + 1) [] 0).within within evaluated
  | switch modifiers =>
    have found (value : OptionOccurrenceValue) : Indifferent change inside fun state =>
        (.ok (.success (.bool true) 1, state) : Except OptionError (OptionEvaluation T × _)) := ok _
    exact required fun _ => take keeps modifiers found (ok _)
  | flag inactive active modifiers =>
    have found (value : OptionOccurrenceValue) : Indifferent change inside fun state =>
        (.ok (.success (.given active) 1, state) : Except OptionError (OptionEvaluation T × _)) := ok _
    exact required fun long => take keeps modifiers found (ok (absent inactive ("--".toList ++ long)))
  | stringOption modifiers =>
    have found (value : OptionOccurrenceValue) : Indifferent change inside (occurrenceText value : Evaluates T) := by
      cases value with
      | flag => exact error .mistokenized
      | value text =>
        cases text with
        | other => exact error .notUnicode
        | unicode text => exact ok (.success (.text text) 1)
    exact required fun long => take keeps modifiers found (ok _)
  | stringArgument modifiers =>
    constructor
    · intro state within
      rw [Options.evaluateOption, Options.evaluateOption]
      have same : (state.move change).positionals = state.positionals := rfl
      rw [same]
      cases state.positionals with
      | nil => rfl
      | cons value rest => cases value <;> rfl
    · intro state next evaluation within evaluated
      rw [Options.evaluateOption] at evaluated
      cases here : state.positionals with
      | nil =>
        rw [here] at evaluated
        cases evaluated
        exact within
      | cons value rest =>
        rw [here] at evaluated
        cases value with
        | other => cases evaluated
        | unicode text =>
          cases evaluated
          exact within

end Indifferent

/-! ## Tokens -/

/-- Tokens that are one occurrence of an option. -/
inductive ParserPlan.Occurrence (plan : ParserPlan) : List OsString → Text → OptionOccurrenceValue → Prop where
  | flag {token : OsString} {name : Text} (read : classify plan true token = .flag name) : Occurrence plan [token] name .flag
  | attached {token : OsString} {name value : Text} (read : classify plan true token = .attached name value) :
      Occurrence plan [token] name (.value (.unicode value))
  | separate {token : OsString} {name : Text} (read : classify plan true token = .separate name) (value : OsString) :
      Occurrence plan [token, value] name (.value value)

def ParserPlan.Positional (plan : ParserPlan) (token : OsString) : Prop := classify plan true token = .positional

/-- Tokens that end where one begins, and before which there is no terminator. Tokenization may have ended earlier. -/
inductive ParserPlan.Leading (plan : ParserPlan) : List OsString → Prop where
  | nil : Leading plan []
  | occurrence {tokens rest : List OsString} {name : Text} {value : OptionOccurrenceValue}
      (occurrence : plan.Occurrence tokens name value) (leading : Leading plan rest) : Leading plan (tokens ++ rest)
  | positional {token : OsString} {rest : List OsString} (positional : plan.Positional token) (leading : Leading plan rest) :
      Leading plan (token :: rest)
  | help {token : OsString} (read : classify plan true token = .help) (rest : List OsString) : Leading plan (token :: rest)
  | invalid {token : OsString} {error : OptionError} (read : classify plan true token = .invalid error) (rest : List OsString) :
      Leading plan (token :: rest)

def TokenizedOptions.move (change : ℕ → ℕ) : TokenizedOptions → TokenizedOptions
  | .state state => .state (state.move change)
  | .help => .help

def TokenizedOptions.Within (inside : ℕ → Prop) : TokenizedOptions → Prop
  | .state state => state.options.Within inside
  | .help => True

section Tokens

variable {plan : ParserPlan} {tokens : List OsString} {name : Text} {value : OptionOccurrenceValue} {index : ℕ}

theorem tokenize_occurrence (occurrence : plan.Occurrence tokens name value) (index : ℕ) (state : OptionParseState)
    (rest : List OsString) : tokenizeWithPlan plan true index state (tokens ++ rest) =
      tokenizeWithPlan plan true (index + tokens.length) (state.push name ⟨index, value⟩) rest := by
  cases occurrence with
  | flag read =>
    rw [List.singleton_append, tokenizeWithPlan.eq_def]
    simp only [read]
    rfl
  | attached read =>
    rw [List.singleton_append, tokenizeWithPlan.eq_def]
    simp only [read]
    rfl
  | separate read value =>
    rw [List.cons_append, List.singleton_append, tokenizeWithPlan.eq_def]
    simp only [read]
    rfl

theorem tokenize_positional {token : OsString} (positional : plan.Positional token) (index : ℕ) (state : OptionParseState)
    (rest : List OsString) : tokenizeWithPlan plan true index state (token :: rest) =
      tokenizeWithPlan plan true (index + 1) (state.pushPositional token) rest := by
  rw [tokenizeWithPlan.eq_def]
  simp only [show classify plan true token = .positional from positional]

theorem pushState_move (state : OptionParseState) (occurrence : OptionOccurrence) :
    (state.move change).push name (occurrence.move change) = (state.push name occurrence).move change := by
  rw [OptionParseState.push, OptionParseState.push, OptionParseState.move, OptionParseState.move, push_move]

/-- An occurrence behind what was moved. -/
theorem pushState_fixed (state : OptionParseState) (fixed : change index = index) (value : OptionOccurrenceValue) :
    (state.move change).push name ⟨index, value⟩ = (state.push name ⟨index, value⟩).move change := by
  have same : (⟨index, value⟩ : OptionOccurrence).move change = ⟨index, value⟩ := by rw [OptionOccurrence.move, fixed]
  rw [← pushState_move, same]

/-- Tokens behind what was moved are taken as before. -/
theorem tokenize_move (mode : Bool) : (tokens : List OsString) → (index : ℕ) → (state : OptionParseState) →
    (∀ position, index ≤ position → change position = position) →
    tokenizeWithPlan plan mode index (state.move change) tokens =
      (tokenizeWithPlan plan mode index state tokens).map (TokenizedOptions.move change)
  | [], _, _, _ => rfl
  | token :: rest, index, state, fixed => by
    have later : ∀ position, index + 1 ≤ position → change position = position := fun position le => fixed position (by omega)
    rw [tokenizeWithPlan.eq_def, tokenizeWithPlan.eq_def plan mode index state]
    dsimp only
    cases classify plan mode token with
    | terminator => exact tokenize_move false rest (index + 1) state later
    | help => rfl
    | invalid error => rfl
    | flag name =>
      simp only [pushState_fixed state (fixed index (Nat.le_refl _))]
      exact tokenize_move mode rest (index + 1) _ later
    | attached name value =>
      simp only [pushState_fixed state (fixed index (Nat.le_refl _))]
      exact tokenize_move mode rest (index + 1) _ later
    | separate name =>
      match rest with
      | [] => rfl
      | value :: rest =>
        simp only [pushState_fixed state (fixed index (Nat.le_refl _))]
        exact tokenize_move mode rest (index + 2) _ fun position le => fixed position (by omega)
    | positional => exact tokenize_move mode rest (index + 1) (state.pushPositional token) later
termination_by tokens => tokens.length

theorem tokenize_within (mode : Bool) : (tokens : List OsString) → (index : ℕ) → (state : OptionParseState) →
    state.options.Within inside → (∀ position, index ≤ position → inside position) → (result : TokenizedOptions) →
    tokenizeWithPlan plan mode index state tokens = .ok result → result.Within inside
  | [], _, state, within, _, result, tokenized => by
    cases tokenized
    exact within
  | token :: rest, index, state, within, new, result, tokenized => by
    have later : ∀ position, index + 1 ≤ position → inside position := fun position le => new position (by omega)
    rw [tokenizeWithPlan.eq_def] at tokenized
    cases read : classify plan mode token with
    | terminator =>
      simp only [read] at tokenized
      exact tokenize_within false rest (index + 1) state within later result tokenized
    | help =>
      simp only [read] at tokenized
      cases tokenized
      exact trivial
    | invalid error =>
      simp only [read] at tokenized
      cases tokenized
    | flag name =>
      simp only [read] at tokenized
      exact tokenize_within mode rest (index + 1) _ (within.push (new index (Nat.le_refl _))) later result tokenized
    | attached name value =>
      simp only [read] at tokenized
      exact tokenize_within mode rest (index + 1) _ (within.push (new index (Nat.le_refl _))) later result tokenized
    | separate name =>
      simp only [read] at tokenized
      cases rest with
      | nil => cases tokenized
      | cons value rest =>
        exact tokenize_within mode rest (index + 2) _ (within.push (new index (Nat.le_refl _)))
          (fun position le => new position (by omega)) result tokenized
    | positional =>
      simp only [read] at tokenized
      exact tokenize_within mode rest (index + 1) (state.pushPositional token) within later result tokenized
termination_by tokens => tokens.length

end Tokens

/-! ## Two orders -/

/-- The second result has the occurrences of the first at positions of the same order. -/
def Alike (first second : Except OptionError TokenizedOptions) : Prop :=
  ∃ change inside, Keeps change inside ∧ second = first.map (TokenizedOptions.move change) ∧
    ∀ result, first = .ok result → result.Within inside

section Swapped

variable {plan : ParserPlan} {tokens before : List OsString} {positional : OsString} {name : Text} {value : OptionOccurrenceValue}

/-- The position behind the one of a token takes its place. -/
def shift (place position : ℕ) : ℕ := if position = place then place + 1 else position

theorem shift_keeps (place : ℕ) : Keeps (shift place) (· ≠ place + 1) := by
  intro first second _ _
  unfold shift
  split <;> split <;> omega

theorem swap_here (occurrence : plan.Occurrence tokens name value) (isPositional : plan.Positional positional) {index : ℕ}
    {state : OptionParseState} (earlier : state.options.Within (· < index)) (after : List OsString) :
    Alike (tokenizeWithPlan plan true index state (tokens ++ positional :: after))
      (tokenizeWithPlan plan true index state (positional :: (tokens ++ after))) := by
  have some_ : 0 < tokens.length := by cases occurrence <;> simp
  have still : (state.pushPositional positional).move (shift index) = state.pushPositional positional := by
    have same : Occurrences.move (shift index) state.options = state.options := move_eq_self fun entry member occurrence there => by
      have before := earlier entry member occurrence there
      exact if_neg (by omega)
    rw [OptionParseState.move, OptionParseState.pushPositional, same]
  have pushed : (state.pushPositional positional).push name ⟨index + 1, value⟩ =
      ((state.push name ⟨index, value⟩).pushPositional positional).move (shift index) := by
    have moved : (⟨index, value⟩ : OptionOccurrence).move (shift index) = ⟨index + 1, value⟩ := by
      rw [OptionOccurrence.move, shift, if_pos rfl]
    conv_lhs => rw [← still, ← moved, pushState_move]
    rfl
  rw [tokenize_occurrence occurrence, tokenize_positional isPositional, tokenize_positional isPositional, tokenize_occurrence occurrence,
    pushed, Nat.add_right_comm]
  refine ⟨shift index, (· ≠ index + 1), shift_keeps index, ?_, ?_⟩
  · exact tokenize_move true after _ _ fun position le => if_neg (by omega)
  · intro result tokenized
    refine tokenize_within true after _ _ ?_ (fun position le => by omega) result tokenized
    refine Occurrences.Within.push (fun entry member occurrence there => ?_) (by simp)
    have before := earlier entry member occurrence there
    omega

/-- What comes before does not matter, unless tokenization ends there. -/
theorem swap_leading (occurrence : plan.Occurrence tokens name value) (isPositional : plan.Positional positional)
    (leading : plan.Leading before) {index : ℕ} {state : OptionParseState} (earlier : state.options.Within (· < index))
    (after : List OsString) : Alike (tokenizeWithPlan plan true index state (before ++ (tokens ++ positional :: after)))
      (tokenizeWithPlan plan true index state (before ++ positional :: (tokens ++ after))) := by
  induction leading generalizing index state with
  | nil => exact swap_here occurrence isPositional earlier after
  | @occurrence chunk rest other read here _ ih =>
    rw [List.append_assoc, List.append_assoc, tokenize_occurrence here, tokenize_occurrence here]
    have some_ : 0 < chunk.length := by cases here <;> simp
    refine ih (Occurrences.Within.push (fun entry member occurrence there => ?_) (by simpa using some_))
    exact Nat.lt_of_lt_of_le (earlier entry member occurrence there) (Nat.le_add_right ..)
  | positional here _ ih =>
    rw [List.cons_append, List.cons_append, tokenize_positional here, tokenize_positional here]
    exact ih fun entry member occurrence there => Nat.lt_succ_of_lt (earlier entry member occurrence there)
  | help read rest =>
    rw [List.cons_append, List.cons_append, tokenizeWithPlan.eq_def, tokenizeWithPlan.eq_def]
    simp only [read]
    exact ⟨id, fun _ => True, fun _ _ _ _ => Iff.rfl, rfl, fun _ same => by cases same; trivial⟩
  | invalid read rest =>
    rw [List.cons_append, List.cons_append, tokenizeWithPlan.eq_def, tokenizeWithPlan.eq_def]
    simp only [read]
    exact ⟨id, fun _ => True, fun _ _ _ _ => Iff.rfl, rfl, nofun⟩

end Swapped

theorem ensureNoOptionLeftovers_move (state : OptionParseState) :
    ensureNoOptionLeftovers (state.move change) = ensureNoOptionLeftovers state := by
  have found : (state.move change).options.find? (fun (_, occurrences) => !occurrences.isEmpty) =
      (state.options.find? fun (_, occurrences) => !occurrences.isEmpty).map
        fun (name, occurrences) => (name, occurrences.map (OptionOccurrence.move change)) := by
    rw [OptionParseState.move, Occurrences.move, List.find?_map]
    simp [Function.comp_def]
  rw [ensureNoOptionLeftovers, ensureNoOptionLeftovers, found]
  cases state.options.find? fun (_, occurrences) => !occurrences.isEmpty <;> rfl

/-- An occurrence of an option can be moved past a positional argument. -/
structure ParserPlan.Moves (plan : ParserPlan) (before tokens : List OsString) (positional : OsString) : Prop where
  leading : plan.Leading before
  occurrence : ∃ name value, plan.Occurrence tokens name value
  positional : plan.Positional positional

/-- The outcome is the same on both sides of a positional argument. -/
theorem option_order (parser : OptionParser T) {before tokens : List OsString} {positional : OsString} (after : List OsString)
    (moves : ∀ plan, compileOptionPlan parser ⟨[], 0⟩ = .ok plan → plan.Moves before tokens positional) :
    execParser parser (before ++ (tokens ++ positional :: after)) = execParser parser (before ++ positional :: (tokens ++ after)) := by
  rw [execParser, execParser]
  cases planned : compileOptionPlan parser ⟨[], 0⟩ with
  | error => rfl
  | ok plan =>
    obtain ⟨leading, ⟨name, value, occurrence⟩, isPositional⟩ := moves plan planned
    have alike : Alike (tokenizeWithPlan plan true 0 ⟨[], []⟩ (before ++ (tokens ++ positional :: after)))
        (tokenizeWithPlan plan true 0 ⟨[], []⟩ (before ++ positional :: (tokens ++ after))) :=
      swap_leading occurrence isPositional leading (fun _ member => by cases member) after
    obtain ⟨change, inside, keeps, same, within⟩ := alike
    change ((tokenizeWithPlan plan true 0 ⟨[], []⟩ _) >>= _) = ((tokenizeWithPlan plan true 0 ⟨[], []⟩ _) >>= _)
    rw [same]
    cases tokenized : tokenizeWithPlan plan true 0 ⟨[], []⟩ (before ++ (tokens ++ positional :: after)) with
    | error => rfl
    | ok result =>
      cases result with
      | help => rfl
      | state state =>
        have inside_ : state.options.Within inside := within _ tokenized
        change (evaluateOption parser state >>= _) = (evaluateOption parser (state.move change) >>= _)
        rw [(Indifferent.evaluateOption keeps parser).same inside_]
        cases evaluateOption parser state with
        | error => rfl
        | ok result =>
          obtain ⟨evaluation, state⟩ := result
          cases evaluation with
          | missing => rfl
          | success value =>
            change (ensureNoOptionLeftovers state >>= _) = (ensureNoOptionLeftovers (state.move change) >>= _)
            rw [ensureNoOptionLeftovers_move]

/-- A named value behind the argument. -/
theorem option_order_named :
    execParser (.apply (.stringOption [.long "name".toList]) (.stringArgument []) false : OptionParser Unit)
        [.unicode "--name".toList, .unicode "v".toList, .unicode "x".toList] =
      execParser (.apply (.stringOption [.long "name".toList]) (.stringArgument []) false)
        [.unicode "x".toList, .unicode "--name".toList, .unicode "v".toList] := by
  refine @option_order Unit (.apply (.stringOption [.long "name".toList]) (.stringArgument []) false) []
    [.unicode "--name".toList, .unicode "v".toList] (.unicode "x".toList) [] ?_
  intro plan planned
  have same : plan = ⟨[("name".toList, .value)], 0⟩ := (Except.ok.inj planned).symm
  subst same
  exact ⟨.nil, ⟨"name".toList, .value (.unicode "v".toList), .separate rfl _⟩, rfl⟩

/-! ## Termination -/

theorem size_popOccurrence {name : Text} {options : Occurrences} {occurrence : OptionOccurrence}
    (front : (options.lookup name).bind List.head? = some occurrence) (positionals : List OsString) :
    (OptionParseState.mk (popOccurrence name options) positionals).size + 1 = (OptionParseState.mk options positionals).size := by
  induction options with
  | nil => cases front
  | cons entry options ih =>
    obtain ⟨other, occurrences⟩ := entry
    rw [List.lookup_cons] at front
    by_cases same : other = name
    · subst same
      rw [beq_self_eq_true] at front
      cases occurrences with
      | nil => cases front
      | cons first rest =>
        simp only [OptionParseState.size, popOccurrence, ↓reduceIte, List.map_cons, List.sum_cons, List.tail_cons, List.length_cons]
        omega
    · have different : (name == other) = false := beq_eq_false_iff_ne.mpr (Ne.symm same)
      rw [different] at front
      have rest := ih front
      simp only [OptionParseState.size, popOccurrence, same, ↓reduceIte, List.map_cons, List.sum_cons] at rest ⊢
      omega

theorem takeOptionOccurrence_size {state next : OptionParseState} {modifiers : OptionModifiers T} {occurrence : OptionOccurrence}
    (taken : takeOptionOccurrence state modifiers = some (occurrence, next)) : next.size + 1 = state.size := by
  simp only [takeOptionOccurrence, Option.bind_eq_bind, Option.bind_eq_some_iff] at taken
  obtain ⟨⟨position, long⟩, -, first, front, same⟩ := taken
  cases same
  exact size_popOccurrence (Option.bind_eq_some_iff.mpr front) state.positionals

/-- An evaluation takes as much as it says, and its loops do not run out of fuel. -/
structure Counts (evaluate : Evaluates T) : Prop where
  never (state : OptionParseState) : evaluate state ≠ .error .exhausted
  size {state next : OptionParseState} {evaluation : OptionEvaluation T} (evaluated : evaluate state = .ok (evaluation, next)) :
    next.size + evaluation.consumed = state.size

namespace Counts

variable {evaluate : Evaluates T}

/-- Each item of `many` takes something, so that there is fuel for the next one. -/
theorem manyLoop (counts : Counts evaluate) (fuel : ℕ) (values : List (Result T)) (consumed : ℕ) (state : OptionParseState)
    (enough : state.size < fuel) : Options.manyLoop evaluate fuel values consumed state ≠ .error .exhausted ∧
      ∀ evaluation next, Options.manyLoop evaluate fuel values consumed state = .ok (evaluation, next) →
        next.size + evaluation.consumed = state.size + consumed := by
  induction fuel generalizing values consumed state with
  | zero => omega
  | succ fuel ih =>
    rw [Options.manyLoop]
    cases evaluated : evaluate state with
    | error reason =>
      refine ⟨fun same => ?_, nofun⟩
      cases same
      exact counts.never state evaluated
    | ok result =>
      obtain ⟨evaluation, next⟩ := result
      simp only [bind, Except.bind]
      cases evaluation with
      | success value itemConsumed =>
        have taken : next.size + itemConsumed = state.size := counts.size evaluated
        by_cases unproductive : itemConsumed = 0
        · simp only [unproductive, ↓reduceIte]
          exact ⟨nofun, nofun⟩
        · simp only [unproductive, ↓reduceIte]
          obtain ⟨never, size⟩ := ih (values ++ [value]) (consumed + itemConsumed) next (by omega)
          refine ⟨never, fun evaluation last looped => ?_⟩
          have total := size evaluation last looped
          omega
      | missing expected itemConsumed =>
        have taken : next.size + itemConsumed = state.size := counts.size evaluated
        by_cases unproductive : itemConsumed = 0
        · simp only [unproductive, ↓reduceIte]
          refine ⟨nofun, fun evaluation last same => ?_⟩
          cases same
          change next.size + consumed = _
          omega
        · simp only [unproductive, ↓reduceIte]
          refine ⟨nofun, fun evaluation last same => ?_⟩
          cases same
          change next.size + (consumed + itemConsumed) = _
          omega

variable {first second : Evaluates T}

theorem ok {evaluation : OptionEvaluation T} (nothing : evaluation.consumed = 0) :
    Counts fun state => .ok (evaluation, state) where
  never _ := nofun
  size evaluated := by
    cases evaluated
    rw [nothing, Nat.add_zero]

theorem error {reason : OptionError} (other : reason ≠ .exhausted) : Counts (T := T) fun _ => .error reason where
  never _ same := other (Except.error.inj same)
  size evaluated := nomatch evaluated

theorem map (counts : Counts evaluate) {change : OptionEvaluation T → OptionEvaluation T}
    (same : ∀ evaluation, (change evaluation).consumed = evaluation.consumed) :
    Counts fun state => (evaluate state).bind fun result => .ok (change result.1, result.2) where
  never state exhausted := by
    cases evaluated : evaluate state with
    | ok result =>
      rw [evaluated] at exhausted
      cases exhausted
    | error reason =>
      rw [evaluated] at exhausted
      cases exhausted
      exact counts.never state evaluated
  size {state next evaluation} mapped := by
    cases evaluated : evaluate state with
    | error reason =>
      rw [evaluated] at mapped
      cases mapped
    | ok result =>
      rw [evaluated] at mapped
      cases mapped
      rw [same]
      exact counts.size evaluated

theorem consumed_applyEvaluations (flipped : Bool) (evaluation evaluation' : OptionEvaluation T) :
    (applyEvaluations flipped evaluation evaluation').consumed = evaluation.consumed + evaluation'.consumed := by
  cases evaluation <;> cases evaluation' <;> rfl

theorem both (counts : Counts first) (counts' : Counts second) (flipped : Bool) :
    Counts fun state => (first state).bind fun result => (second result.2).bind fun result' =>
      .ok (applyEvaluations flipped result.1 result'.1, result'.2) where
  never state exhausted := by
    cases evaluated : first state with
    | error reason =>
      rw [evaluated] at exhausted
      cases exhausted
      exact counts.never state evaluated
    | ok result =>
      rw [evaluated] at exhausted
      change (second result.2).bind _ = _ at exhausted
      cases evaluated' : second result.2 with
      | error reason =>
        rw [evaluated'] at exhausted
        cases exhausted
        exact counts'.never result.2 evaluated'
      | ok result' =>
        rw [evaluated'] at exhausted
        cases exhausted
  size {state next evaluation} applied := by
    cases evaluated : first state with
    | error reason =>
      rw [evaluated] at applied
      cases applied
    | ok result =>
      rw [evaluated] at applied
      change (second result.2).bind _ = _ at applied
      cases evaluated' : second result.2 with
      | error reason =>
        rw [evaluated'] at applied
        cases applied
      | ok result' =>
        rw [evaluated'] at applied
        cases applied
        have taken := counts.size evaluated
        have taken' := counts'.size evaluated'
        rw [consumed_applyEvaluations]
        omega

theorem required {modifiers : OptionModifiers T} {evaluate : Text → Evaluates T} (counts : ∀ long, Counts (evaluate long)) :
    Counts fun state => (requiredLong modifiers).bind fun long => evaluate long state := by
  have other (reason : OptionError) (failed : requiredLong modifiers = .error reason) : reason ≠ .exhausted := by
    intro same
    rw [same, requiredLong] at failed
    split at failed <;> cases failed
  revert other
  cases requiredLong modifiers with
  | ok long => exact fun _ => counts long
  | error reason => exact fun other => error (other reason rfl)

/-- A result that counts the occurrence it was made of. -/
def Takes (found : OptionOccurrenceValue → Evaluates T) : Prop :=
  ∀ value state, found value state ≠ .error .exhausted ∧
    ∀ evaluation next, found value state = .ok (evaluation, next) → next = state ∧ evaluation.consumed = 1

theorem given (result : Result T) : Takes fun _ state => .ok (.success result 1, state) := by
  intro value state
  refine ⟨nofun, fun evaluation next same => ?_⟩
  cases same
  exact ⟨rfl, rfl⟩

/-- An option with an occurrence consumes it. -/
theorem take (modifiers : OptionModifiers T) {found : OptionOccurrenceValue → Evaluates T} {missing : Evaluates T}
    (taken : Takes found) (other : Counts missing) : Counts fun state =>
      match takeOptionOccurrence state modifiers with
      | some (occurrence, state) => found occurrence.value state
      | none => missing state where
  never state exhausted := by
    cases here : takeOptionOccurrence state modifiers with
    | none =>
      rw [here] at exhausted
      exact other.never state exhausted
    | some entry =>
      rw [here] at exhausted
      exact (taken _ _).1 exhausted
  size {state next evaluation} evaluated := by
    cases here : takeOptionOccurrence state modifiers with
    | none =>
      rw [here] at evaluated
      exact other.size evaluated
    | some entry =>
      rw [here] at evaluated
      obtain ⟨rfl, one⟩ := (taken _ _).2 _ _ evaluated
      rw [one]
      exact takeOptionOccurrence_size here

theorem consumed_absent (default_ : Option T) (expected : Text) : (absent default_ expected).consumed = 0 := by
  cases default_ <;> rfl

theorem evaluateOption (parser : OptionParser T) : Counts (evaluateOption parser) := by
  induction parser with
  | pure value => exact ok rfl
  | helper => exact ok rfl
  | map function parser ih => exact ih.map fun evaluation => by cases evaluation <;> rfl
  | apply function argument flipped counts counts' =>
    cases flipped with
    | false => exact counts.both counts' false
    | true => exact counts'.both counts true
  | optional parser ih =>
    refine ih.map fun evaluation => ?_
    cases evaluation with
    | success => rfl
    | missing expected consumed => cases consumed <;> rfl
  | many parser ih =>
    have loop (state : OptionParseState) := ih.manyLoop (state.size + 1) [] 0 state (Nat.lt_succ_self _)
    exact ⟨fun state => (loop state).1, fun {state next evaluation} evaluated => (loop state).2 evaluation next evaluated⟩
  | switch modifiers =>
    exact required fun long => take modifiers (given (.bool true)) (ok rfl)
  | flag inactive active modifiers =>
    exact required fun long => take modifiers (given (.given active)) (ok (consumed_absent inactive _))
  | stringOption modifiers =>
    have found : @Takes T occurrenceText := by
      intro value state
      cases value with
      | flag => exact ⟨nofun, nofun⟩
      | value text =>
        cases text with
        | other => exact ⟨nofun, nofun⟩
        | unicode text => exact given (.text text) (.value (.unicode text)) state
    exact required fun long => take modifiers found (ok (consumed_absent (modifierDefault modifiers) _))
  | stringArgument modifiers =>
    constructor
    · intro state exhausted
      rw [Options.evaluateOption] at exhausted
      cases here : state.positionals with
      | nil =>
        rw [here] at exhausted
        cases exhausted
      | cons token rest =>
        rw [here] at exhausted
        cases token <;> cases exhausted
    · intro state next evaluation evaluated
      rw [Options.evaluateOption] at evaluated
      cases here : state.positionals with
      | nil =>
        rw [here] at evaluated
        cases evaluated
        rw [consumed_absent, Nat.add_zero]
      | cons token rest =>
        rw [here] at evaluated
        cases token with
        | other => cases evaluated
        | unicode text =>
          cases evaluated
          simp only [OptionParseState.size, OptionEvaluation.consumed, here, List.length_cons]
          omega

end Counts

theorem planOption_ne_exhausted (longs : List Text) (kind : PlannedOptionKind) (plan : ParserPlan) :
    planOption longs kind plan ≠ .error .exhausted := by
  rw [planOption]
  induction longs.eraseDups generalizing plan with
  | nil => exact nofun
  | cons long longs ih =>
    rw [List.foldlM_cons]
    split
    · exact nofun
    · exact ih _

theorem compileOptionPlan_ne_exhausted (parser : OptionParser T) (plan : ParserPlan) :
    compileOptionPlan parser plan ≠ .error .exhausted := by
  induction parser generalizing plan with
  | pure | stringArgument | helper => exact nofun
  | map _ parser ih | optional parser ih | many parser ih => exact ih plan
  | switch modifiers | flag _ _ modifiers => exact planOption_ne_exhausted _ .flag plan
  | stringOption modifiers => exact planOption_ne_exhausted _ .value plan
  | apply function argument flipped first second =>
    have both {one other : OptionParser T} (never : ∀ plan, compileOptionPlan one plan ≠ .error .exhausted)
        (never' : ∀ plan, compileOptionPlan other plan ≠ .error .exhausted) :
        (compileOptionPlan one plan).bind (compileOptionPlan other) ≠ .error .exhausted := by
      intro exhausted
      cases compiled : compileOptionPlan one plan with
      | error reason =>
        rw [compiled] at exhausted
        cases exhausted
        exact never plan compiled
      | ok plan' =>
        rw [compiled] at exhausted
        exact never' plan' exhausted
    cases flipped with
    | false => exact both first second
    | true => exact both second first

theorem classify_ne_exhausted (plan : ParserPlan) (mode : Bool) (token : OsString) :
    classify plan mode token ≠ .invalid .exhausted := by
  intro read
  unfold classify at read
  cases token with
  | other => cases read
  | unicode text =>
    dsimp only at read
    repeat' split at read
    all_goals cases read

theorem tokenizeWithPlan_ne_exhausted (plan : ParserPlan) (mode : Bool) (index : ℕ) (state : OptionParseState) (tokens : List OsString) :
    tokenizeWithPlan plan mode index state tokens ≠ .error .exhausted := by
  fun_induction tokenizeWithPlan plan mode index state tokens with
  | case1 => exact nofun
  | case3 => exact nofun
  | case4 mode index state token rest reason read =>
    intro same
    cases same
    exact classify_ne_exhausted plan mode token read
  | case7 => exact nofun
  | case2 | case5 | case6 | case8 | case9 => assumption

/-- The loops of `many` have fuel enough for all occurrences and positional arguments. -/
theorem execParser_ne_exhausted (parser : OptionParser T) (arguments : List OsString) :
    execParser parser arguments ≠ .error .exhausted := by
  intro exhausted
  rw [execParser] at exhausted
  cases planned : compileOptionPlan parser ⟨[], 0⟩ with
  | error reason =>
    rw [planned] at exhausted
    cases exhausted
    exact compileOptionPlan_ne_exhausted parser _ planned
  | ok plan =>
    rw [planned] at exhausted
    change (tokenizeWithPlan plan true 0 ⟨[], []⟩ arguments).bind _ = _ at exhausted
    cases tokenized : tokenizeWithPlan plan true 0 ⟨[], []⟩ arguments with
    | error reason =>
      rw [tokenized] at exhausted
      cases exhausted
      exact tokenizeWithPlan_ne_exhausted _ _ _ _ _ tokenized
    | ok result =>
      rw [tokenized] at exhausted
      cases result with
      | help => cases exhausted
      | state state =>
        change (evaluateOption parser state).bind _ = _ at exhausted
        cases evaluated : evaluateOption parser state with
        | error reason =>
          rw [evaluated] at exhausted
          cases exhausted
          exact (Counts.evaluateOption parser).never state evaluated
        | ok result =>
          obtain ⟨evaluation, last⟩ := result
          rw [evaluated] at exhausted
          cases evaluation with
          | missing => cases exhausted
          | success value =>
            change (ensureNoOptionLeftovers last).bind _ = _ at exhausted
            have leftovers : ensureNoOptionLeftovers last ≠ .error .exhausted := by
              rw [ensureNoOptionLeftovers]
              split
              · exact nofun
              · split <;> exact nofun
            cases left : ensureNoOptionLeftovers last with
            | error reason =>
              rw [left] at exhausted
              cases exhausted
              exact leftovers left
            | ok =>
              rw [left] at exhausted
              cases exhausted

end HellRs.Options
