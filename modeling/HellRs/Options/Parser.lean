import HellRs.Lib.Trim

/-! # Option parsers

`execParser` cuts the arguments into occurrences of options and positional arguments, and evaluates the parser on them. The
parser here has no subcommands. The ordered maps are lists of pairs in the order of their names, and a text is the list of its
characters. An error says which message it is and what it names; the usage text behind the message is left out.
-/

namespace HellRs.Options

abbrev Text := List Char

/-- `OsString`: a text, or bytes that are not Unicode. -/
inductive OsString where
  | unicode (text : Text)
  | other (bytes : List UInt8)
deriving DecidableEq

inductive OptionModifier (T : Type) where
  | long (name : Text)
  | metavar (name : Text)
  | help (text : Text)
  | default_ (value : T)

variable {T : Type}

abbrev OptionModifiers (T : Type) := List (OptionModifier T)

def modifierLongs (modifiers : OptionModifiers T) : List Text :=
  modifiers.filterMap fun
    | .long name => some name
    | .metavar _ | .help _ | .default_ _ => none

def modifierLong (modifiers : OptionModifiers T) : Option Text := (modifierLongs modifiers).head?

/-- The last default. -/
def modifierDefault (modifiers : OptionModifiers T) : Option T :=
  modifiers.reverse.findSome? fun
    | .default_ value => some value
    | .long _ | .metavar _ | .help _ => none

def argumentMetavar (modifiers : OptionModifiers T) : Text :=
  (modifiers.reverse.findSome? fun
    | .metavar name => some name
    | .long _ | .help _ | .default_ _ => none).getD "ARG".toList

/-- `OptionParser`. The thunks of the program are of the type `T`. -/
inductive OptionParser (T : Type) where
  | pure (value : T)
  | helper
  | map (function : T) (parser : OptionParser T)
  | apply (function argument : OptionParser T) (flipped : Bool)
  | optional (parser : OptionParser T)
  | many (parser : OptionParser T)
  | switch (modifiers : OptionModifiers T)
  | flag (inactive : Option T) (active : T) (modifiers : OptionModifiers T)
  | stringOption (modifiers : OptionModifiers T)
  | stringArgument (modifiers : OptionModifiers T)

/-- The thunks that an evaluation returns. -/
inductive Result (T : Type) where
  | given (thunk : T)
  /-- The function `Function.id`. -/
  | identity
  | text (text : Text)
  | bool (value : Bool)
  | nothing
  | just (value : Result T)
  | list (values : List (Result T))
  | apply (function argument : Result T)

inductive OptionError where
  /-- An option is declared more than once. -/
  | ambiguous (long : Text)
  | invalidLong (name : Text)
  | invalidShort (token : Text)
  | expectsArgument (name : Text)
  | invalidArgument (token : OsString)
  | missing (expected : List Text)
  | missingLong
  | notUnicode
  /-- A value option was tokenized as a flag. -/
  | mistokenized
  /-- `many` of a parser that consumes nothing, which waits until it is cancelled. -/
  | nonproductive
  /-- The loop of `many` has no fuel left. -/
  | exhausted
deriving DecidableEq

/-! ## Plans -/

inductive PlannedOptionKind where
  | flag
  | value
deriving DecidableEq

structure ParserPlan where
  options : List (Text × PlannedOptionKind)
  helperCount : ℕ

def planOption (longs : List Text) (kind : PlannedOptionKind) (plan : ParserPlan) : Except OptionError ParserPlan :=
  longs.eraseDups.foldlM (fun plan long =>
    if (plan.options.lookup long).isSome then .error (.ambiguous long)
    else .ok { plan with options := plan.options ++ [(long, kind)] }) plan

def compileOptionPlan : OptionParser T → ParserPlan → Except OptionError ParserPlan
  | .pure _, plan | .stringArgument _, plan => .ok plan
  | .helper, plan => .ok { plan with helperCount := plan.helperCount + 1 }
  | .map _ parser, plan | .optional parser, plan | .many parser, plan => compileOptionPlan parser plan
  | .apply function argument flipped, plan =>
    if flipped then do compileOptionPlan function (← compileOptionPlan argument plan)
    else do compileOptionPlan argument (← compileOptionPlan function plan)
  | .switch modifiers, plan | .flag _ _ modifiers, plan => planOption (modifierLongs modifiers) .flag plan
  | .stringOption modifiers, plan => planOption (modifierLongs modifiers) .value plan

/-! ## Tokens -/

inductive OptionOccurrenceValue where
  | flag
  | value (text : OsString)
deriving DecidableEq

structure OptionOccurrence where
  position : ℕ
  value : OptionOccurrenceValue
deriving DecidableEq

abbrev Occurrences := List (Text × List OptionOccurrence)

structure OptionParseState where
  options : Occurrences
  positionals : List OsString
deriving DecidableEq

/-- `entry(name).or_default().push_back(occurrence)`. -/
def pushOccurrence (name : Text) (occurrence : OptionOccurrence) : Occurrences → Occurrences
  | [] => [(name, [occurrence])]
  | (other, occurrences) :: rest =>
    if other = name then (other, occurrences ++ [occurrence]) :: rest
    else if name < other then (name, [occurrence]) :: (other, occurrences) :: rest
    else (other, occurrences) :: pushOccurrence name occurrence rest

namespace OptionParseState

def push (name : Text) (occurrence : OptionOccurrence) (state : OptionParseState) : OptionParseState :=
  { state with options := pushOccurrence name occurrence state.options }

def pushPositional (token : OsString) (state : OptionParseState) : OptionParseState :=
  { state with positionals := state.positionals ++ [token] }

end OptionParseState

/-- How the loop takes a token. -/
inductive Reading where
  | terminator
  | help
  | invalid (error : OptionError)
  | flag (name : Text)
  | attached (name value : Text)
  /-- The value is the next token. -/
  | separate (name : Text)
  | positional

/-- The tests of the loop for one token. -/
def classify (plan : ParserPlan) (optionMode : Bool) (token : OsString) : Reading :=
  match token with
  | .other _ => .positional
  | .unicode text =>
    if optionMode then
      if text = "--".toList then .terminator
      else if 0 < plan.helperCount ∧ (text = "--help".toList ∨ text = "-h".toList) then .help
      else if "--".toList.isPrefixOf text then
        let longToken := text.drop 2
        let (name, attached) := match splitOnce '=' longToken with
          | none => (longToken, none)
          | some (name, value) => (name, some value)
        match plan.options.lookup name, attached with
        | none, _ => .invalid (.invalidLong name)
        | some .flag, some _ => .invalid (.invalidLong name)
        | some .flag, none => .flag name
        | some .value, some value => .attached name value
        | some .value, none => .separate name
      else if text.head? = some '-' ∧ text ≠ ['-'] then .invalid (.invalidShort text)
      else .positional
    else .positional

inductive TokenizedOptions where
  | state (state : OptionParseState)
  | help
deriving DecidableEq

/-- `tokenize_with_plan`, from the token at an index. -/
def tokenizeWithPlan (plan : ParserPlan) (optionMode : Bool) (index : ℕ) (state : OptionParseState) :
    List OsString → Except OptionError TokenizedOptions
  | [] => .ok (.state state)
  | token :: rest =>
    match classify plan optionMode token with
    | .terminator => tokenizeWithPlan plan false (index + 1) state rest
    | .help => .ok .help
    | .invalid error => .error error
    | .flag name => tokenizeWithPlan plan optionMode (index + 1) (state.push name ⟨index, .flag⟩) rest
    | .attached name value =>
      tokenizeWithPlan plan optionMode (index + 1) (state.push name ⟨index, .value (.unicode value)⟩) rest
    | .separate name =>
      match rest with
      | [] => .error (.expectsArgument name)
      | value :: rest => tokenizeWithPlan plan optionMode (index + 2) (state.push name ⟨index, .value value⟩) rest
    | .positional => tokenizeWithPlan plan optionMode (index + 1) (state.pushPositional token) rest

/-! ## Evaluation -/

inductive OptionEvaluation (T : Type) where
  | success (value : Result T) (consumed : ℕ)
  | missing (expected : List Text) (consumed : ℕ)

def OptionEvaluation.consumed : OptionEvaluation T → ℕ
  | .success _ consumed | .missing _ consumed => consumed

/-- The first of the names whose first occurrence is the earliest, with the position of it. -/
def earliest (options : Occurrences) : List Text → Option (ℕ × Text)
  | [] => none
  | long :: longs =>
    match (options.lookup long).bind List.head?, earliest options longs with
    | none, later => later
    | some occurrence, none => some (occurrence.position, long)
    | some occurrence, some (position, other) =>
      if occurrence.position ≤ position then some (occurrence.position, long) else some (position, other)

/-- `get_mut(long)` and `pop_front`. -/
def popOccurrence (name : Text) : Occurrences → Occurrences
  | [] => []
  | (other, occurrences) :: rest =>
    if other = name then (other, occurrences.tail) :: rest else (other, occurrences) :: popOccurrence name rest

def takeOptionOccurrence (state : OptionParseState) (modifiers : OptionModifiers T) :
    Option (OptionOccurrence × OptionParseState) := do
  let (_, long) ← earliest state.options (modifierLongs modifiers)
  let occurrence ← (state.options.lookup long).bind List.head?
  return (occurrence, { state with options := popOccurrence long state.options })

def hostText : OsString → Except OptionError Text
  | .unicode text => .ok text
  | .other _ => .error .notUnicode

abbrev Evaluates (T : Type) := OptionParseState → Except OptionError (OptionEvaluation T × OptionParseState)

/-- The loop of `many`. -/
def manyLoop (evaluate : Evaluates T) : ℕ → List (Result T) → ℕ → Evaluates T
  | 0, _, _, _ => .error .exhausted
  | fuel + 1, values, consumed, state => do
    let (evaluation, state) ← evaluate state
    match evaluation with
    | .success value itemConsumed =>
      if itemConsumed = 0 then .error .nonproductive
      else manyLoop evaluate fuel (values ++ [value]) (consumed + itemConsumed) state
    | .missing expected itemConsumed =>
      if itemConsumed = 0 then return (.success (.list values) consumed, state)
      else return (.missing expected (consumed + itemConsumed), state)

def OptionEvaluation.optional : OptionEvaluation T → OptionEvaluation T
  | .success value consumed => .success (.just value) consumed
  | .missing expected consumed => if consumed = 0 then .success .nothing 0 else .missing expected consumed

def OptionEvaluation.map (function : T) : OptionEvaluation T → OptionEvaluation T
  | .success value consumed => .success (.apply (.given function) value) consumed
  | .missing expected consumed => .missing expected consumed

/-- The end of `evaluate_option_application`, and `option_missing_application`. -/
def applyEvaluations (flipped : Bool) : OptionEvaluation T → OptionEvaluation T → OptionEvaluation T
  | .success first consumed, .success second consumed' =>
    .success (if flipped then .apply second first else .apply first second) (consumed + consumed')
  | .success _ consumed, .missing expected consumed' => .missing expected (consumed + consumed')
  | .missing expected consumed, .success _ consumed' => .missing expected (consumed + consumed')
  | .missing expected consumed, .missing expected' consumed' => .missing (expected ++ expected') (consumed + consumed')

/-- How much there is to consume. -/
def OptionParseState.size (state : OptionParseState) : ℕ :=
  (state.options.map fun (_, occurrences) => occurrences.length).sum + state.positionals.length

def requiredLong (modifiers : OptionModifiers T) : Except OptionError Text :=
  match modifierLong modifiers with
  | none => .error .missingLong
  | some long => .ok long

/-- What an option or an argument is without an occurrence. -/
def absent (default_ : Option T) (expected : Text) : OptionEvaluation T :=
  match default_ with
  | some value => .success (.given value) 0
  | none => .missing [expected] 0

/-- What a value option makes of its occurrence. -/
def occurrenceText (value : OptionOccurrenceValue) : Evaluates T := fun state =>
  match value with
  | .value text => do return (.success (.text (← hostText text)) 1, state)
  | .flag => .error .mistokenized

def evaluateOption : OptionParser T → Evaluates T
  | .pure value, state => .ok (.success (.given value) 0, state)
  | .helper, state => .ok (.success .identity 0, state)
  | .map function parser, state => do
    let (evaluation, state) ← evaluateOption parser state
    return (evaluation.map function, state)
  | .apply function argument flipped, state => do
    let (first, state) ← if flipped then evaluateOption argument state else evaluateOption function state
    let (second, state) ← if flipped then evaluateOption function state else evaluateOption argument state
    return (applyEvaluations flipped first second, state)
  | .optional parser, state => do
    let (evaluation, state) ← evaluateOption parser state
    return (evaluation.optional, state)
  | .many parser, state => manyLoop (evaluateOption parser) (state.size + 1) [] 0 state
  | .switch modifiers, state => do
    let _ ← requiredLong modifiers
    match takeOptionOccurrence state modifiers with
    | some (_, state) => return (.success (.bool true) 1, state)
    | none => return (.success (.bool false) 0, state)
  | .flag inactive active modifiers, state => do
    let long ← requiredLong modifiers
    match takeOptionOccurrence state modifiers with
    | some (_, state) => return (.success (.given active) 1, state)
    | none => return (absent inactive ("--".toList ++ long), state)
  | .stringOption modifiers, state => do
    let long ← requiredLong modifiers
    match takeOptionOccurrence state modifiers with
    | some (occurrence, state) => occurrenceText occurrence.value state
    | none => return (absent (modifierDefault modifiers) ("--".toList ++ long ++ ' ' :: argumentMetavar modifiers), state)
  | .stringArgument modifiers, state =>
    match state.positionals with
    | value :: rest => do return (.success (.text (← hostText value)) 1, { state with positionals := rest })
    | [] => .ok (absent (modifierDefault modifiers) (argumentMetavar modifiers), state)

def ensureNoOptionLeftovers (state : OptionParseState) : Except OptionError Unit :=
  match state.options.find? fun (_, occurrences) => !occurrences.isEmpty with
  | some (long, _) => .error (.invalidLong long)
  | none =>
    match state.positionals with
    | unexpected :: _ => .error (.invalidArgument unexpected)
    | [] => .ok ()

/-- What `execParser` ends with. -/
inductive Outcome (T : Type) where
  | value (value : Result T)
  | help

/-- `option_exec`. -/
def execParser (parser : OptionParser T) (arguments : List OsString) : Except OptionError (Outcome T) := do
  let plan ← compileOptionPlan parser ⟨[], 0⟩
  match ← tokenizeWithPlan plan true 0 ⟨[], []⟩ arguments with
  | .help => return .help
  | .state state =>
    match ← evaluateOption parser state with
    | (.missing expected _, _) => .error (.missing expected)
    | (.success value _, state) => do
      ensureNoOptionLeftovers state
      return .value value

end HellRs.Options
