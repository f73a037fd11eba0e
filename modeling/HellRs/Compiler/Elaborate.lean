import HellRs.Builtins.Registry
import HellRs.Core.Program
import HellRs.Compiler.Cycles

/-! # Elaboration

The core term that inference builds for an expression, with every global inlined where it is named.
Types are left out: where inference of types fails there is no term, and where it succeeds the term is
this one without its types and layouts. The explicit work lists are recursion here; what a case infers
ahead of its alternatives is kept in a queue for each of them.
-/

namespace HellRs.Compiler

open Syntax Core

inductive CoreTerm where
  | boundVar (deBruijn : ℕ) (projection : Projection)
  | lambda (body : CoreTerm)
  | apply (function argument : CoreTerm)
  | constant (value : Literal)
  | builtin (name : String)
  | tuple (elements : List CoreTerm)
  | list (elements : List CoreTerm)
  | record (constructor : String) (fields : List CoreTerm)
  | recordGet (field : String) (record : CoreTerm)
  | recordSet (field : String) (value record : CoreTerm)
  | recordModify (field : String) (function record : CoreTerm)
  | variant (typeIndex constructorIndex : ℕ) (payload : Option CoreTerm)
  | case (scrutinee : CoreTerm) (branches : List (ℕ × CoreTerm)) (fallback : Option CoreTerm)

inductive Failure where
  /-- The elaboration has not ended. -/
  | outOfFuel
  | diagnostic (diagnostic : Diagnostic)
deriving DecidableEq, Repr

abbrev Elab (α : Type) := Except Failure α

def fail {α : Type} (code message : String) : Elab α := .error (.diagnostic ⟨code, message⟩)

structure Local where
  name : String
  slot : ℕ
  projection : Projection
deriving DecidableEq, Repr

/-- The locals of a scope, the last one bound first. -/
abbrev Locals := List Local

structure InferContext where
  parsed : ParsedFile
  globals : Globals
  userTypes : UserTypes

section Locals

def localSlotCount (locals : Locals) : ℕ := locals.foldr (fun here count => max (here.slot + 1) count) 0

def pushLocal (locals : Locals) (name : String) : Locals := ⟨name, localSlotCount locals, .identity⟩ :: locals

/-- One slot for each name. -/
def pushLocals (locals : Locals) (names : List String) : Locals := names.foldl pushLocal locals

/-- One slot for all names of a tuple pattern. -/
def bindPattern : BindingPattern → Locals → Locals
  | .name name, locals => pushLocal locals name
  | .wildcard, locals => pushLocal locals "$wildcard"
  | .tuple names, locals =>
      (names.zipIdx.map fun (name, index) =>
        (⟨name, localSlotCount locals, .tupleElement names.length index⟩ : Local)).reverse ++ locals
  | .annotated inner _, locals => bindPattern inner locals

def bindPatterns (patterns : List BindingPattern) (locals : Locals) : Locals :=
  patterns.foldl (fun locals pattern => bindPattern pattern locals) locals

end Locals

section Names

def isOperator (name : String) : Bool := name ∈ ["$", ".", "<$>", "<*>", "<**>", "<>"]

def instantiateBuiltin (name : String) : Elab CoreTerm :=
  match Builtins.lookup name with
  | none => fail "H0403" s!"unknown primitive `{name}`"
  | some _ => .ok (.builtin name)

/-- A constructor with a payload is a function. -/
def inferUserConstructor (userTypes : UserTypes) : ConstructorOwner → Elab CoreTerm
  | .record _ => fail "H0406" "record constructors must use named record-construction syntax"
  | .variant typeIndex constructorIndex =>
      match userTypes.definitions[typeIndex]?.map UserType.shape with
      | some (.variant constructors) =>
          match constructors[constructorIndex]? >>= UserConstructor.payload with
          | some _ => .ok (.lambda (.variant typeIndex constructorIndex (some (.boundVar 0 .identity))))
          | none => .ok (.variant typeIndex constructorIndex none)
      | _ => fail "H9000" "variant constructor owner points to variant type"

/-- The name has a dot or is an operator: it is not a local. -/
def isPrimitive (name : String) : Bool := name.toList.contains '.' || isOperator name

def inferName (context : InferContext) (expand : ℕ → Locals → Elab CoreTerm) (name : String) (locals : Locals) :
    Elab CoreTerm :=
  match stripPrefix "Main." name with
  | some global =>
      match context.globals.lookup global with
      | some index => expand index locals
      | none =>
          match context.userTypes.constructors.lookup global with
          | some owner => inferUserConstructor context.userTypes owner
          | none => fail "H0402" s!"unknown global `{name}`"
  | none =>
      if isPrimitive name then instantiateBuiltin name
      else match locals.find? fun found => found.name = name with
        | none => fail "H0401" s!"unbound local `{name}`"
        | some found => .ok (.boundVar (localSlotCount locals - found.slot - 1) found.projection)

end Names

section RecordIntrinsics

inductive RecordIntrinsic where
  | get (record : ExprId)
  | set (value record : ExprId)
  | modify (function record : ExprId)
deriving DecidableEq, Repr

/-- The head of a chain of applications, the arguments and the type arguments. -/
def spine (parsed : ParsedFile) :
    ℕ → ExprId → List ExprId → List TypeExprId → ExprId × List ExprId × List TypeExprId
  | 0, id, arguments, typeArguments => (id, arguments, typeArguments)
  | fuel + 1, id, arguments, typeArguments =>
      match parsed.expression id with
      | .apply function argument => spine parsed fuel function (argument :: arguments) typeArguments
      | .typeApply function argument => spine parsed fuel function arguments (argument :: typeArguments)
      | _ => (id, arguments, typeArguments)

/-- `left $ argument` is an application of the left operand. -/
def dollarApplication (parsed : ParsedFile) (id : ExprId) : Option (ExprId × ExprId) :=
  match parsed.expression id with
  | .apply applied argument =>
      match parsed.expression applied with
      | .apply operator left => if parsed.expression operator = .name "$" then some (left, argument) else none
      | _ => none
  | _ => none

def intrinsicSpine (parsed : ParsedFile) (id : ExprId) : ExprId × List ExprId × List TypeExprId :=
  match dollarApplication parsed id with
  | some (left, argument) => spine parsed (left + 1) left [argument] []
  | none => spine parsed (id + 1) id [] []

def recordIntrinsic (parsed : ParsedFile) (id : ExprId) : Option (RecordIntrinsic × TypeExprId) :=
  let (head, arguments, typeArguments) := intrinsicSpine parsed id
  match parsed.expression head, arguments, typeArguments with
  | .name "Record.get", [record], field :: _ => some (.get record, field)
  | .name "Record.set", [value, record], field :: _ => some (.set value record, field)
  | .name "Record.modify", [function, record], field :: _ => some (.modify function record, field)
  | _, _, _ => none

end RecordIntrinsics

section Inference

variable (context : InferContext) (expand : ℕ → Locals → Elab CoreTerm) (infer : ExprId → Locals → Elab CoreTerm)

def inferRecordIntrinsic (id : ExprId) (locals : Locals) : Elab (Option CoreTerm) :=
  match recordIntrinsic context.parsed id with
  | none => .ok none
  | some (intrinsic, field) =>
      match context.parsed.type field with
      | .promoted label =>
          match intrinsic with
          | .get record => do
              let record ← infer record locals
              pure (some (.recordGet label record))
          | .set value record => do
              let record ← infer record locals
              let value ← infer value locals
              pure (some (.recordSet label value record))
          | .modify function record => do
              let record ← infer record locals
              let function ← infer function locals
              pure (some (.recordModify label function record))
      | _ => fail "H0506" "the first record intrinsic type argument must be a promoted field name"

def wrapLambdas : ℕ → CoreTerm → CoreTerm
  | 0, body => body
  | count + 1, body => .lambda (wrapLambdas count body)

def inferElements (elements : List ExprId) (locals : Locals) : Elab (List CoreTerm) :=
  elements.mapM fun element => infer element locals

/-- The first name that is not new. -/
def duplicateName (names : List String) : Option String :=
  (names.zipIdx.find? fun (name, index) => name ∈ names.take index).map Prod.fst

/-- The fields of a construction with their terms. -/
abbrev Supplied := List (String × CoreTerm)

def inferUserRecord (declaredConstructor : String) (declaredFields : List UserField) (supplied : Supplied) :
    Elab CoreTerm :=
  let names := supplied.map Prod.fst
  let expected := declaredFields.map UserField.name
  match duplicateName names with
  | some name => fail "H0603" s!"duplicate record initializer `{name}`"
  | none =>
      let missing := expected.filter fun name => name ∉ names
      let unexpected := (names.filter fun name => name ∉ expected).insertionSort fun left right => left ≤ right
      if missing ≠ [] then
        let names := String.intercalate ", " missing
        fail "H0604" s!"record construction is missing fields: {names}"
      else if unexpected ≠ [] then
        let names := String.intercalate ", " unexpected
        fail "H0605" s!"record construction has unexpected fields: {names}"
      else .ok (.record declaredConstructor (expected.filterMap fun name => supplied.lookup name))

def inferGenericRecordConstruction (constructor : String) (supplied : Supplied) : Elab CoreTerm :=
  if constructor ≠ "Maybe.Just" then
    fail "H0004" s!"generic record construction through `{constructor}` is not available in this build"
  else
    let sorted := supplied.insertionSort fun left right => left.1 ≤ right.1
    match duplicateName (sorted.map Prod.fst) with
    | some name => fail "H0603" s!"duplicate record initializer `{name}`"
    | none => do
        let just ← instantiateBuiltin "Maybe.Just"
        pure (.apply just (.record "hell:Hell.Record" (sorted.map Prod.snd)))

def inferRecordConstruction (constructor : String) (supplied : Supplied) : Elab CoreTerm :=
  match stripPrefix "Main." constructor with
  | none => inferGenericRecordConstruction constructor supplied
  | some name =>
      match context.userTypes.constructors.lookup name with
      | some (.record typeIndex) =>
          match context.userTypes.definitions[typeIndex]?.map UserType.shape with
          | some (.record declaredConstructor declaredFields) =>
              inferUserRecord declaredConstructor declaredFields supplied
          | _ => fail "H9000" "record constructor owner points to record type"
      | _ => fail "H0402" s!"unknown user record constructor `{constructor}`"

/-- The fields are inferred in their written order, before the construction. -/
def inferRecordTree (constructor : String) (fields : List RecordFieldExpr) (locals : Locals) : Elab CoreTerm := do
  let values ← inferElements infer (fields.map RecordFieldExpr.value) locals
  inferRecordConstruction context constructor ((fields.map RecordFieldExpr.name).zip values)

def inferDo : List DoStatement → Locals → Elab CoreTerm
  | [], _ => fail "H0210" "empty do block"
  | [.action expression], locals => infer expression locals
  | [_], _ => fail "H0210" "a do block must end with an expression"
  | .action expression :: rest, locals => do
      let action ← infer expression locals
      let body ← inferDo rest locals
      let next ← instantiateBuiltin "Monad.then"
      pure (.apply (.apply next action) body)
  | .letBind pattern expression :: rest, locals => do
      let value ← infer expression locals
      let body ← inferDo rest (bindPattern pattern locals)
      pure (.apply (.lambda body) value)
  | .bind pattern expression :: rest, locals => do
      let action ← infer expression locals
      let body ← inferDo rest (bindPattern pattern locals)
      let bind ← instantiateBuiltin "Monad.bind"
      pure (.apply (.apply bind action) (.lambda body))

/-- The names that a case pattern binds. -/
def binders : CasePattern → List String
  | .userConstructor _ binder => binder.toList
  | .primitiveConstructor _ names => names
  | .wildcard => []

inductive CaseFamily where
  | Bool
  | Maybe
  | Either
  | Exit
  | These
  | Json
deriving DecidableEq, Repr

namespace CaseFamily

/-- The number of payloads of each constructor. -/
def payloads : CaseFamily → List ℕ
  | Bool => [0, 0]
  | Maybe => [0, 1]
  | Either => [1, 1]
  | Exit => [0, 1]
  | These => [1, 1, 2]
  | Json => [0, 1, 1, 1, 1, 1]

def eliminatorName : CaseFamily → String
  | Bool => "Bool.bool"
  | Maybe => "Maybe.maybe"
  | Either => "Either.either"
  | Exit => "Exit.exitCode"
  | These => "These.these"
  | Json => "Json.value"

end CaseFamily

structure PrimitiveConstructor where
  family : CaseFamily
  index : ℕ
  arity : ℕ
  count : ℕ
deriving DecidableEq, Repr

def primitiveCaseConstructor : String → Option PrimitiveConstructor
  | "Maybe.Nothing" => some ⟨.Maybe, 0, 0, 2⟩
  | "Maybe.Just" => some ⟨.Maybe, 1, 1, 2⟩
  | "Either.Left" => some ⟨.Either, 0, 1, 2⟩
  | "Either.Right" => some ⟨.Either, 1, 1, 2⟩
  | "Exit.ExitSuccess" => some ⟨.Exit, 0, 0, 2⟩
  | "Exit.ExitFailure" => some ⟨.Exit, 1, 1, 2⟩
  | "Bool.False" => some ⟨.Bool, 0, 0, 2⟩
  | "Bool.True" => some ⟨.Bool, 1, 0, 2⟩
  | "These.This" => some ⟨.These, 0, 1, 3⟩
  | "These.That" => some ⟨.These, 1, 1, 3⟩
  | "These.These" => some ⟨.These, 2, 2, 3⟩
  | "Json.Null" => some ⟨.Json, 0, 0, 6⟩
  | "Json.Bool" => some ⟨.Json, 1, 1, 6⟩
  | "Json.String" => some ⟨.Json, 2, 1, 6⟩
  | "Json.Number" => some ⟨.Json, 3, 1, 6⟩
  | "Json.Array" => some ⟨.Json, 4, 1, 6⟩
  | "Json.Object" => some ⟨.Json, 5, 1, 6⟩
  | _ => none

def primitiveName : CasePattern → Option String
  | .primitiveConstructor name _ => some name
  | _ => none

def userName : CasePattern → Option String
  | .userConstructor name _ => some name
  | _ => none

/-- An alternative with the queue of the terms inferred ahead of it. -/
structure Prepared where
  alternative : CaseAlternative
  queue : List CoreTerm

/-- Infer an alternative ahead of its case. Where it is to be inferred again, the term in the queue is
taken and put back, unless the alternative is a case itself: that one is inferred every time. -/
def inferAhead (id : ExprId) (locals : Locals) : ℕ → Elab (List CoreTerm)
  | 0 => .ok []
  | repeats + 1 =>
      match context.parsed.expression id with
      | .case _ _ => do
          let first ← infer id locals
          let rest ← inferAhead id locals repeats
          pure (first :: rest)
      | _ => do
          let first ← infer id locals
          pure [first]

/-- How often the alternative is inferred ahead: a wildcard of a primitive case once for each
constructor that is not written. -/
def repeats (alternatives : List CaseAlternative) (alternative : CaseAlternative) : ℕ :=
  let names := alternatives.filterMap fun other => primitiveName other.pattern
  if !names.isEmpty && decide (alternative.pattern = .wildcard) then
    ((names.findSome? primitiveCaseConstructor).map PrimitiveConstructor.count).getD 1 - names.length
  else 1

def prepare (alternatives : List CaseAlternative) (locals : Locals) : Elab (List Prepared) :=
  alternatives.mapM fun alternative => do
    let queue ← inferAhead context infer alternative.expression (pushLocals locals (binders alternative.pattern))
      (repeats alternatives alternative)
    pure ⟨alternative, queue⟩

/-- `infer_expr` of an alternative: the term in the queue, where there is one. -/
def takePrepared (queue : List CoreTerm) (id : ExprId) (locals : Locals) : Elab CoreTerm :=
  match queue with
  | first :: _ => .ok first
  | [] => infer id locals

/-- The alternatives of a user case: the written constructors with their positions, and the wildcard. -/
structure UserAlternatives where
  explicit : List (ℕ × Prepared)
  wildcard : Option Prepared

def insertWildcard (wildcard : Option Prepared) (prepared : Prepared) : Elab (Option Prepared) :=
  match wildcard with
  | some _ => fail "H0613" "a case may contain at most one wildcard"
  | none => .ok (some prepared)

/-- The variant that the alternatives name. -/
def selectType (selected : Option ℕ) (prepared : Prepared) : Elab (Option ℕ) :=
  match prepared.alternative.pattern with
  | .userConstructor name _ =>
      match context.userTypes.constructors.lookup name with
      | some (.variant typeIndex _) =>
          if selected.all fun old => old = typeIndex then .ok (some typeIndex)
          else fail "H0611" "case alternatives belong to different user variants"
      | _ => fail "H0610" s!"unknown variant constructor `{name}`"
  | _ => .ok selected

def insertUserAlternative (definition : UserType) (constructors : List UserConstructor)
    (found : UserAlternatives) (prepared : Prepared) : Elab UserAlternatives :=
  match prepared.alternative.pattern with
  | .userConstructor name binder =>
      if found.explicit.any fun (_, earlier) => userName earlier.alternative.pattern = some name then
        fail "H0612" s!"duplicate case constructor `{name}`"
      else match constructors.findIdx? fun constructor => constructor.name = name with
        | none => fail "H0610" s!"constructor `{name}` is not part of `{definition.qualifiedName}`"
        | some index =>
            if ((constructors[index]? >>= UserConstructor.payload).isSome) ≠ binder.isSome then
              fail "H0611" s!"constructor `{name}` has the wrong payload binder arity"
            else .ok { found with explicit := found.explicit ++ [(index, prepared)] }
  | .wildcard => do
      let wildcard ← insertWildcard found.wildcard prepared
      pure { found with wildcard }
  | .primitiveConstructor _ _ => fail "H9000" "a user case has no primitive constructor"

def inferBranches (explicit : List (ℕ × Prepared)) (locals : Locals) : Elab (List (ℕ × CoreTerm)) :=
  explicit.mapM fun (index, prepared) => do
    let body ← takePrepared infer prepared.queue prepared.alternative.expression
      (pushLocals locals (binders prepared.alternative.pattern))
    pure (index, body)

def inferFallback (wildcard : Option Prepared) (locals : Locals) : Elab (Option CoreTerm) :=
  match wildcard with
  | none => .ok none
  | some prepared => do
      let body ← takePrepared infer prepared.queue prepared.alternative.expression locals
      pure (some body)

/-- The variant whose constructors the alternatives name; where there are none, inference of types finds
it from the scrutinee. -/
def selectedDefinition (prepared : List Prepared) : Option ℕ → Elab (UserType × List UserConstructor)
  | none =>
      if prepared.isEmpty then
        fail "H0610" "a wildcard-only user case requires a known nominal variant scrutinee"
      else .ok (⟨"", .variant []⟩, [])
  | some typeIndex =>
      match context.userTypes.definitions[typeIndex]? with
      | some ⟨name, .variant constructors⟩ => .ok (⟨name, .variant constructors⟩, constructors)
      | _ => fail "H0610" "case scrutinee is not a user variant"

/-- The written constructors in their declared order; before a wildcard they are the first ones. -/
def coverUser (definition : UserType) (constructors : List UserConstructor) (found : UserAlternatives) :
    Elab (List (ℕ × Prepared)) :=
  let explicit := found.explicit.insertionSort fun left right => left.1 ≤ right.1
  let explicitNames := explicit.filterMap fun (index, _) => constructors[index]?.map UserConstructor.name
  let expectedNames := (constructors.take explicit.length).map UserConstructor.name
  if found.wildcard.isSome && decide (explicitNames ≠ expectedNames) then
    fail "H0502" "explicit user alternatives before a wildcard must form the canonical constructor prefix"
  else if found.wildcard.isNone && decide (explicit.length ≠ constructors.length) then
    fail "H0502" s!"non-exhaustive case over `{definition.qualifiedName}`"
  else .ok explicit

def inferUserCase (scrutinee : CoreTerm) (prepared : List Prepared) (locals : Locals) : Elab CoreTerm := do
  let selected ← prepared.foldlM (selectType context) none
  let (definition, constructors) ← selectedDefinition context prepared selected
  let found ← prepared.foldlM (insertUserAlternative definition constructors) ⟨[], none⟩
  let explicit ← coverUser definition constructors found
  let branches ← inferBranches infer explicit locals
  let fallback ← inferFallback infer found.wildcard locals
  pure (.case scrutinee branches fallback)

structure PrimitiveAlternatives where
  wildcard : Option Prepared
  family : Option CaseFamily
  constructorCount : ℕ
  seen : List ℕ

def insertPrimitiveAlternative (found : PrimitiveAlternatives) (prepared : Prepared) :
    Elab PrimitiveAlternatives :=
  match prepared.alternative.pattern with
  | .primitiveConstructor name names =>
      match primitiveCaseConstructor name with
      | none => fail "H0610" s!"unknown primitive case constructor `{name}`"
      | some constructor =>
          if found.family.any fun family => family ≠ constructor.family then
            fail "H0614" "primitive constructors from different case families cannot be mixed"
          else if names.length ≠ constructor.arity then
            fail "H0611" s!"primitive constructor `{name}` has the wrong payload arity"
          else if constructor.index ∈ found.seen then fail "H0612" s!"duplicate case constructor `{name}`"
          else .ok ⟨found.wildcard, some constructor.family, constructor.count, found.seen ++ [constructor.index]⟩
  | .wildcard => do
      let wildcard ← insertWildcard found.wildcard prepared
      pure { found with wildcard }
  | .userConstructor _ _ => fail "H0614" "primitive and user case constructors cannot be mixed"

/-- The alternative that names the constructor. -/
def explicitFor (prepared : List Prepared) (index : ℕ) : Option Prepared :=
  prepared.find? fun entry =>
    (primitiveName entry.alternative.pattern >>= primitiveCaseConstructor).any fun found => found.index = index

def wildcardNames (arity : ℕ) : List String := (List.range arity).map fun index => "$wildcard" ++ toString index

/-- One handler for each constructor; the wildcard takes its queue from the front. -/
def inferHandlers (prepared : List Prepared) (wildcard : Option Prepared) (locals : Locals) :
    List (ℕ × ℕ) → List CoreTerm → Elab (List CoreTerm)
  | [], _ => .ok []
  | (arity, index) :: rest, queue =>
      match explicitFor prepared index with
      | some entry => do
          let body ← takePrepared infer entry.queue entry.alternative.expression
            (pushLocals locals (binders entry.alternative.pattern))
          let handlers ← inferHandlers prepared wildcard locals rest queue
          pure (wrapLambdas arity body :: handlers)
      | none =>
          match wildcard with
          | some entry => do
              let body ← takePrepared infer queue entry.alternative.expression
                (pushLocals locals (wildcardNames arity))
              let handlers ← inferHandlers prepared wildcard locals rest queue.tail
              pure (wrapLambdas arity body :: handlers)
          | none => fail "H9000" "primitive case coverage validated"

def inferRegisteredPrimitiveCase (family : CaseFamily) (scrutinee : CoreTerm) (prepared : List Prepared)
    (wildcard : Option Prepared) (locals : Locals) : Elab CoreTerm := do
  let eliminator ← instantiateBuiltin family.eliminatorName
  let queue := (wildcard.map Prepared.queue).getD []
  let handlers ← inferHandlers infer prepared wildcard locals family.payloads.zipIdx queue
  pure (.apply (handlers.foldl .apply eliminator) scrutinee)

def inferPrimitiveCase (scrutinee : CoreTerm) (prepared : List Prepared) (locals : Locals) : Elab CoreTerm := do
  let found ← prepared.foldlM insertPrimitiveAlternative ⟨none, none, 0, []⟩
  if found.wildcard.isNone && decide (found.seen.length ≠ found.constructorCount) then
    fail "H0615" "non-exhaustive primitive case"
  else match found.family with
    | none => fail "H9000" "a primitive case has a primitive constructor"
    | some family => inferRegisteredPrimitiveCase infer family scrutinee prepared found.wildcard locals

def inferCaseTree (scrutinee : ExprId) (alternatives : List CaseAlternative) (locals : Locals) : Elab CoreTerm := do
  let scrutinee ← infer scrutinee locals
  let prepared ← prepare context infer alternatives locals
  if alternatives.any fun alternative => (primitiveName alternative.pattern).isSome then
    inferPrimitiveCase infer scrutinee prepared locals
  else inferUserCase context infer scrutinee prepared locals

/-- One expression, with `infer` for its parts and `expand` for the globals it names. -/
def inferStep (id : ExprId) (locals : Locals) : Elab CoreTerm := do
  match ← inferRecordIntrinsic context infer id locals with
  | some intrinsic => pure intrinsic
  | none =>
      match context.parsed.expression id with
      | .name name => inferName context expand name locals
      | .literal value => pure (.constant value)
      | .apply function argument => do
          let function ← infer function locals
          let argument ← infer argument locals
          pure (.apply function argument)
      | .typeApply function _ => infer function locals
      | .lambda parameters body => do
          let body ← infer body (bindPatterns parameters locals)
          pure (wrapLambdas parameters.length body)
      | .ifThenElse condition thenBranch elseBranch => do
          let elseBranch ← infer elseBranch locals
          let thenBranch ← infer thenBranch locals
          let condition ← infer condition locals
          let eliminator ← instantiateBuiltin "Bool.bool"
          pure (.apply (.apply (.apply eliminator elseBranch) thenBranch) condition)
      | .doBlock statements => inferDo infer statements locals
      | .case scrutinee alternatives => inferCaseTree context infer scrutinee alternatives locals
      | .tuple elements => do
          let elements ← inferElements infer elements locals
          pure (.tuple elements)
      | .list elements => do
          let elements ← inferElements infer elements locals
          pure (.list elements)
      | .recordConstruction constructor fields => inferRecordTree context infer constructor fields locals
      | .annotated expression _ => infer expression locals

end Inference

section Expansion

variable (context : InferContext)

/-- The parts of an expression come before it, so that `fuel` above its position is enough. -/
def inferExpr (expand : ℕ → Locals → Elab CoreTerm) : ℕ → ExprId → Locals → Elab CoreTerm
  | 0, _, _ => .error .outOfFuel
  | fuel + 1, id, locals => inferStep context expand (inferExpr expand fuel) id locals

/-- The global that a body is an alias of. -/
def aliasOf (value : ExprId) : Option ℕ :=
  match context.parsed.expression value with
  | .name name => mainGlobal context.globals name
  | _ => none

/-- The body of a global at the place where it is named, with the locals of that place; `depth` bounds
the expansion stack. -/
def expandGlobal : ℕ → ℕ → Locals → Elab CoreTerm
  | 0, _, _ => .error .outOfFuel
  | depth + 1, index, locals =>
      match globalValue context.parsed index with
      | none => fail "H9000" "global symbol did not point to a value declaration"
      | some value =>
          match aliasOf context value with
          | some target => expandGlobal depth target locals
          | none => inferExpr context (expandGlobal depth) (value + 1) value locals

end Expansion

end HellRs.Compiler
