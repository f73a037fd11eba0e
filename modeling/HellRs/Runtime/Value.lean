import HellRs.Core.Program

/-! # Values, suspensions and thunks

The data of the evaluator in the default build. Everything that refers to thunks is generic in the
type of references: the machine uses positions of a heap, the call-by-name semantics whole closures.
Native code is a parameter. A piece of native code keeps the references it captured, and values that
only native code opens hold a payload of its own.
-/

namespace HellRs.Runtime

open Core Builtins

inductive RuntimeErrorKind where
  | userError
  | optionParse
  | blackHole
  | cancelled
  | exit (status : ℤ)
  | io
  | resourceLimit
  | cancellationStalled
  | internalInvariant
deriving DecidableEq, Repr

structure RuntimeError where
  code : String
  kind : RuntimeErrorKind
  message : String
deriving DecidableEq, Repr

namespace RuntimeError

def internal (message : String) : RuntimeError := ⟨"H9001", .internalInvariant, message⟩

def resourceLimit (message : String) : RuntimeError := ⟨"H0803", .resourceLimit, message⟩

def cancelled : RuntimeError := ⟨"H0906", .cancelled, "IO action was cancelled"⟩

/-- The failed charge of one step. -/
def stepLimit (maximum : ℕ) (profile : String) : RuntimeError :=
  .resourceLimit ("EvaluatorSteps budget exceeded: configured=" ++ toString maximum ++ ", observed=" ++
    toString (maximum + 1) ++ ", operation=evaluator transition, profile=" ++ profile)

/-- `enter_thunk` on a thunk that the evaluator itself is evaluating. -/
def blackHole : RuntimeError := ⟨"H0902", .blackHole, "black hole while forcing a recursive thunk"⟩

/-- `register_wait` on a wait that would close a cycle. -/
def waitCycle : RuntimeError :=
  ⟨"H0902", .blackHole, "cross-evaluator black hole detected in thunk wait graph"⟩

end RuntimeError

/-- The data of native code: code pointers, and what it keeps in values of its own. -/
structure Host where
  Code : Type
  Payload : Type

variable (H : Host) (R : Type)

inductive FunctionValue where
  | guest (body : CoreId) (environment : List R)
  | native (builtin : BuiltinId) (arguments : List R) (evidence : Option ClassEvidence)
  | host (operation : H.Code) (captured : List R)

inductive PrimitiveFamily where
  | either
  | exit
  | these
  | json
deriving DecidableEq, Repr

inductive ListCell where
  | nil
  | cons (head tail : R)

structure InfoModifiers where
  fullDescription : Bool
  programDescription : Option String
  header : Option String
deriving DecidableEq, Repr

/-- Values in weak-head normal form. The values that the machine never opens are `other`. -/
inductive Value where
  | unit
  | bool (value : Bool)
  | int (value : ℤ)
  | double (bits : ℕ)
  | character (value : Char)
  | text (value : String)
  | builder (bytes : List UInt8)
  | optionsMod (modifiers : List H.Payload)
  | optionsInfoMod (modifiers : InfoModifiers)
  | function (function : FunctionValue H R)
  | tuple (elements : List R)
  | record (layout : RecordLayout) (fields : List R)
  | variant (layout : VariantLayout) (constructorIndex : ℕ) (payload : Option R)
  | maybe (payload : Option R)
  | primitiveVariant (family : PrimitiveFamily) (constructorIndex : ℕ) (payloads : List R)
  | list (cell : ListCell R)
  | vector (elements : List R)
  | other (payload : H.Payload) (captured : List R)

/-- Delayed computations. -/
inductive Suspension where
  | expression (node : CoreId) (environment : List R)
  | listLiteral (nodes : List CoreId) (index : ℕ) (environment : List R)
  | listTake (remaining : ℤ) (list : R)
  | listRepeat (item : R) (nonproductive : Bool)
  | listIterate (function current : R)
  | listMap (function list : R)
  | listZip (left right : R)
  | semigroupAppend (left right : R)
  | apply (function argument : R)
  | fix (function recursive : R)
  | native (operation : H.Code) (captured : List R)

/-- What a new thunk holds: `Thunk::suspended`, `Thunk::evaluated` and `Thunk::fixed`, which refers
to itself. -/
inductive Cell where
  | suspended (suspension : Suspension H R)
  | evaluated (value : Value H R)
  | fixed (function : R)

/-- `ForceOutcome`. -/
inductive Outcome where
  | value (value : Value H R)
  | aliasOf (target : R)

inductive Control where
  | evaluate (node : CoreId) (environment : List R)
  | enter (thunk : R)
  | returned (outcome : Outcome H R)
  | raise (error : RuntimeError)

/-- The left side of an append that forces its right side by a nested call. -/
inductive ForcedLeft where
  | builder (bytes : List UInt8)
  | optionsMod (modifiers : List H.Payload)
  | optionsInfoMod (modifiers : InfoModifiers)

/-- Code that runs inside an iteration of the machine and can force thunks by nested calls: native
code, an append that waits for its right side, or one that has its result. -/
inductive Running where
  | native (operation : H.Code) (captured : List R)
  | append (left : ForcedLeft H) (right : R)
  | finished (result : Except RuntimeError (Outcome H R))

/-- The frames that transitions push and resume. -/
inductive Continuation where
  | apply (argument : R)
  | invokeNative (builtin : BuiltinId) (arguments : List R) (nextDemand : ℕ)
      (evidence : Option ClassEvidence)
  | projectTuple (arity index : ℕ)
  | recordGet (layout : RecordLayout) (fieldIndex : ℕ)
  | recordSet (layout : RecordLayout) (fieldIndex : ℕ) (value : R)
  | recordModify (layout : RecordLayout) (fieldIndex : ℕ) (function : R)
  | case (layout : VariantLayout) (branches : List CaseBranch) (fallback : Option CoreId)
      (environment : List R)
  | listTake (remaining : ℤ)
  | listIterateCurrent (function current next : R)
  | listMap (function : R)
  | listZipLeft (right : R)
  | listZipRight (leftHead leftTail : R)
  | semigroupText (left : String)
  | semigroupVector (left : List R)
  | semigroupLeft (left right : R)
  | semigroupMaybe (left leftPayload : R)

/-- Stack frames. A nested call leaves its caller on the stack as `forcing`, so the frames down to
the next `forcing` are the stack of one `run_machine`. -/
inductive Frame where
  | update (thunk : R)
  | continuation (continuation : Continuation R)
  | forcing (caller : Running H R)

/-- What native code does next. -/
inductive NativeAct where
  | finish (outcome : Outcome H R)
  | fail (error : RuntimeError)
  | panic
  | force (thunk : R)
  | allocate (cell : Cell H R)

/-- Native code as a transition system: where an adapter starts, what code does next, and how it
goes on with the result of a nested call or with a new thunk. -/
structure Natives (H : Host) where
  builtin : BuiltinId → Option ClassEvidence → H.Code
  act : {R : Type} → H.Code → List R → NativeAct H R
  resume : {R : Type} → H.Code → List R → Except RuntimeError (Value H R) → H.Code × List R
  allocated : {R : Type} → H.Code → List R → R → H.Code × List R

end HellRs.Runtime
