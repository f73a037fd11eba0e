import HellRs.Runtime.Value

/-! # Transitions of the evaluator

What `evaluate_control`, `enter_suspension`, `resume_frame`, `apply_value` and `schedule_native` do,
generic in the type of references. The only access to the heap is the allocation of new thunks, so a
transition is a tree of allocations that ends in what the machine does next.
-/

namespace HellRs.Runtime

open Core Builtins

/-- A computation that allocates thunks and continues with references to them. -/
inductive Fresh (H : Host) (R α : Type) where
  | done (result : α)
  | allocate (cell : Cell H R) (next : R → Fresh H R α)

namespace Fresh

variable {H : Host} {R α β : Type}

def bind : Fresh H R α → (α → Fresh H R β) → Fresh H R β
  | done result, next => next result
  | allocate cell rest, next => allocate cell fun thunk => (rest thunk).bind next

instance : Monad (Fresh H R) where
  pure := done
  bind := bind

/-- `Thunk::suspended`. -/
def suspended (suspension : Suspension H R) : Fresh H R R := allocate (.suspended suspension) done

/-- `expression_thunk`. -/
def expression (node : CoreId) (environment : List R) : Fresh H R R :=
  suspended (.expression node environment)

/-- `expression_thunk` for several nodes. -/
def expressions (environment : List R) : List CoreId → Fresh H R (List R)
  | [] => done []
  | node :: nodes => do
      let thunk ← expression node environment
      let thunks ← expressions environment nodes
      pure (thunk :: thunks)

end Fresh

/-- What the machine does next: the control of the next iteration, or code to run in this one. -/
inductive Next (H : Host) (R : Type) where
  | control (control : Control H R)
  | call (running : Running H R)

/-- The result of a transition: the frames it pushes, the top first, and what comes next. -/
abbrev Pushed (H : Host) (R : Type) := Except RuntimeError (List (Continuation R) × Next H R)

section Transitions

variable {H : Host} {R : Type}

/-- No frame is pushed, and a value is returned. -/
def give (value : Value H R) : Pushed H R := .ok ([], .control (.returned (.value value)))

/-- No frame is pushed, and an alias is returned. -/
def follow (target : R) : Pushed H R := .ok ([], .control (.returned (.aliasOf target)))

/-- One frame is pushed, and a thunk is entered. -/
def enterUnder (frame : Continuation R) (thunk : R) : Pushed H R :=
  .ok ([frame], .control (.enter thunk))

def fail (message : String) : Pushed H R := .error (.internal message)

def Constant.value : Constant → Value H R
  | .unit => .unit
  | .bool value => .bool value
  | .int value => .int value
  | .double bits => .double bits
  | .character value => .character value
  | .text value => .text value

/-- `native_demand_argument_index`: a subtraction demands its arguments from the right. -/
def nativeDemandArgumentIndex (spec : BuiltinSpec) (argumentCount position : ℕ) : ℕ :=
  if spec.implementation ∈ ["int_subtract", "integer_subtract", "double_subtract"] then
    argumentCount - position - 1
  else position

/-- The argument demanded at this position, if any. -/
def demandedArgument (spec : BuiltinSpec) (arguments : List R) (position : ℕ) : Option R :=
  let index := nativeDemandArgumentIndex spec arguments.length position
  match spec.demand[index]? with
  | some .whnf | some .deep | some .conditional => arguments[index]?
  | _ => none

/-- `schedule_native`: enter the first argument from this position on that the adapter demands, or
run the adapter. -/
def scheduleNative (natives : Natives H) (builtin : BuiltinId) (arguments : List R) (nextDemand : ℕ)
    (evidence : Option ClassEvidence) : Pushed H R :=
  match registry[builtin]? with
  | none => fail "unknown built-in id"
  | some spec =>
      let positions := List.range' nextDemand (arguments.length - nextDemand)
      match positions.findSome? fun position =>
          (demandedArgument spec arguments position).map fun argument => (position, argument) with
      | some (position, argument) =>
          enterUnder (.invokeNative builtin arguments (position + 1) evidence) argument
      | none => .ok ([], .call (.native (natives.builtin builtin evidence) arguments))

/-- `apply_value`. The caller has no use for arguments beyond the arity until the adapter returns. -/
def applyValue (natives : Natives H) (function : Value H R) (argument : R) : Pushed H R :=
  match function with
  | .function (.guest body environment) =>
      .ok ([], .control (.evaluate body (environment ++ [argument])))
  | .function (.native builtin arguments evidence) =>
      match registry[builtin]? with
      | none => fail "unknown built-in id"
      | some spec =>
          let captured := arguments ++ [argument]
          if captured.length < spec.arity then give (.function (.native builtin captured evidence))
          else
            (scheduleNative natives builtin (captured.take spec.arity) 0 evidence).map
              fun (pushed, next) => (pushed ++ (captured.drop spec.arity).map .apply, next)
  | .function (.host operation captured) =>
      .ok ([], .call (.native operation (captured ++ [argument])))
  | _ => fail "attempted to apply a non-function"

/-- `enter_list_literal`. -/
def enterListLiteral (nodes : List CoreId) (index : ℕ) (environment : List R) :
    Fresh H R (Pushed H R) :=
  match nodes[index]? with
  | none => pure (give (.list .nil))
  | some node => do
      let head ← Fresh.expression node environment
      let tail ← Fresh.suspended (.listLiteral nodes (index + 1) environment)
      pure (give (.list (.cons head tail)))

/-- `repeat_cell`. -/
def repeatCell (item : R) (nonproductive : Bool) : Fresh H R (Value H R) := do
  let tail ← Fresh.suspended (.listRepeat item nonproductive)
  pure (.list (.cons item tail))

/-- `iterate_cell`. -/
def iterateCell (function current next : R) : Fresh H R (Value H R) := do
  let tail ← Fresh.suspended (.listIterate function next)
  pure (.list (.cons current tail))

/-- `enter_suspension`. -/
def enterSuspension : Suspension H R → Fresh H R (Pushed H R)
  | .expression node environment => pure (.ok ([], .control (.evaluate node environment)))
  | .apply function argument => pure (enterUnder (.apply argument) function)
  | .fix function recursive => pure (enterUnder (.apply recursive) function)
  | .listLiteral nodes index environment => enterListLiteral nodes index environment
  | .listTake remaining list =>
      pure (if remaining ≤ 0 then give (.list .nil) else enterUnder (.listTake remaining) list)
  | .listRepeat item nonproductive => do pure (give (← repeatCell item nonproductive))
  | .listIterate function current => do
      let next ← Fresh.suspended (.apply function current)
      pure (enterUnder (.listIterateCurrent function current next) next)
  | .listMap function list => pure (enterUnder (.listMap function) list)
  | .listZip left right => pure (enterUnder (.listZipLeft right) left)
  | .semigroupAppend left right => pure (enterUnder (.semigroupLeft left right) left)
  | .native operation captured => pure (.ok ([], .call (.native operation captured)))

/-- `evaluate_control`. -/
def evaluateControl (natives : Natives H) (program : CoreProgram) (id : CoreId)
    (environment : List R) : Fresh H R (Pushed H R) :=
  match program.node id with
  | none => pure (fail "core id is out of bounds")
  | some node =>
      match node.kind with
      | .boundVar deBruijn projection =>
          match environment.reverse[deBruijn]? with
          | none => pure (fail "de Bruijn index is out of scope")
          | some binding =>
              match projection with
              | .identity => pure (follow binding)
              | .tupleElement arity index => pure (enterUnder (.projectTuple arity index) binding)
      | .lambda _ body => pure (give (.function (.guest body environment)))
      | .apply function argument => do
          let function ← Fresh.expression function environment
          let argument ← Fresh.expression argument environment
          pure (enterUnder (.apply argument) function)
      | .constant constant => pure (give (Constant.value constant))
      | .builtin builtin evidence =>
          match registry[builtin]? with
          | none => pure (fail "unknown built-in id")
          | some spec =>
              if spec.arity = 0 then pure (scheduleNative natives builtin [] 0 evidence)
              else pure (give (.function (.native builtin [] evidence)))
      | .tuple elements => do pure (give (.tuple (← Fresh.expressions environment elements)))
      | .list elements => enterListLiteral elements 0 environment
      | .record layout fields => do
          pure (give (.record layout (← Fresh.expressions environment fields)))
      | .recordGet layout fieldIndex record => do
          let record ← Fresh.expression record environment
          pure (enterUnder (.recordGet layout fieldIndex) record)
      | .recordSet layout fieldIndex value record => do
          let record ← Fresh.expression record environment
          let value ← Fresh.expression value environment
          pure (enterUnder (.recordSet layout fieldIndex value) record)
      | .recordModify layout fieldIndex function record => do
          let record ← Fresh.expression record environment
          let function ← Fresh.expression function environment
          pure (enterUnder (.recordModify layout fieldIndex function) record)
      | .variant layout constructorIndex none =>
          pure (give (.variant layout constructorIndex none))
      | .variant layout constructorIndex (some payload) => do
          let payload ← Fresh.expression payload environment
          pure (give (.variant layout constructorIndex (some payload)))
      | .case scrutinee layout branches fallback => do
          let scrutinee ← Fresh.expression scrutinee environment
          pure (enterUnder (.case layout branches fallback environment) scrutinee)

/-- `Frame::ProjectTuple`. -/
def projectTuple (arity index : ℕ) : Value H R → Pushed H R
  | .tuple elements =>
      if elements.length ≠ arity then fail "tuple projection arity mismatch"
      else match elements[index]? with
        | none => fail "tuple projection index is out of bounds"
        | some selected => follow selected
  | _ => fail "tuple projection received a non-tuple"

/-- `Frame::RecordGet`. -/
def recordGet (layout : RecordLayout) (fieldIndex : ℕ) : Value H R → Pushed H R
  | .record actualLayout fields =>
      if actualLayout ≠ layout then fail "Record.get layout mismatch"
      else match fields[fieldIndex]? with
        | none => fail "Record.get field index is out of bounds"
        | some field => follow field
  | _ => fail "Record.get received a non-record"

/-- `Frame::RecordSet`. -/
def recordSet (layout : RecordLayout) (fieldIndex : ℕ) (replacement : R) : Value H R → Pushed H R
  | .record actualLayout fields =>
      if actualLayout ≠ layout then fail "Record.set layout mismatch"
      else if fieldIndex < fields.length then
        give (.record actualLayout (fields.set fieldIndex replacement))
      else fail "Record.set field index is out of bounds"
  | _ => fail "Record.set received a non-record"

/-- `Frame::RecordModify`. -/
def recordModify (layout : RecordLayout) (fieldIndex : ℕ) (function : R) :
    Value H R → Fresh H R (Pushed H R)
  | .record actualLayout fields =>
      if actualLayout ≠ layout then pure (fail "Record.modify layout mismatch")
      else match fields[fieldIndex]? with
        | none => pure (fail "Record.modify field index is out of bounds")
        | some field => do
            let modified ← Fresh.suspended (.apply function field)
            pure (give (.record actualLayout (fields.set fieldIndex modified)))
  | _ => pure (fail "Record.modify received a non-record")

/-- `Frame::Case`. -/
def selectBranch (layout : VariantLayout) (branches : List CaseBranch) (fallback : Option CoreId)
    (environment : List R) : Value H R → Pushed H R
  | .variant actualLayout constructorIndex payload =>
      if actualLayout ≠ layout then fail "case variant layout mismatch"
      else match branches.find? fun branch => branch.constructorIndex = constructorIndex with
        | some branch =>
            match branch.payloadType, payload with
            | some _, some payload => .ok ([], .control (.evaluate branch.body (environment ++ [payload])))
            | none, none => .ok ([], .control (.evaluate branch.body environment))
            | _, _ => fail "case branch payload shape mismatch"
        | none =>
            match fallback with
            | some fallback => .ok ([], .control (.evaluate fallback environment))
            | none => fail "verified non-exhaustive case reached runtime"
  | _ => fail "case scrutinee was not a variant"

/-- `Frame::ListTake`. -/
def takeCell (remaining : ℤ) : Value H R → Fresh H R (Pushed H R)
  | .list .nil => pure (give (.list .nil))
  | .list (.cons head tail) => do
      let outputTail ← Fresh.suspended (.listTake (remaining - 1) tail)
      pure (give (.list (.cons head outputTail)))
  | _ => pure (fail "List.take received a non-list")

/-- `Frame::ListMap`. -/
def mapCell (function : R) : Value H R → Fresh H R (Pushed H R)
  | .list .nil => pure (give (.list .nil))
  | .list (.cons head tail) => do
      let mapped ← Fresh.suspended (.apply function head)
      let mappedTail ← Fresh.suspended (.listMap function tail)
      pure (give (.list (.cons mapped mappedTail)))
  | _ => pure (fail "List.map received a non-list")

/-- `Frame::ListZipLeft`. -/
def zipLeft (right : R) : Value H R → Pushed H R
  | .list .nil => give (.list .nil)
  | .list (.cons head tail) => enterUnder (.listZipRight head tail) right
  | _ => fail "List.zip received a non-list"

/-- `Frame::ListZipRight`. -/
def zipRight (leftHead leftTail : R) : Value H R → Fresh H R (Pushed H R)
  | .list .nil => pure (give (.list .nil))
  | .list (.cons rightHead rightTail) => do
      let head ← Fresh.allocate (.evaluated (.tuple [leftHead, rightHead])) .done
      let tail ← Fresh.suspended (.listZip leftTail rightTail)
      pure (give (.list (.cons head tail)))
  | _ => pure (fail "List.zip received a non-list")

/-- `Frame::SemigroupText`. -/
def appendText (left : String) : Value H R → Pushed H R
  | .text right => give (.text (left ++ right))
  | _ => fail "Semigroup Text received an incompatible value"

/-- `Frame::SemigroupVector`. -/
def appendVector (left : List R) : Value H R → Pushed H R
  | .vector right => give (.vector (left ++ right))
  | _ => fail "Semigroup Vector received an incompatible value"

/-- `Frame::SemigroupLeft`: the left side of an append decides how the right side is used. -/
def appendLeft (left right : R) : Value H R → Fresh H R (Pushed H R)
  | .text leftText => pure (enterUnder (.semigroupText leftText) right)
  | .vector leftValues => pure (enterUnder (.semigroupVector leftValues) right)
  | .builder bytes => pure (.ok ([], .call (.append (.builder bytes) right)))
  | .optionsMod modifiers => pure (.ok ([], .call (.append (.optionsMod modifiers) right)))
  | .optionsInfoMod modifiers => pure (.ok ([], .call (.append (.optionsInfoMod modifiers) right)))
  | .list .nil => pure (follow right)
  | .maybe none => pure (follow right)
  | .list (.cons head tail) => do
      let appendedTail ← Fresh.suspended (.semigroupAppend tail right)
      pure (give (.list (.cons head appendedTail)))
  | .maybe (some leftPayload) => pure (enterUnder (.semigroupMaybe left leftPayload) right)
  | .primitiveVariant .either constructorIndex _ =>
      pure (match constructorIndex with
        | 0 => follow right
        | 1 => follow left
        | _ => fail "Semigroup Either constructor is out of bounds")
  | _ => pure (fail "Semigroup evidence did not match runtime values")

/-- `Frame::SemigroupMaybe`. -/
def appendMaybe (left leftPayload : R) : Value H R → Fresh H R (Pushed H R)
  | .maybe none => pure (follow left)
  | .maybe (some rightPayload) => do
      let payload ← Fresh.suspended (.semigroupAppend leftPayload rightPayload)
      pure (give (.maybe (some payload)))
  | _ => pure (fail "Semigroup Maybe received incompatible values")

/-- The end of an append whose right side is forced by a nested call. -/
def ForcedLeft.append : ForcedLeft H → Value H R → Except RuntimeError (Outcome H R)
  | .builder left, .builder right => .ok (.value (.builder (left ++ right)))
  | .builder _, _ => .error (.internal "Semigroup Builder received an incompatible value")
  | .optionsMod left, .optionsMod right => .ok (.value (.optionsMod (left ++ right)))
  | .optionsMod _, _ => .error (.internal "Semigroup Options.Mod received an incompatible value")
  | .optionsInfoMod left, .optionsInfoMod right => .ok (.value (.optionsInfoMod {
      fullDescription := left.fullDescription || right.fullDescription
      programDescription := right.programDescription <|> left.programDescription
      header := right.header <|> left.header }))
  | .optionsInfoMod _, _ =>
      .error (.internal "Semigroup Options.InfoMod received an incompatible value")

/-- `resume_frame`, for the frames other than `Update`. -/
def resumeFrame (natives : Natives H) : Continuation R → Value H R → Fresh H R (Pushed H R)
  | .apply argument, value => pure (applyValue natives value argument)
  | .invokeNative builtin arguments nextDemand evidence, _ =>
      pure (scheduleNative natives builtin arguments nextDemand evidence)
  | .projectTuple arity index, value => pure (projectTuple arity index value)
  | .recordGet layout fieldIndex, value => pure (recordGet layout fieldIndex value)
  | .recordSet layout fieldIndex replacement, value =>
      pure (recordSet layout fieldIndex replacement value)
  | .recordModify layout fieldIndex function, value => recordModify layout fieldIndex function value
  | .case layout branches fallback environment, value =>
      pure (selectBranch layout branches fallback environment value)
  | .listTake remaining, value => takeCell remaining value
  | .listIterateCurrent function current next, _ => do
      pure (give (← iterateCell function current next))
  | .listMap function, value => mapCell function value
  | .listZipLeft right, value => pure (zipLeft right value)
  | .listZipRight leftHead leftTail, value => zipRight leftHead leftTail value
  | .semigroupText left, value => pure (appendText left value)
  | .semigroupVector left, value => pure (appendVector left value)
  | .semigroupLeft left right, value => appendLeft left right value
  | .semigroupMaybe left leftPayload, value => appendMaybe left leftPayload value

namespace Running

/-- What running code does next. -/
def act (natives : Natives H) : Running H R → NativeAct H R
  | native operation captured => natives.act operation captured
  | append _ right => .force right
  | finished (.ok outcome) => .finish outcome
  | finished (.error error) => .fail error

/-- Running code with the result of its nested call. -/
def resume (natives : Natives H) (result : Except RuntimeError (Value H R)) :
    Running H R → Running H R
  | native operation captured =>
      let (operation, captured) := natives.resume operation captured result
      native operation captured
  | append left _ => finished (result.bind left.append)
  | finished outcome => finished outcome

/-- Running code with the thunk it allocated. -/
def allocated (natives : Natives H) (thunk : R) : Running H R → Running H R
  | native operation captured =>
      let (operation, captured) := natives.allocated operation captured thunk
      native operation captured
  | running => running

end Running

end Transitions

end HellRs.Runtime
