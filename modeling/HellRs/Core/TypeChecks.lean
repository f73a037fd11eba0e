import HellRs.Core.Program
import HellRs.Types.Display

/-! # Checks on single types

The helper functions of the checker that read the type arena. A missing result stands for a panic or
for a chain of applications or functions longer than the fuel.
-/

namespace HellRs.Core

open Types Builtins Loop

/-- The name, if the node is a type constructor. -/
def typeConstructorName : TypeNode → Option String
  | .constructor name _ => some name
  | _ => none

def constructorName (types : TypeArena) (ty : TypeId) : Option (Option String) :=
  (types.get ty).map typeConstructorName

/-- The head of a chain of applications and its arguments in order. -/
def applySpine (types : TypeArena) : ℕ → TypeId → List TypeId → Option (TypeId × List TypeId)
  | 0, _, _ => none
  | fuel + 1, ty, arguments => do
      match ← types.get ty with
      | .apply head argument => applySpine types fuel head (argument :: arguments)
      | _ => some (ty, arguments)

def typeHeadName (fuel : ℕ) (types : TypeArena) (ty : TypeId) : Option (Option String) := do
  let (head, _) ← applySpine types fuel ty []
  constructorName types head

/-- The arguments and the result of a chain of functions. -/
def functionTypeParts (types : TypeArena) : ℕ → TypeId → List TypeId → Option (List TypeId × TypeId)
  | 0, _, _ => none
  | fuel + 1, ty, arguments => do
      match ← types.get ty with
      | .function argument result => functionTypeParts types fuel result (arguments ++ [argument])
      | _ => some (arguments, ty)

/-- One turn of `type_is_closed`: the stack and the visited set. -/
def closedTurn (types : TypeArena) :
    List TypeId × List TypeId → Option (Turn (List TypeId × List TypeId) Bool)
  | ([], _) => some (.leave true)
  | (ty :: stack, visited) =>
      if ty ∈ visited then some (.again (stack, visited))
      else do
        match ← types.get ty with
        | .metavar _ => some (.leave false)
        | .bound _ => some (.leave false)
        | .apply left right => some (.again (right :: left :: stack, ty :: visited))
        | .function left right => some (.again (right :: left :: stack, ty :: visited))
        | .rowCons _ field tail => some (.again (tail :: field :: stack, ty :: visited))
        | _ => some (.again (stack, ty :: visited))

def typeIsClosed (fuel : ℕ) (types : TypeArena) (root : TypeId) : Option Bool :=
  run (closedTurn types) fuel ([root], [])

/-- The name of the type of a constant. -/
def Constant.typeName : Constant → String
  | .unit => "()"
  | .bool _ => "Bool"
  | .int _ => "Int"
  | .double _ => "Double"
  | .character _ => "Char"
  | .text _ => "Text"

/-- The names of the supported tuple constructors. -/
def tupleName : ℕ → Option String
  | 2 => some "(,)"
  | 3 => some "(,,)"
  | 4 => some "(,,,)"
  | _ => none

/-- `builtin_instance_head`: follow the projections of a constrained builtin into its type. -/
def builtinInstanceHead (fuel : ℕ) (types : TypeArena) (name : String) (ty : TypeId) :
    Option (Option TypeId) :=
  match instanceHeadProjection name with
  | none => some none
  | some projections => projections.foldlM (fun current projection =>
      match current with
      | none => some none
      | some current => do
          match projection with
          | .functionArgument index => do
              let (arguments, _) ← functionTypeParts types fuel current []
              some arguments[index]?
          | .functionResult => do
              let (_, result) ← functionTypeParts types fuel current []
              some (some result)
          | .applyFunction => do
              match ← types.get current with
              | .apply head _ => some (some head)
              | _ => some none
          | .applyArgument => do
              match ← types.get current with
              | .apply _ argument => some (some argument)
              | _ => some none) (some ty)

/-- The two sides of a function type. -/
def arrow (types : TypeArena) (ty : TypeId) : Option (Option (TypeId × TypeId)) :=
  (types.get ty).map fun
    | .function argument result => some (argument, result)
    | _ => none

/-- `is_some_and` on a function type. -/
def onArrow (types : TypeArena) (ty : TypeId) (test : TypeId → TypeId → Option Bool) : Option Bool := do
  match ← arrow types ty with
  | none => some false
  | some (argument, result) => test argument result

/-- The head constructor of a type has the given name. -/
def headIs (fuel : ℕ) (types : TypeArena) (ty : TypeId) (name : String) : Option Bool :=
  (typeHeadName fuel types ty).map fun head => head = some name

/-- The rendered type that the checker requires of a builtin with a closed scheme. -/
def expectedDisplay (name : String) : Option String :=
  if name ∈ ["Bool.False", "Bool.True"] then some "Bool"
  else if name = "Bool.not" then some "Bool -> Bool"
  else if name ∈ ["Int.plus", "Int.subtract", "Int.mult"] then some "Int -> Int -> Int"
  else if name = "Int.eq" then some "Int -> Int -> Bool"
  else if name = "Int.show" then some "Int -> Text"
  else if name = "Text.eq" then some "Text -> Text -> Bool"
  else if name = "Text.length" then some "Text -> Int"
  else if name = "Text.reverse" then some "Text -> Text"
  else if name ∈ ["Text.putStr", "Text.putStrLn"] then some "Text -> IO ()"
  else none

/-- Both sides of a conjunction, the second only when the first holds. -/
def both (first second : Option Bool) : Option Bool := do
  if ← first then second else some false

/-- The comparison for the builtins whose type is not compared with a rendered text. -/
def builtinShapeIsPlausible (fuel : ℕ) (types : TypeArena) (name : String) (ty : TypeId) :
    Option Bool :=
  if name ∈ ["Eq.eq", "Ord.lt", "Ord.gt"] then
    onArrow types ty fun left rest => onArrow types rest fun right result =>
      if left = right then (constructorName types result).map fun name => name = some "Bool"
      else some false
  else if name = "Function.id" then onArrow types ty fun argument result => some (argument = result)
  else if name = "Function.fix" then
    onArrow types ty fun callee result => onArrow types callee fun argument calleeResult =>
      some (argument = result ∧ calleeResult = result)
  else if name = "Error.error" then
    onArrow types ty fun argument _ =>
      (constructorName types argument).map fun name => name = some "Text"
  else if name = "hell:Hell.NilR" then headIs fuel types ty "hell:Hell.Record"
  else if name = "hell:Hell.ConsR" then
    onArrow types ty fun _ rest => onArrow types rest fun tail result =>
      both (headIs fuel types tail "hell:Hell.Record") (headIs fuel types result "hell:Hell.Record")
  else if name = "hell:Hell.LeftV" then
    onArrow types ty fun _ result => headIs fuel types result "hell:Hell.Variant"
  else if name = "hell:Hell.RightV" then
    onArrow types ty fun variant result =>
      both (headIs fuel types variant "hell:Hell.Variant")
        (headIs fuel types result "hell:Hell.Variant")
  else if name = "hell:Hell.NilA" then headIs fuel types ty "hell:Hell.Accessor"
  else if name = "hell:Hell.WildA" then
    onArrow types ty fun _ result => headIs fuel types result "hell:Hell.Accessor"
  else if name = "hell:Hell.ConsA" then
    onArrow types ty fun handler rest =>
      both ((arrow types handler).map Option.isSome) <| onArrow types rest fun tail result =>
        both (headIs fuel types tail "hell:Hell.Accessor")
          (headIs fuel types result "hell:Hell.Accessor")
  else if name = "hell:Hell.runAccessor" then
    onArrow types ty fun tagged rest =>
      both (headIs fuel types tagged "hell:Hell.Tagged") <| onArrow types rest fun accessor _ =>
        headIs fuel types accessor "hell:Hell.Accessor"
  else if name = "hell:Hell.Tagged" then
    onArrow types ty fun _ result => headIs fuel types result "hell:Hell.Tagged"
  else if name = "hell:Hell.Nullary" then
    (constructorName types ty).map fun name => name = some "hell:Hell.Nullary"
  else do
    -- Every other builtin is compared by the number of its arguments only.
    let (arguments, _) ← functionTypeParts types fuel ty []
    some (match lookup name with
      | some spec => arguments.length = spec.arity
      | none => false)

/-- `builtin_type_is_plausible`: what the checker compares of the type of a builtin. -/
def builtinTypeIsPlausible (fuel : ℕ) (types : TypeArena) (name : String) (ty : TypeId) :
    Option Bool := do
  let displayed ← types.display fuel ty
  match expectedDisplay name with
  | some text => some (displayed = text)
  | none => builtinShapeIsPlausible fuel types name ty

section Evidence

/-- Pending work of `validate_instance_evidence_graph`. -/
inductive EvidenceWork where
  | enter (id : InstanceEvidencePlanId)
  | leave (id : InstanceEvidencePlanId)
deriving DecidableEq, Repr

structure EvidenceState where
  work : List EvidenceWork
  active : List InstanceEvidencePlanId
  visited : List InstanceEvidencePlanId
deriving Repr

/-- `instance_head`: the constructor of a type and its arguments. -/
def instanceHead (fuel : ℕ) (types : TypeArena) (ty : TypeId) : Option (Option (String × List TypeId)) := do
  let (head, arguments) ← applySpine types fuel ty []
  let name ← constructorName types head
  some (name.map fun name => (name, arguments))

/-- The checks on one plan: its instance, its arity and the heads of its premises. -/
def planAgrees (fuel : ℕ) (types : TypeArena) (plans : List InstanceEvidencePlan)
    (plan : InstanceEvidencePlan) : Option Bool := do
  match ← instanceHead fuel types plan.head with
  | none => some false
  | some (target, arguments) =>
      match findInstance plan.typeClass target with
      | none => some false
      | some found =>
          if plan.resolution ≠ found.resolution ∨ found.resolution.headArity ≠ arguments.length ∨
              plan.premises.length ≠ found.resolution.premiseCount then some false
          else some ((plan.premises.zip arguments).all fun (premise, argument) =>
            match plans[premise]? with
            | none => false
            | some child => child.typeClass = plan.typeClass ∧ child.head = argument)

def evidenceTurn (fuel : ℕ) (types : TypeArena) (plans : List InstanceEvidencePlan)
    (state : EvidenceState) : Option (Turn EvidenceState (Option (List InstanceEvidencePlanId))) :=
  match state.work with
  | [] => some (.leave (some state.visited))
  | .leave id :: work =>
      if id ∈ state.active then some (.again { state with work, active := state.active.erase id })
      else some (.leave none)
  | .enter id :: work =>
      if id ∈ state.active then some (.leave none)
      else if id ∈ state.visited then some (.again { state with work })
      else
        match plans[id]? with
        | none => some (.leave none)
        | some plan => do
            if ← planAgrees fuel types plans plan then
              some (.again {
                work := plan.premises.map .enter ++ .leave id :: work
                active := id :: state.active
                visited := id :: state.visited })
            else some (.leave none)

/-- `validate_instance_evidence_graph`: the plans reachable from a root, if all agree. -/
def validateInstanceEvidenceGraph (fuel : ℕ) (types : TypeArena) (plans : List InstanceEvidencePlan)
    (root : InstanceEvidencePlanId) : Option (Option (List InstanceEvidencePlanId)) :=
  run (evidenceTurn fuel types plans) fuel ⟨[.enter root], [], []⟩

def validateInstanceEvidencePlan (fuel : ℕ) (types : TypeArena) (plans : List InstanceEvidencePlan)
    (evidence : ClassEvidence) : Option Bool :=
  match plans[evidence.plan]? with
  | none => some false
  | some root =>
      if root.typeClass = evidence.typeClass ∧ root.head = evidence.head then do
        some (← validateInstanceEvidenceGraph fuel types plans evidence.plan).isSome
      else some false

/-- The plans that the builtin nodes of a program name, in node order. -/
def evidenceRoots (program : CoreProgram) : List InstanceEvidencePlanId :=
  program.nodes.filterMap fun node =>
    match node.kind with
    | .builtin _ (some evidence) => some evidence.plan
    | _ => none

/-- The plans reachable from any of the roots; a root after the first that fails ends the check. -/
def reachableEvidence (fuel : ℕ) (program : CoreProgram) :
    List InstanceEvidencePlanId → List InstanceEvidencePlanId →
      Option (Option (List InstanceEvidencePlanId))
  | [], reachable => some (some reachable)
  | root :: roots, reachable => do
      match ← validateInstanceEvidenceGraph fuel program.types program.instanceEvidence root with
      | none => some none
      | some plans =>
          reachableEvidence fuel program roots (reachable ++ plans.filter fun plan => plan ∉ reachable)

/-- `instance_evidence_inventory_is_exact`. -/
def instanceEvidenceInventoryIsExact (fuel : ℕ) (program : CoreProgram) : Option Bool :=
  match evidenceRoots program with
  | [] => some program.instanceEvidence.isEmpty
  | first :: roots => do
      let plans ← validateInstanceEvidenceGraph fuel program.types program.instanceEvidence first
      match ← reachableEvidence fuel program roots (plans.getD []) with
      | none => some false
      | some reachable => some (decide (reachable.length = program.instanceEvidence.length ∧
          (program.instanceEvidence.map fun plan => (plan.typeClass, plan.head)).Nodup))

end Evidence

end HellRs.Core
