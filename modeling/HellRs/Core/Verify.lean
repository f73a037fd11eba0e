import HellRs.Core.TypeChecks

/-! # The independent checker

`verify` in its four passes: one layout for each nominal name, a tree of nodes under the root, the
stored type of every node from the types of its children, and `IO ()` at the root. Vectors of length
`node_count` are functions of the node identifier; every index into them is checked by the second
pass before the third reads it. A missing result stands for a panic or a loop that does not end.
-/

namespace HellRs.Core

open Types Builtins Loop

/-- The program handle that the runtime accepts. -/
structure ExecutableProgram where
  root : CoreId
  nodes : List CoreNode
  types : TypeArena
  mainType : TypeId
  instanceEvidence : List InstanceEvidencePlan
deriving DecidableEq

/-- A result of the checker: an error or a value. -/
abbrev Checked := Except VerificationError

/-- `return Err(VerificationError::at(id, node, message))`. -/
def reject {α : Type} (id : CoreId) (node : CoreNode) (message : String) :
    Option (Checked α) :=
  some (.error (.at id node message))

def accept {α : Type} (value : α) : Option (Checked α) := some (.ok value)

section Layouts

/-- Insert a layout under its nominal name and compare it with the one it replaces. -/
def insertLayout {L : Type} [DecidableEq L] (table : List (String × L)) (name : String) (layout : L) :
    Bool × List (String × L) :=
  ((table.lookup name).all fun previous => previous = layout, (name, layout) :: table)

/-- The two layout tables. -/
structure LayoutTables where
  records : List (String × RecordLayout)
  variants : List (String × VariantLayout)

/-- One node of the layout scan. -/
def scanNode (tables : LayoutTables) (id : CoreId) (node : CoreNode) :
    Checked LayoutTables := do
  let tables ← match node.kind.recordLayout with
    | none => pure tables
    | some layout =>
        let (agrees, records) := insertLayout tables.records layout.typeName layout
        if agrees then pure { tables with records }
        else throw (.at id node "conflicting record layouts share one nominal type")
  match node.kind.variantLayout with
  | none => pure tables
  | some layout =>
      let (agrees, variants) := insertLayout tables.variants layout.typeName layout
      if agrees then pure { tables with variants }
      else throw (.at id node "conflicting variant layouts share one nominal type")

/-- The layout scan over the remaining nodes, from position `id`. -/
def scanLayouts : LayoutTables → CoreId → List CoreNode → Checked LayoutTables
  | tables, _, [] => pure tables
  | tables, id, node :: nodes => do
      let tables ← scanNode tables id node
      scanLayouts tables (id + 1) nodes

end Layouts

section Graph

inductive Color where
  | white
  | gray
  | black
deriving DecidableEq, Repr

/-- The state of the graph pass: the number of edges into each node, its color, and the stack of
nodes to enter (`false`) or to leave (`true`). -/
structure GraphState where
  incoming : CoreId → ℕ
  colors : CoreId → Color
  stack : List (CoreId × Bool)

/-- The edge from a node to a child. -/
def pushChild (program : CoreProgram) (id : CoreId) (node : CoreNode) (state : GraphState)
    (child : CoreId) : Checked GraphState :=
  match program.node child with
  | none => .error (.at id node "core edge is out of bounds")
  | some childNode =>
      let count := state.incoming child + 1
      if 1 < count then
        .error (.at child childNode "shared core node lacks an environment capture key")
      else .ok { state with
        incoming := Function.update state.incoming child count
        stack := (child, false) :: state.stack }

/-- One turn of the graph pass. The first child ends on top of the stack. -/
def graphTurn (program : CoreProgram) (state : GraphState) :
    Turn GraphState (Checked Unit) :=
  match state.stack with
  | [] => .leave (.ok ())
  | (id, exiting) :: stack =>
      match program.node id with
      | none => .leave (.error ⟨"H0703", "core edge is out of bounds", some id, none⟩)
      | some node =>
          if exiting then
            .again { state with colors := Function.update state.colors id .black, stack }
          else
            match state.colors id with
            | .gray => .leave (.error (.at id node "cyclic core graph"))
            | .black => .again { state with stack }
            | .white =>
                let entered := { state with
                  colors := Function.update state.colors id .gray
                  stack := (id, true) :: stack }
                match node.kind.children.reverse.foldlM (pushChild program id node) entered with
                | .error failure => .leave (.error failure)
                | .ok next => .again next

def checkGraph (fuel : ℕ) (program : CoreProgram) : Option (Checked Unit) :=
  run (fun state => some (graphTurn program state)) fuel
    ⟨fun _ => 0, fun _ => .white, [(program.root, false)]⟩

end Graph

section Types

/-- The types of the nodes that have been left. -/
abbrev Computed := CoreId → Option TypeId

/-- `locals[locals.len() - (de_bruijn + 1)]`, if that is an index. -/
def localAt (locals : List TypeId) (deBruijn : ℕ) : Option TypeId :=
  if deBruijn + 1 ≤ locals.length then locals[locals.length - (deBruijn + 1)]? else none

def inferBoundVar (fuel : ℕ) (types : TypeArena) (locals : List TypeId) (id : CoreId) (node : CoreNode)
    (deBruijn : ℕ) (projection : Projection) : Option (Checked TypeId) :=
  match localAt locals deBruijn with
  | none => reject id node "de Bruijn index is out of scope"
  | some ty =>
      match projection with
      | .identity => accept ty
      | .tupleElement arity index => do
          let (head, arguments) ← applySpine types fuel ty []
          match tupleName arity with
          | none => reject id node "tuple projection arity is invalid"
          | some expected =>
              if (← constructorName types head) ≠ some expected ∨ arguments.length ≠ arity then
                reject id node "tuple projection does not match local type"
              else
                match arguments[index]? with
                | none => reject id node "tuple projection does not match local type"
                | some argument => accept argument

def inferLambda (types : TypeArena) (computed : Computed) (id : CoreId) (node : CoreNode)
    (parameterType : TypeId) (body : CoreId) : Option (Checked TypeId) :=
  match computed body with
  | none => reject id node "lambda body was not verified"
  | some bodyType => do
      if (← types.get node.ty) = .function parameterType bodyType then accept node.ty
      else reject id node "lambda type is inconsistent"

def inferApply (types : TypeArena) (computed : Computed) (id : CoreId) (node : CoreNode)
    (callee argument : CoreId) : Option (Checked TypeId) :=
  match computed callee with
  | none => reject id node "application function was not verified"
  | some functionType =>
      match computed argument with
      | none => reject id node "application argument was not verified"
      | some argumentType => do
          if (← types.get functionType) = .function argumentType node.ty then accept node.ty
          else reject id node "application edge does not reconstruct its stored type"

def inferConstant (types : TypeArena) (id : CoreId) (node : CoreNode) (value : Constant) :
    Option (Checked TypeId) := do
  if (← constructorName types node.ty) = some value.typeName then accept node.ty
  else reject id node "constant type is inconsistent"

/-- Whether the evidence of a builtin node fits its class. -/
def evidenceAgrees (fuel : ℕ) (program : CoreProgram) (name : String) (ty : TypeId) :
    Option TypeClass → Option ClassEvidence → Option Bool
  | none, none => some true
  | some expected, some actual =>
      both (some (expected = actual.typeClass)) <|
        both ((builtinInstanceHead fuel program.types name ty).map fun head => head = some actual.head) <|
          validateInstanceEvidencePlan fuel program.types program.instanceEvidence actual
  | _, _ => some false

/-- A registered builtin always has an implementation and a scheme. -/
def inferBuiltin (fuel : ℕ) (program : CoreProgram) (id : CoreId) (node : CoreNode)
    (builtin : BuiltinId) (evidence : Option ClassEvidence) : Option (Checked TypeId) :=
  match registry[builtin]? with
  | none => reject id node "unknown built-in id"
  | some spec => do
      if ← builtinTypeIsPlausible fuel program.types spec.name node.ty then do
        if ← evidenceAgrees fuel program spec.name node.ty (builtinTypeClass spec.name) evidence then
          accept node.ty
        else reject id node "built-in class evidence is absent, mismatched, or unresolved"
      else reject id node "built-in type does not instantiate its registry scheme"

def inferTuple (fuel : ℕ) (types : TypeArena) (computed : Computed) (id : CoreId) (node : CoreNode)
    (elements : List CoreId) : Option (Checked TypeId) :=
  match tupleName elements.length with
  | none => reject id node "tuple arity invariant failed"
  | some expected => do
      let (head, arguments) ← applySpine types fuel node.ty []
      if (← constructorName types head) ≠ some expected ∨ arguments.length ≠ elements.length then
        reject id node "tuple node has non-tuple type"
      else if (elements.zip arguments).all fun (child, argument) => computed child = some argument then
        accept node.ty
      else reject id node "tuple element type mismatch"

def inferList (types : TypeArena) (computed : Computed) (id : CoreId) (node : CoreNode)
    (elements : List CoreId) : Option (Checked TypeId) := do
  match ← types.get node.ty with
  | .apply head item => do
      if (← constructorName types head) ≠ some "[]" then reject id node "list node has non-list type"
      else if elements.all fun child => computed child = some item then accept node.ty
      else reject id node "list element type mismatch"
  | _ => reject id node "list node has non-list type"

def inferRecord (fuel : ℕ) (types : TypeArena) (computed : Computed) (id : CoreId) (node : CoreNode)
    (layout : RecordLayout) (fields : List CoreId) : Option (Checked TypeId) := do
  if (← typeHeadName fuel types node.ty) ≠ some layout.typeName ∨
      fields.length ≠ layout.fields.length then
    reject id node "record layout does not match its nominal type"
  else if (fields.zip layout.fields).all fun (child, field) => computed child = some field.ty then
    accept node.ty
  else reject id node "record field type mismatch"

def inferRecordGet (fuel : ℕ) (types : TypeArena) (computed : Computed) (id : CoreId) (node : CoreNode)
    (layout : RecordLayout) (fieldIndex : ℕ) (record : CoreId) : Option (Checked TypeId) :=
  match layout.fields[fieldIndex]? with
  | none => reject id node "record field index is out of bounds"
  | some field =>
      match computed record with
      | none => reject id node "record getter is inconsistent with its layout"
      | some recordType => do
          if (← typeHeadName fuel types recordType) ≠ some layout.typeName ∨ node.ty ≠ field.ty then
            reject id node "record getter is inconsistent with its layout"
          else accept node.ty

def inferRecordSet (fuel : ℕ) (types : TypeArena) (computed : Computed) (id : CoreId) (node : CoreNode)
    (layout : RecordLayout) (fieldIndex : ℕ) (value record : CoreId) : Option (Checked TypeId) :=
  match layout.fields[fieldIndex]? with
  | none => reject id node "record field index is out of bounds"
  | some field => do
      if computed record ≠ some node.ty ∨
          (← typeHeadName fuel types node.ty) ≠ some layout.typeName ∨
          computed value ≠ some field.ty then
        reject id node "record setter is inconsistent with its layout"
      else accept node.ty

/-- The function of a modifier maps the type of the field to itself. -/
def validModifier (types : TypeArena) (field : TypeId) : Option TypeId → Option Bool
  | none => some false
  | some ty => (types.get ty).map fun shape => shape = .function field field

def inferRecordModify (fuel : ℕ) (types : TypeArena) (computed : Computed) (id : CoreId)
    (node : CoreNode) (layout : RecordLayout) (fieldIndex : ℕ) (callee record : CoreId) :
    Option (Checked TypeId) :=
  match layout.fields[fieldIndex]? with
  | none => reject id node "record field index is out of bounds"
  | some field => do
      if computed record ≠ some node.ty ∨
          (← typeHeadName fuel types node.ty) ≠ some layout.typeName ∨
          !(← validModifier types field.ty (computed callee)) then
        reject id node "record modifier is inconsistent with its layout"
      else accept node.ty

def inferVariant (fuel : ℕ) (types : TypeArena) (computed : Computed) (id : CoreId) (node : CoreNode)
    (layout : VariantLayout) (constructorIndex : ℕ) (payload : Option CoreId) : Option (Checked TypeId) := do
  if (← typeHeadName fuel types node.ty) ≠ some layout.typeName then
    reject id node "variant layout does not match its nominal type"
  else
    match layout.constructors[constructorIndex]? with
    | none => reject id node "variant constructor index is out of bounds"
    | some constructor =>
        match constructor.payload, payload with
        | none, none => accept node.ty
        | some expected, some child =>
            if computed child = some expected then accept node.ty
            else reject id node "variant payload type mismatch"
        | _, _ => reject id node "variant payload type mismatch"

/-- The branches of a case in order; `seen` are the constructors covered so far. -/
def checkBranches (computed : Computed) (id : CoreId) (node : CoreNode) (layout : VariantLayout) :
    List ℕ → List CaseBranch → Checked (List ℕ)
  | seen, [] => .ok seen
  | seen, branch :: branches =>
      match layout.constructors[branch.constructorIndex]? with
      | none => .error (.at id node "case constructor index is out of bounds")
      | some constructor =>
          if branch.constructorIndex ∈ seen ∨ constructor.payload ≠ branch.payloadType ∨
              computed branch.body ≠ some node.ty then
            .error (.at id node "case branch is inconsistent with its layout")
          else checkBranches computed id node layout (branch.constructorIndex :: seen) branches

def inferCase (fuel : ℕ) (types : TypeArena) (computed : Computed) (id : CoreId) (node : CoreNode)
    (scrutinee : CoreId) (layout : VariantLayout) (branches : List CaseBranch)
    (fallback : Option CoreId) : Option (Checked TypeId) :=
  match computed scrutinee with
  | none => reject id node "case scrutinee was not verified"
  | some scrutineeType => do
      if (← typeHeadName fuel types scrutineeType) ≠ some layout.typeName then
        reject id node "case scrutinee does not match its variant layout"
      else
        match checkBranches computed id node layout [] branches with
        | .error failure => some (.error failure)
        | .ok seen =>
            match fallback with
            | some child =>
                if computed child ≠ some node.ty then
                  reject id node "case default branch type mismatch"
                else accept node.ty
            | none =>
                if seen.length ≠ layout.constructors.length then
                  reject id node "non-exhaustive user case"
                else accept node.ty

/-- The recomputed type of a node whose children have been left. -/
def inferNode (fuel : ℕ) (program : CoreProgram) (computed : Computed) (locals : List TypeId)
    (id : CoreId) (node : CoreNode) : Option (Checked TypeId) :=
  match node.kind with
  | .boundVar deBruijn projection =>
      inferBoundVar fuel program.types locals id node deBruijn projection
  | .lambda parameterType body => inferLambda program.types computed id node parameterType body
  | .apply callee argument => inferApply program.types computed id node callee argument
  | .constant value => inferConstant program.types id node value
  | .builtin builtin evidence => inferBuiltin fuel program id node builtin evidence
  | .tuple elements => inferTuple fuel program.types computed id node elements
  | .list elements => inferList program.types computed id node elements
  | .record layout fields => inferRecord fuel program.types computed id node layout fields
  | .recordGet layout fieldIndex record =>
      inferRecordGet fuel program.types computed id node layout fieldIndex record
  | .recordSet layout fieldIndex value record =>
      inferRecordSet fuel program.types computed id node layout fieldIndex value record
  | .recordModify layout fieldIndex callee record =>
      inferRecordModify fuel program.types computed id node layout fieldIndex callee record
  | .variant layout constructorIndex payload =>
      inferVariant fuel program.types computed id node layout constructorIndex payload
  | .case scrutinee layout branches fallback =>
      inferCase fuel program.types computed id node scrutinee layout branches fallback

/-- A node to enter (`false`) or to leave (`true`) under the types of its locals, the innermost
last. -/
abbrev TypeWork := CoreId × Bool × List TypeId

/-- The children of a node, the first on top of the stack. -/
def enterChildren (kind : CoreKind) (locals : List TypeId) : List TypeWork :=
  kind.scopedChildren.map fun (child, bound) => (child, false, locals ++ bound)

/-- One turn of the type pass. -/
def typeTurn (fuel : ℕ) (program : CoreProgram) :
    Computed × List TypeWork → Option (Turn (Computed × List TypeWork) (Checked Computed))
  | (computed, []) => some (.leave (.ok computed))
  | (computed, (id, visited, locals) :: stack) =>
      match program.node id with
      | none => some (.leave (.error ⟨"H0703", "core edge is out of bounds", some id, none⟩))
      | some node => do
          if !(← typeIsClosed fuel program.types node.ty) then
            some (.leave (.error (.at id node "core node carries an open type")))
          else if !visited then
            some (.again (computed, enterChildren node.kind locals ++ (id, true, locals) :: stack))
          else do
            match ← inferNode fuel program computed locals id node with
            | .error failure => some (.leave (.error failure))
            | .ok inferred =>
                if inferred ≠ node.ty then
                  some (.leave (.error (.at id node "stored type differs from recomputed type")))
                else some (.again (Function.update computed id (some inferred), stack))

def checkTypes (fuel : ℕ) (program : CoreProgram) : Option (Checked Computed) :=
  run (typeTurn fuel program) fuel (fun _ => none, [(program.root, false, [])])

end Types

/-- The last pass: the root has the declared main type, the evidence is exact, and main is
`IO ()`. -/
def checkMain (fuel : ℕ) (program : CoreProgram) (root : CoreNode) (computed : Computed) :
    Option (Checked Unit) := do
  if computed program.root ≠ some program.mainType then
    reject program.root root "program root differs from declared main type"
  else if !(← instanceEvidenceInventoryIsExact fuel program) then
    reject program.root root
      "class-instance evidence inventory is noncanonical or contains unused plans"
  else do
    match ← program.types.get program.mainType with
    | .apply io unit => do
        if (← constructorName program.types io) ≠ some "IO" ∨
            (← constructorName program.types unit) ≠ some "()" then
          reject program.root root "main is not `IO ()`"
        else accept ()
    | _ => reject program.root root "main is not `IO ()`"

/-- The sealed program. -/
def CoreProgram.seal (program : CoreProgram) : ExecutableProgram :=
  ⟨program.root, program.nodes, program.types, program.mainType, program.instanceEvidence⟩

def verify (fuel : ℕ) (program : CoreProgram) : Option (Checked ExecutableProgram) :=
  match program.node program.root with
  | none => some (.error ⟨"H0703", "root core id is out of bounds", some program.root, none⟩)
  | some root =>
      match scanLayouts ⟨[], []⟩ 0 program.nodes with
      | .error failure => some (.error failure)
      | .ok _ => do
          match ← checkGraph fuel program with
          | .error failure => some (.error failure)
          | .ok () => do
              match ← checkTypes fuel program with
              | .error failure => some (.error failure)
              | .ok computed => do
                  match ← checkMain fuel program root computed with
                  | .error failure => some (.error failure)
                  | .ok () => accept program.seal

/-- A program that the checker has accepted; there is no other way to obtain one. -/
structure VerifiedProgram where
  executable : ExecutableProgram
  accepted : ∃ fuel program, verify fuel program = some (.ok executable)

end HellRs.Core
