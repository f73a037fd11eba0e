import HellRs.Builtins.Registry
import HellRs.Types.Arena

/-! # Typed core programs

A program is a vector of nodes that refer to each other by position, with a type arena and the
class-instance evidence selected by the compiler. Nothing here is checked: children may be shared,
cyclic or out of bounds.
-/

namespace HellRs.Core

open Types Builtins

abbrev CoreId := ℕ
abbrev InstanceEvidencePlanId := ℕ

structure Span where
  source : ℕ
  start : ℕ
  stop : ℕ
deriving DecidableEq, Repr

inductive Projection where
  | identity
  | tupleElement (arity index : ℕ)
deriving DecidableEq, Repr

/-- Constants; a double is given by its bits. -/
inductive Constant where
  | unit
  | bool (value : Bool)
  | int (value : ℤ)
  | double (bits : ℕ)
  | character (value : Char)
  | text (value : String)
deriving DecidableEq, Repr

structure RecordFieldLayout where
  name : String
  ty : TypeId
deriving DecidableEq, Repr

structure RecordLayout where
  typeName : String
  constructor : String
  fields : List RecordFieldLayout
deriving DecidableEq, Repr

structure VariantConstructorLayout where
  name : String
  payload : Option TypeId
deriving DecidableEq, Repr

structure VariantLayout where
  typeName : String
  constructors : List VariantConstructorLayout
deriving DecidableEq, Repr

structure CaseBranch where
  constructorIndex : ℕ
  payloadType : Option TypeId
  body : CoreId
deriving DecidableEq, Repr

/-- Closed dictionary evidence attached to a constrained primitive. -/
structure ClassEvidence where
  typeClass : TypeClass
  head : TypeId
  plan : InstanceEvidencePlanId
deriving DecidableEq, Repr

structure InstanceEvidencePlan where
  typeClass : TypeClass
  head : TypeId
  resolution : InstanceResolution
  premises : List InstanceEvidencePlanId
deriving DecidableEq, Repr

inductive CoreKind where
  | boundVar (deBruijn : ℕ) (projection : Projection)
  | lambda (parameterType : TypeId) (body : CoreId)
  | apply (function argument : CoreId)
  | constant (value : Constant)
  | builtin (builtin : BuiltinId) (evidence : Option ClassEvidence)
  | tuple (elements : List CoreId)
  | list (elements : List CoreId)
  | record (layout : RecordLayout) (fields : List CoreId)
  | recordGet (layout : RecordLayout) (fieldIndex : ℕ) (record : CoreId)
  | recordSet (layout : RecordLayout) (fieldIndex : ℕ) (value record : CoreId)
  | recordModify (layout : RecordLayout) (fieldIndex : ℕ) (function record : CoreId)
  | variant (layout : VariantLayout) (constructorIndex : ℕ) (payload : Option CoreId)
  | case (scrutinee : CoreId) (layout : VariantLayout) (branches : List CaseBranch)
      (fallback : Option CoreId)
deriving DecidableEq, Repr

/-- The children of a node in evaluation order, with the types of the locals they bind. -/
def CoreKind.scopedChildren : CoreKind → List (CoreId × List TypeId)
  | .lambda parameterType body => [(body, [parameterType])]
  | .apply callee argument => [(callee, []), (argument, [])]
  | .tuple elements => elements.map fun child => (child, [])
  | .list elements => elements.map fun child => (child, [])
  | .record _ fields => fields.map fun child => (child, [])
  | .recordGet _ _ child => [(child, [])]
  | .recordSet _ _ value child => [(value, []), (child, [])]
  | .recordModify _ _ callee child => [(callee, []), (child, [])]
  | .variant _ _ payload => payload.toList.map fun child => (child, [])
  | .case scrutinee _ branches fallback =>
      (scrutinee, []) :: branches.map (fun branch => (branch.body, branch.payloadType.toList)) ++
        fallback.toList.map fun child => (child, [])
  | _ => []

/-- The children of a node in evaluation order. -/
def CoreKind.children (kind : CoreKind) : List CoreId := kind.scopedChildren.map Prod.fst

/-- The record layout a node names. -/
def CoreKind.recordLayout : CoreKind → Option RecordLayout
  | .record layout _ => some layout
  | .recordGet layout _ _ => some layout
  | .recordSet layout _ _ _ => some layout
  | .recordModify layout _ _ _ => some layout
  | _ => none

/-- The variant layout a node names. -/
def CoreKind.variantLayout : CoreKind → Option VariantLayout
  | .variant layout _ _ => some layout
  | .case _ layout _ _ => some layout
  | _ => none

structure CoreNode where
  ty : TypeId
  span : Span
  kind : CoreKind
deriving DecidableEq, Repr

structure CoreProgram where
  root : CoreId
  nodes : List CoreNode
  types : TypeArena
  mainType : TypeId
  instanceEvidence : List InstanceEvidencePlan

/-- `program.nodes.get(id)`. -/
def CoreProgram.node (program : CoreProgram) (id : CoreId) : Option CoreNode := program.nodes[id]?

structure VerificationError where
  code : String
  message : String
  node : Option CoreId
  span : Option Span
deriving DecidableEq, Repr

/-- `VerificationError::at`. -/
def VerificationError.at (id : CoreId) (node : CoreNode) (message : String) : VerificationError :=
  ⟨"H0703", message, some id, some node.span⟩

end HellRs.Core
