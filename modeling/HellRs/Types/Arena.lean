import HellRs.Lib.Loop

/-! # Kind and type arenas

Kinds and types are hash-consed nodes in two growing vectors. An identifier is a position in its
vector, so the `interned` map of the source is the search for an equal node; metavariable nodes are
never shared. `kindOf` is the explicit work list of `TypeArena::kind_of`. A missing result (`none`)
stands for a panic: an index out of bounds, an overflow of the 32-bit identifiers, or an empty
result stack.
-/

namespace HellRs.Types

open Loop

abbrev KindId := ℕ
abbrev TypeId := ℕ
abbrev MetaId := ℕ

inductive KindNode where
  | type
  | constraint
  | symbol
  | row
  | streamType
  | opaqueKind (name : String)
  | arrow (argument result : KindId)
deriving DecidableEq, Repr

/-- Number of identifiers a 32-bit arena can allocate. -/
def idLimit : ℕ := 2 ^ 32

structure KindArena where
  nodes : List KindNode
deriving Repr

namespace KindArena

def TYPE : KindId := 0
def CONSTRAINT : KindId := 1
def SYMBOL : KindId := 2
def ROW : KindId := 3
def STREAM_TYPE : KindId := 4

/-- `KindArena::default`. -/
def default : KindArena := ⟨[.type, .constraint, .symbol, .row, .streamType]⟩

def get (kinds : KindArena) (id : KindId) : Option KindNode := kinds.nodes[id]?

def intern (kinds : KindArena) (node : KindNode) : Option (KindId × KindArena) :=
  match kinds.nodes.idxOf? node with
  | some id => some (id, kinds)
  | none =>
      if kinds.nodes.length < idLimit then some (kinds.nodes.length, ⟨kinds.nodes ++ [node]⟩)
      else none

end KindArena

inductive TypeNode where
  | metavar (id : MetaId)
  | bound (index : ℕ)
  | constructor (name : String) (kind : KindId)
  | apply (function argument : TypeId)
  | function (argument result : TypeId)
  | symbol (text : String)
  | rowNil
  | rowCons (label : String) (field tail : TypeId)
deriving DecidableEq, Repr

/-- The identifiers a node mentions. -/
def TypeNode.children : TypeNode → List TypeId
  | .apply head argument => [head, argument]
  | .function argument result => [argument, result]
  | .rowCons _ field tail => [field, tail]
  | _ => []

/-- `matches!(node, TypeNode::Meta(_))`. -/
def TypeNode.isMeta : TypeNode → Bool
  | .metavar _ => true
  | _ => false

inductive TypeError where
  | mismatch (left right : TypeId)
  | kindMismatch (expected actual : KindId)
  | notATypeConstructor (kind : KindId)
  | occurs (metavar : MetaId) (within : TypeId)
  | ambiguous (metavar : MetaId)
  | internal (message : String)
deriving DecidableEq, Repr

structure TypeArena where
  nodes : List TypeNode
deriving DecidableEq, Repr

namespace TypeArena

/-- `TypeArena::default`. -/
def default : TypeArena := ⟨[]⟩

def get (arena : TypeArena) (id : TypeId) : Option TypeNode := arena.nodes[id]?

/-- The `interned` map: the identifier of an equal node that is no metavariable. -/
def interned (arena : TypeArena) (node : TypeNode) : Option TypeId :=
  if node.isMeta then none else arena.nodes.idxOf? node

def intern (arena : TypeArena) (node : TypeNode) : Option (TypeId × TypeArena) :=
  match arena.interned node with
  | some id => some (id, arena)
  | none =>
      if arena.nodes.length < idLimit then some (arena.nodes.length, ⟨arena.nodes ++ [node]⟩)
      else none

def apply (arena : TypeArena) (constructor argument : TypeId) : Option (TypeId × TypeArena) :=
  arena.intern (.apply constructor argument)

def function (arena : TypeArena) (argument result : TypeId) : Option (TypeId × TypeArena) :=
  arena.intern (.function argument result)

/-- Pending work of `kind_of`. -/
inductive KindWork where
  | visit (ty : TypeId)
  | function
  | row
  | apply
deriving DecidableEq, Repr

/-- The first of two required kinds that the actual one differs from. -/
def requireKinds (argument argumentKind result resultKind : KindId) : Option TypeError :=
  if argument ≠ argumentKind then some (.kindMismatch argumentKind argument)
  else if result ≠ resultKind then some (.kindMismatch resultKind result)
  else none

/-- One turn of the work list of `kind_of`; the heads of the lists are the tops of the stacks. -/
def kindTurn (arena : TypeArena) (kinds : KindArena) (metaKinds : MetaId → Option KindId) :
    List KindWork × List KindId → Option (Turn (List KindWork × List KindId) (Except TypeError KindId))
  | ([], results) => do
      let kind ← results.head?
      some (.leave (.ok kind))
  | (.visit ty :: work, results) => do
      match ← arena.get ty with
      | .metavar id => do
          let kind ← metaKinds id
          some (.again (work, kind :: results))
      | .bound _ => some (.leave (.error (.internal "unsubstituted bound type")))
      | .constructor _ kind => some (.again (work, kind :: results))
      | .function argument result =>
          some (.again (.visit argument :: .visit result :: .function :: work, results))
      | .symbol _ => some (.again (work, KindArena.SYMBOL :: results))
      | .rowNil => some (.again (work, KindArena.ROW :: results))
      | .rowCons _ field tail => some (.again (.visit field :: .visit tail :: .row :: work, results))
      | .apply function argument =>
          some (.again (.visit function :: .visit argument :: .apply :: work, results))
  | (.function :: work, result :: argument :: results) =>
      match requireKinds argument KindArena.TYPE result KindArena.TYPE with
      | some failure => some (.leave (.error failure))
      | none => some (.again (work, KindArena.TYPE :: results))
  | (.row :: work, tail :: field :: results) =>
      match requireKinds field KindArena.TYPE tail KindArena.ROW with
      | some failure => some (.leave (.error failure))
      | none => some (.again (work, KindArena.ROW :: results))
  | (.apply :: work, argument :: function :: results) => do
      match ← kinds.get function with
      | .arrow expected result =>
          if expected = argument then some (.again (work, result :: results))
          else some (.leave (.error (.kindMismatch expected argument)))
      | _ => some (.leave (.error (.notATypeConstructor function)))
  | (_, _) => none

/-- `TypeArena::kind_of`. -/
def kindOf (fuel : ℕ) (arena : TypeArena) (kinds : KindArena) (metaKinds : MetaId → Option KindId)
    (ty : TypeId) : Option (Except TypeError KindId) :=
  run (arena.kindTurn kinds metaKinds) fuel ([.visit ty], [])

end TypeArena

end HellRs.Types
