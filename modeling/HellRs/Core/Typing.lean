import HellRs.Core.Verify

/-! # The core typing rules

`HasType` derives the stored type of a node from derivations for its children under the types of
the enclosing binders; only a builtin node contributes a type of its own. `Enclosed` lists the nodes
that the root reaches, each with the binders on the way, and `follow` walks from a node along
positions of children.
-/

namespace HellRs.Core

open Types Builtins

variable {program : CoreProgram}

/-- A type is its head applied to the arguments in order. -/
inductive Spine (types : TypeArena) : TypeId → TypeId → List TypeId → Prop
  | head {ty : TypeId} : Spine types ty ty []
  | apply {ty function argument head : TypeId} {arguments : List TypeId}
      (here : types.get ty = some (.apply function argument))
      (inner : Spine types function head arguments) : Spine types ty head (arguments ++ [argument])

/-- The type is a constructor of this name. -/
def ConstructorNamed (types : TypeArena) (ty : TypeId) (name : String) : Prop :=
  ∃ kind, types.get ty = some (.constructor name kind)

/-- The type is a constructor of this name applied to arguments. -/
def HeadNamed (types : TypeArena) (ty : TypeId) (name : String) : Prop :=
  ∃ head arguments, Spine types ty head arguments ∧ ConstructorNamed types head name

/-- The type is the tuple of the given types. -/
def TupleOf (types : TypeArena) (ty : TypeId) (arguments : List TypeId) : Prop :=
  ∃ head name, Spine types ty head arguments ∧ tupleName arguments.length = some name ∧
    ConstructorNamed types head name

/-- The type of a local: the innermost binder has index zero. -/
def LocalType (locals : List TypeId) (deBruijn : ℕ) (ty : TypeId) : Prop :=
  deBruijn < locals.length ∧ locals.reverse[deBruijn]? = some ty

/-- What a variable with a projection yields from its local. -/
inductive Projects (types : TypeArena) : TypeId → Projection → TypeId → Prop
  | identity {ty : TypeId} : Projects types ty .identity ty
  | tupleElement {ty argument : TypeId} {arguments : List TypeId} {index : ℕ}
      (tuple : TupleOf types ty arguments) (here : arguments[index]? = some argument) :
      Projects types ty (.tupleElement arguments.length index) argument

/-- Every constructor has exactly one branch, or none and the fallback stands in for it. -/
structure CoversOnce (layout : VariantLayout) (branches : List CaseBranch) (fallback : Option CoreId) :
    Prop where
  known : ∀ branch ∈ branches, ∃ constructor,
    layout.constructors[branch.constructorIndex]? = some constructor ∧
      constructor.payload = branch.payloadType
  once : (branches.map CaseBranch.constructorIndex).Nodup
  every : ∀ index < layout.constructors.length,
    index ∈ branches.map CaseBranch.constructorIndex ∨ fallback.isSome

/-- The checks on a builtin node: it is registered, its type is plausible and its evidence agrees. -/
def Admitted (program : CoreProgram) (builtin : BuiltinId) (evidence : Option ClassEvidence)
    (ty : TypeId) : Prop :=
  ∃ fuel spec, registry[builtin]? = some spec ∧
    builtinTypeIsPlausible fuel program.types spec.name ty = some true ∧
    evidenceAgrees fuel program spec.name ty (builtinTypeClass spec.name) evidence = some true

/-- The node has the type under the given types of its locals, the innermost last. -/
inductive HasType (program : CoreProgram) : List TypeId → CoreId → TypeId → Prop
  | boundVar {locals : List TypeId} {id : CoreId} {node : CoreNode} {deBruijn : ℕ}
      {projection : Projection} {ty : TypeId} (here : program.node id = some node)
      (kind : node.kind = .boundVar deBruijn projection) (isLocal : LocalType locals deBruijn ty)
      (projects : Projects program.types ty projection node.ty) : HasType program locals id node.ty
  | lambda {locals : List TypeId} {id : CoreId} {node : CoreNode} {parameterType : TypeId}
      {body : CoreId} {bodyType : TypeId} (here : program.node id = some node)
      (kind : node.kind = .lambda parameterType body)
      (bodyTyped : HasType program (locals ++ [parameterType]) body bodyType)
      (shape : program.types.get node.ty = some (.function parameterType bodyType)) :
      HasType program locals id node.ty
  | apply {locals : List TypeId} {id : CoreId} {node : CoreNode} {callee argument : CoreId}
      {functionType argumentType : TypeId} (here : program.node id = some node)
      (kind : node.kind = .apply callee argument)
      (calleeTyped : HasType program locals callee functionType)
      (argumentTyped : HasType program locals argument argumentType)
      (shape : program.types.get functionType = some (.function argumentType node.ty)) :
      HasType program locals id node.ty
  | constant {locals : List TypeId} {id : CoreId} {node : CoreNode} {value : Constant}
      (here : program.node id = some node) (kind : node.kind = .constant value)
      (named : ConstructorNamed program.types node.ty value.typeName) :
      HasType program locals id node.ty
  | builtin {locals : List TypeId} {id : CoreId} {node : CoreNode} {builtin : BuiltinId}
      {evidence : Option ClassEvidence} (here : program.node id = some node)
      (kind : node.kind = .builtin builtin evidence)
      (admitted : Admitted program builtin evidence node.ty) : HasType program locals id node.ty
  | tuple {locals : List TypeId} {id : CoreId} {node : CoreNode} {elements : List CoreId}
      {arguments : List TypeId} (here : program.node id = some node)
      (kind : node.kind = .tuple elements) (same : elements.length = arguments.length)
      (shape : TupleOf program.types node.ty arguments)
      (elementsTyped : ∀ (index : ℕ) (child : CoreId) (ty : TypeId), elements[index]? = some child →
        arguments[index]? = some ty → HasType program locals child ty) :
      HasType program locals id node.ty
  | list {locals : List TypeId} {id : CoreId} {node : CoreNode} {elements : List CoreId}
      {head item : TypeId} (here : program.node id = some node) (kind : node.kind = .list elements)
      (shape : program.types.get node.ty = some (.apply head item))
      (named : ConstructorNamed program.types head "[]")
      (elementsTyped : ∀ child ∈ elements, HasType program locals child item) :
      HasType program locals id node.ty
  | record {locals : List TypeId} {id : CoreId} {node : CoreNode} {layout : RecordLayout}
      {fields : List CoreId} (here : program.node id = some node)
      (kind : node.kind = .record layout fields)
      (named : HeadNamed program.types node.ty layout.typeName)
      (same : fields.length = layout.fields.length)
      (fieldsTyped : ∀ (index : ℕ) (child : CoreId) (field : RecordFieldLayout),
        fields[index]? = some child → layout.fields[index]? = some field →
          HasType program locals child field.ty) :
      HasType program locals id node.ty
  | recordGet {locals : List TypeId} {id : CoreId} {node : CoreNode} {layout : RecordLayout}
      {fieldIndex : ℕ} {record : CoreId} {field : RecordFieldLayout} {recordType : TypeId}
      (here : program.node id = some node) (kind : node.kind = .recordGet layout fieldIndex record)
      (isField : layout.fields[fieldIndex]? = some field)
      (recordTyped : HasType program locals record recordType)
      (named : HeadNamed program.types recordType layout.typeName) (same : node.ty = field.ty) :
      HasType program locals id node.ty
  | recordSet {locals : List TypeId} {id : CoreId} {node : CoreNode} {layout : RecordLayout}
      {fieldIndex : ℕ} {value record : CoreId} {field : RecordFieldLayout}
      (here : program.node id = some node)
      (kind : node.kind = .recordSet layout fieldIndex value record)
      (isField : layout.fields[fieldIndex]? = some field)
      (named : HeadNamed program.types node.ty layout.typeName)
      (recordTyped : HasType program locals record node.ty)
      (valueTyped : HasType program locals value field.ty) : HasType program locals id node.ty
  | recordModify {locals : List TypeId} {id : CoreId} {node : CoreNode} {layout : RecordLayout}
      {fieldIndex : ℕ} {callee record : CoreId} {field : RecordFieldLayout} {functionType : TypeId}
      (here : program.node id = some node)
      (kind : node.kind = .recordModify layout fieldIndex callee record)
      (isField : layout.fields[fieldIndex]? = some field)
      (named : HeadNamed program.types node.ty layout.typeName)
      (calleeTyped : HasType program locals callee functionType)
      (shape : program.types.get functionType = some (.function field.ty field.ty))
      (recordTyped : HasType program locals record node.ty) : HasType program locals id node.ty
  | variant {locals : List TypeId} {id : CoreId} {node : CoreNode} {layout : VariantLayout}
      {constructorIndex : ℕ} {payload : Option CoreId} {constructor : VariantConstructorLayout}
      (here : program.node id = some node)
      (kind : node.kind = .variant layout constructorIndex payload)
      (named : HeadNamed program.types node.ty layout.typeName)
      (isConstructor : layout.constructors[constructorIndex]? = some constructor)
      (same : constructor.payload.isSome = payload.isSome)
      (payloadTyped : ∀ ty child, constructor.payload = some ty → payload = some child →
        HasType program locals child ty) : HasType program locals id node.ty
  | case {locals : List TypeId} {id : CoreId} {node : CoreNode} {scrutinee : CoreId}
      {layout : VariantLayout} {branches : List CaseBranch} {fallback : Option CoreId}
      {scrutineeType : TypeId} (here : program.node id = some node)
      (kind : node.kind = .case scrutinee layout branches fallback)
      (scrutineeTyped : HasType program locals scrutinee scrutineeType)
      (named : HeadNamed program.types scrutineeType layout.typeName)
      (covers : CoversOnce layout branches fallback)
      (branchesTyped : ∀ branch ∈ branches,
        HasType program (locals ++ branch.payloadType.toList) branch.body node.ty)
      (fallbackTyped : ∀ child, fallback = some child → HasType program locals child node.ty) :
      HasType program locals id node.ty

/-- The nodes that the root reaches, with the types of the binders that enclose them. -/
inductive Enclosed (program : CoreProgram) : CoreId → List TypeId → Prop
  | root : Enclosed program program.root []
  | child {parent child : CoreId} {node : CoreNode} {locals bound : List TypeId}
      (outer : Enclosed program parent locals) (here : program.node parent = some node)
      (member : (child, bound) ∈ node.kind.scopedChildren) : Enclosed program child (locals ++ bound)

/-- The node at the end of a list of child positions. -/
def follow (program : CoreProgram) : CoreId → List ℕ → Option CoreId
  | id, [] => some id
  | id, position :: path => do
      let node ← program.node id
      let child ← node.kind.children[position]?
      follow program child path

/-- The nodes below the root form a tree: every one of them exists, and there is one way to it.
Sharing would give two ways and a cycle infinitely many. -/
structure TreeShaped (program : CoreProgram) : Prop where
  exist : ∀ path id, follow program program.root path = some id → (program.node id).isSome
  unique : ∀ first second id, follow program program.root first = some id →
    follow program program.root second = some id → first = second

theorem follow_append (id : CoreId) (first second : List ℕ) :
    follow program id (first ++ second) =
      (follow program id first).bind fun middle => follow program middle second := by
  induction first generalizing id with
  | nil => rfl
  | cons position first ih =>
    simp only [List.cons_append, follow, Option.bind_eq_bind, Option.bind_assoc, ih]

/-- In a tree no node lies below itself. -/
theorem TreeShaped.acyclic (tree : TreeShaped program) {path cycle : List ℕ} {id : CoreId}
    (reached : follow program program.root path = some id)
    (back : follow program id cycle = some id) : cycle = [] := by
  have twice : follow program program.root (path ++ cycle) = some id := by
    rw [follow_append, reached]; exact back
  exact List.append_cancel_left ((tree.unique _ _ _ twice reached).trans (List.append_nil path).symm)

theorem mem_children {kind : CoreKind} {child : CoreId} {bound : List TypeId}
    (member : (child, bound) ∈ kind.scopedChildren) : child ∈ kind.children :=
  List.mem_map.mpr ⟨_, member, rfl⟩

/-- An enclosed node is at the end of some path from the root. -/
theorem Enclosed.exists_follow {id : CoreId} {locals : List TypeId}
    (enclosed : Enclosed program id locals) : ∃ path, follow program program.root path = some id := by
  induction enclosed with
  | root => exact ⟨[], rfl⟩
  | child _ here member ih =>
    obtain ⟨path, reached⟩ := ih
    obtain ⟨position, found⟩ := List.mem_iff_getElem?.mp (mem_children member)
    refine ⟨path ++ [position], ?_⟩
    rw [follow_append, reached]
    simp [follow, here, found]

/-- The binders that enclose a node are those on the way to it. -/
inductive Along (program : CoreProgram) : List ℕ → CoreId → List TypeId → Prop
  | root : Along program [] program.root []
  | child {path : List ℕ} {parent child : CoreId} {node : CoreNode} {locals bound : List TypeId}
      {position : ℕ} (outer : Along program path parent locals)
      (here : program.node parent = some node)
      (found : node.kind.scopedChildren[position]? = some (child, bound)) :
      Along program (path ++ [position]) child (locals ++ bound)

theorem Along.follow {path : List ℕ} {id : CoreId} {locals : List TypeId}
    (along : Along program path id locals) : follow program program.root path = some id := by
  induction along with
  | root => rfl
  | child _ here found ih =>
    rw [follow_append, ih]
    simp [Core.follow, here, CoreKind.children, found]

theorem Enclosed.exists_along {id : CoreId} {locals : List TypeId}
    (enclosed : Enclosed program id locals) : ∃ path, Along program path id locals := by
  induction enclosed with
  | root => exact ⟨[], .root⟩
  | child _ here member ih =>
    obtain ⟨path, along⟩ := ih
    obtain ⟨position, found⟩ := List.mem_iff_getElem?.mp member
    exact ⟨_, .child along here found⟩

private theorem Along.locals_unique {path path' : List ℕ} {id id' : CoreId}
    {locals locals' : List TypeId} (along : Along program path id locals)
    (along' : Along program path' id' locals') (same : path = path') : id = id' ∧ locals = locals' := by
  induction along generalizing path' id' locals' with
  | root =>
    cases along' with
    | root => exact ⟨rfl, rfl⟩
    | child => simp at same
  | child _ here found ih =>
    cases along' with
    | root => simp at same
    | child outer' here' found' =>
      obtain ⟨samePath, samePosition⟩ := List.append_inj' same rfl
      obtain ⟨rfl, rfl⟩ := ih outer' samePath
      obtain rfl := Option.some.inj (here.symm.trans here')
      obtain rfl : _ = _ := by simpa using samePosition
      obtain ⟨rfl, rfl⟩ := Prod.mk.inj (Option.some.inj (found.symm.trans found'))
      exact ⟨rfl, rfl⟩

/-- In a tree the binders that enclose a node are determined by the node. -/
theorem TreeShaped.enclosed_unique (tree : TreeShaped program) {id : CoreId}
    {locals locals' : List TypeId} (first : Enclosed program id locals)
    (second : Enclosed program id locals') : locals = locals' := by
  obtain ⟨path, along⟩ := first.exists_along
  obtain ⟨path', along'⟩ := second.exists_along
  exact (along.locals_unique along' (tree.unique _ _ _ along.follow along'.follow)).2

/-- A derivation contains a derivation for every child under the binders of the child. -/
theorem HasType.child {locals : List TypeId} {id : CoreId} {ty : TypeId}
    (typed : HasType program locals id ty) {node : CoreNode} (found : program.node id = some node)
    {child : CoreId} {bound : List TypeId} (member : (child, bound) ∈ node.kind.scopedChildren) :
    ∃ childType, HasType program (locals ++ bound) child childType := by
  cases typed with
  | boundVar here kind =>
    obtain rfl := Option.some.inj (found.symm.trans here)
    simp [kind, CoreKind.scopedChildren] at member
  | lambda here kind bodyTyped =>
    obtain rfl := Option.some.inj (found.symm.trans here)
    simp only [kind, CoreKind.scopedChildren, List.mem_singleton, Prod.mk.injEq] at member
    obtain ⟨rfl, rfl⟩ := member
    exact ⟨_, bodyTyped⟩
  | apply here kind calleeTyped argumentTyped =>
    obtain rfl := Option.some.inj (found.symm.trans here)
    simp only [kind, CoreKind.scopedChildren, List.mem_cons, Prod.mk.injEq, List.not_mem_nil,
      or_false] at member
    rcases member with ⟨rfl, rfl⟩ | ⟨rfl, rfl⟩
    · exact ⟨_, by rwa [List.append_nil]⟩
    · exact ⟨_, by rwa [List.append_nil]⟩
  | constant here kind =>
    obtain rfl := Option.some.inj (found.symm.trans here)
    simp [kind, CoreKind.scopedChildren] at member
  | builtin here kind =>
    obtain rfl := Option.some.inj (found.symm.trans here)
    simp [kind, CoreKind.scopedChildren] at member
  | tuple here kind same _ elementsTyped =>
    obtain rfl := Option.some.inj (found.symm.trans here)
    simp only [kind, CoreKind.scopedChildren, List.mem_map, Prod.mk.injEq] at member
    obtain ⟨element, isElement, rfl, rfl⟩ := member
    obtain ⟨index, atIndex⟩ := List.mem_iff_getElem?.mp isElement
    obtain ⟨inside, _⟩ := List.getElem?_eq_some_iff.mp atIndex
    rw [List.append_nil]
    exact ⟨_, elementsTyped index element _ atIndex (List.getElem?_eq_getElem (same ▸ inside))⟩
  | list here kind _ _ elementsTyped =>
    obtain rfl := Option.some.inj (found.symm.trans here)
    simp only [kind, CoreKind.scopedChildren, List.mem_map, Prod.mk.injEq] at member
    obtain ⟨element, isElement, rfl, rfl⟩ := member
    rw [List.append_nil]
    exact ⟨_, elementsTyped element isElement⟩
  | record here kind _ same fieldsTyped =>
    obtain rfl := Option.some.inj (found.symm.trans here)
    simp only [kind, CoreKind.scopedChildren, List.mem_map, Prod.mk.injEq] at member
    obtain ⟨element, isElement, rfl, rfl⟩ := member
    obtain ⟨index, atIndex⟩ := List.mem_iff_getElem?.mp isElement
    obtain ⟨inside, _⟩ := List.getElem?_eq_some_iff.mp atIndex
    rw [List.append_nil]
    exact ⟨_, fieldsTyped index element _ atIndex (List.getElem?_eq_getElem (same ▸ inside))⟩
  | recordGet here kind _ recordTyped =>
    obtain rfl := Option.some.inj (found.symm.trans here)
    simp only [kind, CoreKind.scopedChildren, List.mem_singleton, Prod.mk.injEq] at member
    obtain ⟨rfl, rfl⟩ := member
    exact ⟨_, by rwa [List.append_nil]⟩
  | recordSet here kind _ _ recordTyped valueTyped =>
    obtain rfl := Option.some.inj (found.symm.trans here)
    simp only [kind, CoreKind.scopedChildren, List.mem_cons, Prod.mk.injEq, List.not_mem_nil,
      or_false] at member
    rcases member with ⟨rfl, rfl⟩ | ⟨rfl, rfl⟩
    · exact ⟨_, by rwa [List.append_nil]⟩
    · exact ⟨_, by rwa [List.append_nil]⟩
  | recordModify here kind _ _ calleeTyped _ recordTyped =>
    obtain rfl := Option.some.inj (found.symm.trans here)
    simp only [kind, CoreKind.scopedChildren, List.mem_cons, Prod.mk.injEq, List.not_mem_nil,
      or_false] at member
    rcases member with ⟨rfl, rfl⟩ | ⟨rfl, rfl⟩
    · exact ⟨_, by rwa [List.append_nil]⟩
    · exact ⟨_, by rwa [List.append_nil]⟩
  | variant here kind _ _ same payloadTyped =>
    obtain rfl := Option.some.inj (found.symm.trans here)
    simp only [kind, CoreKind.scopedChildren, List.mem_map, Option.mem_toList, Prod.mk.injEq] at member
    obtain ⟨element, rfl, rfl, rfl⟩ := member
    obtain ⟨expected, isPayload⟩ := Option.isSome_iff_exists.mp (same.trans rfl)
    rw [List.append_nil]
    exact ⟨_, payloadTyped expected element isPayload rfl⟩
  | case here kind scrutineeTyped _ _ branchesTyped fallbackTyped =>
    obtain rfl := Option.some.inj (found.symm.trans here)
    simp only [kind, CoreKind.scopedChildren, List.mem_append, List.mem_cons, List.mem_map,
      Option.mem_toList, Prod.mk.injEq] at member
    rcases member with (⟨rfl, rfl⟩ | ⟨branch, isBranch, rfl, rfl⟩) | ⟨element, rfl, rfl, rfl⟩
    · exact ⟨_, by rwa [List.append_nil]⟩
    · exact ⟨_, branchesTyped branch isBranch⟩
    · rw [List.append_nil]
      exact ⟨_, fallbackTyped element rfl⟩

/-- The type in a derivation is the stored type of the node. -/
theorem HasType.stored {locals : List TypeId} {id : CoreId} {ty : TypeId}
    (typed : HasType program locals id ty) : ∃ node, program.node id = some node ∧ ty = node.ty := by
  cases typed <;> exact ⟨_, ‹program.node id = some _›, rfl⟩

/-- A typed variable refers to one of its locals. -/
theorem HasType.boundVar_lt {locals : List TypeId} {id : CoreId} {ty : TypeId}
    (typed : HasType program locals id ty) {node : CoreNode} (found : program.node id = some node)
    {deBruijn : ℕ} {projection : Projection} (kind : node.kind = .boundVar deBruijn projection) :
    deBruijn < locals.length := by
  cases typed with
  | boundVar here kind' isLocal =>
    obtain rfl := Option.some.inj (found.symm.trans here)
    obtain ⟨rfl, -⟩ := CoreKind.boundVar.inj (kind.symm.trans kind')
    exact isLocal.1
  | _ here kind' => rw [Option.some.inj (found.symm.trans here), kind'] at kind; cases kind

/-- A typed builtin has passed its checks. -/
theorem HasType.admitted {locals : List TypeId} {id : CoreId} {ty : TypeId}
    (typed : HasType program locals id ty) {node : CoreNode} (found : program.node id = some node)
    {builtin : BuiltinId} {evidence : Option ClassEvidence}
    (kind : node.kind = .builtin builtin evidence) : Admitted program builtin evidence node.ty := by
  cases typed with
  | builtin here kind' admitted =>
    obtain rfl := Option.some.inj (found.symm.trans here)
    obtain ⟨rfl, rfl⟩ := CoreKind.builtin.inj (kind.symm.trans kind')
    exact admitted
  | _ here kind' => rw [Option.some.inj (found.symm.trans here), kind'] at kind; cases kind

/-- A typed case covers the constructors of the layout of its scrutinee. -/
theorem HasType.case_covers {locals : List TypeId} {id : CoreId} {ty : TypeId}
    (typed : HasType program locals id ty) {node : CoreNode} (found : program.node id = some node)
    {scrutinee : CoreId} {layout : VariantLayout} {branches : List CaseBranch}
    {fallback : Option CoreId} (kind : node.kind = .case scrutinee layout branches fallback) :
    (∃ scrutineeType, HasType program locals scrutinee scrutineeType ∧
      HeadNamed program.types scrutineeType layout.typeName) ∧ CoversOnce layout branches fallback := by
  cases typed with
  | case here kind' scrutineeTyped named covers =>
    obtain rfl := Option.some.inj (found.symm.trans here)
    obtain ⟨rfl, rfl, rfl, rfl⟩ := CoreKind.case.inj (kind.symm.trans kind')
    exact ⟨⟨_, scrutineeTyped, named⟩, covers⟩
  | _ here kind' => rw [Option.some.inj (found.symm.trans here), kind'] at kind; cases kind

/-- With a derivation for the root, every enclosed node has one under its own binders. -/
theorem Enclosed.hasType {rootType : TypeId} (typed : HasType program [] program.root rootType)
    {id : CoreId} {locals : List TypeId} (enclosed : Enclosed program id locals) :
    ∃ ty, HasType program locals id ty := by
  induction enclosed with
  | root => exact ⟨_, typed⟩
  | child _ here member ih =>
    obtain ⟨ty, parentTyped⟩ := ih
    exact parentTyped.child here member

end HellRs.Core
