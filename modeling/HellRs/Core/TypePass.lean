import HellRs.Core.Soundness

/-! # The type pass derives every stored type

Each helper of the type pass is one typing rule read off the types computed for the children. On a
tree the type computed for a node belongs to the one list of binders that encloses it, so the rules
compose into derivations, and `verify` accepts only programs with a derivation of `IO ()`.
-/

namespace HellRs.Core

open Types Builtins Loop

variable {program : CoreProgram} {types : TypeArena} {computed : Computed} {locals : List TypeId}
  {id : CoreId} {node : CoreNode} {fuel : ℕ} {inferred : TypeId}

section Helpers

theorem constructorName_named {ty : TypeId} {name : String}
    (found : constructorName types ty = some (some name)) : ConstructorNamed types ty name := by
  simp only [constructorName, Option.map_eq_some_iff] at found
  obtain ⟨shape, here, named⟩ := found
  cases shape with
  | constructor other kind =>
    obtain rfl : other = name := by simpa [typeConstructorName] using named
    exact ⟨kind, here⟩
  | _ => simp [typeConstructorName] at named

private theorem applySpine_spine {ty head : TypeId} {seen arguments : List TypeId}
    (found : applySpine types fuel ty seen = some (head, arguments)) :
    ∃ front, arguments = front ++ seen ∧ Spine types ty head front := by
  induction fuel generalizing ty seen with
  | zero => cases found
  | succ fuel ih =>
    simp only [applySpine, Option.bind_eq_bind, Option.bind_eq_some_iff] at found
    obtain ⟨shape, here, found⟩ := found
    split at found
    next function argument =>
      obtain ⟨front, rfl, spine⟩ := ih found
      exact ⟨front ++ [argument], by simp, .apply here spine⟩
    next =>
      obtain ⟨rfl, rfl⟩ := Prod.mk.inj (Option.some.inj found)
      exact ⟨[], rfl, .head⟩

private theorem applySpine_nil {ty head : TypeId} {arguments : List TypeId}
    (found : applySpine types fuel ty [] = some (head, arguments)) : Spine types ty head arguments := by
  obtain ⟨front, rfl, spine⟩ := applySpine_spine found
  rwa [List.append_nil]

theorem typeHeadName_named {ty : TypeId} {name : String}
    (found : typeHeadName fuel types ty = some (some name)) : HeadNamed types ty name := by
  simp only [typeHeadName, Option.bind_eq_bind, Option.bind_eq_some_iff] at found
  obtain ⟨⟨head, arguments⟩, spine, named⟩ := found
  exact ⟨head, arguments, applySpine_nil spine, constructorName_named named⟩

private theorem localAt_local {deBruijn : ℕ} {ty : TypeId} (found : localAt locals deBruijn = some ty) :
    LocalType locals deBruijn ty := by
  simp only [localAt] at found
  split at found
  next inside =>
    refine ⟨inside, ?_⟩
    rw [List.getElem?_reverse inside, ← found]
    congr 1
    omega
  next => cases found

@[simp] private theorem reject_ne_ok {α : Type} {message : String} {value : α} :
    reject id node message ≠ some (.ok value) := by
  simp [reject]

@[simp] private theorem accept_eq_ok {α : Type} {first second : α} :
    accept first = some (.ok second) ↔ first = second := by
  simp [accept]

/-- What the branch loop of a case establishes. -/
private theorem checkBranches_ok {layout : VariantLayout} {seen all : List ℕ}
    {branches : List CaseBranch}
    (checked : checkBranches computed id node layout seen branches = .ok all) :
    (∀ branch ∈ branches, (∃ constructor,
        layout.constructors[branch.constructorIndex]? = some constructor ∧
          constructor.payload = branch.payloadType) ∧ computed branch.body = some node.ty) ∧
      all = (branches.map CaseBranch.constructorIndex).reverse ++ seen ∧
      (seen.Nodup → all.Nodup) := by
  induction branches generalizing seen with
  | nil =>
    obtain rfl := Except.ok.inj checked
    simp
  | cons branch branches ih =>
    simp only [checkBranches] at checked
    split at checked
    next => cases checked
    next constructor found =>
      split at checked
      next => cases checked
      next agrees =>
        simp only [not_or, not_not] at agrees
        obtain ⟨isNew, payload, body⟩ := agrees
        obtain ⟨rest, rfl, nodup⟩ := ih checked
        refine ⟨?_, by simp, fun unique => nodup (List.nodup_cons.mpr ⟨isNew, unique⟩)⟩
        intro other member
        rcases List.mem_cons.mp member with rfl | member
        · exact ⟨⟨constructor, found, payload⟩, body⟩
        · exact rest other member

/-- As many different indices below a bound as there are indices are all of them. -/
private theorem mem_of_nodup_length {indices : List ℕ} {bound : ℕ} (nodup : indices.Nodup)
    (below : ∀ index ∈ indices, index < bound) (full : indices.length = bound) {index : ℕ}
    (small : index < bound) : index ∈ indices := by
  have subset : indices ⊆ List.range bound := fun index member =>
    List.mem_range.mpr (below index member)
  have perm := (List.subperm_of_subset nodup subset).perm_of_length_le (by simp [full])
  exact perm.mem_iff.mpr (List.mem_range.mpr small)

end Helpers

section Rules

/-- The types computed for the children are derivable under the binders of the children. -/
def ChildrenTyped (program : CoreProgram) (computed : Computed) (locals : List TypeId)
    (kind : CoreKind) : Prop :=
  ∀ child bound ty, (child, bound) ∈ kind.scopedChildren → computed child = some ty →
    HasType program (locals ++ bound) child ty

private theorem ChildrenTyped.plain {kind : CoreKind} (typed : ChildrenTyped program computed locals kind)
    {child : CoreId} {ty : TypeId} (member : (child, []) ∈ kind.scopedChildren)
    (found : computed child = some ty) : HasType program locals child ty := by
  simpa using typed child [] ty member found

variable (here : program.node id = some node)
  (typed : ChildrenTyped program computed locals node.kind)

include here

private theorem inferBoundVar_sound {deBruijn : ℕ} {projection : Projection}
    (kind : node.kind = .boundVar deBruijn projection)
    (success : inferBoundVar fuel program.types locals id node deBruijn projection =
      some (.ok inferred)) (same : inferred = node.ty) : HasType program locals id node.ty := by
  subst same
  simp only [inferBoundVar] at success
  split at success
  next => simp at success
  next ty isLocal =>
    refine .boundVar here kind (localAt_local isLocal) ?_
    cases projection with
    | identity =>
      obtain rfl := accept_eq_ok.mp success
      exact .identity
    | tupleElement arity index =>
      simp only [Option.bind_eq_bind, Option.bind_eq_some_iff] at success
      obtain ⟨⟨head, arguments⟩, spine, success⟩ := success
      cases name : tupleName arity with
      | none => simp [name] at success
      | some expected =>
        simp only [name, Option.bind_eq_some_iff] at success
        obtain ⟨found, isName, success⟩ := success
        split at success
        next => simp at success
        next agrees =>
          simp only [ne_eq, not_or, not_not] at agrees
          obtain ⟨rfl, rfl⟩ := agrees
          split at success
          next => simp at success
          next argument atIndex =>
            obtain rfl := accept_eq_ok.mp success
            exact .tupleElement ⟨head, expected, applySpine_nil spine, name,
              constructorName_named isName⟩ atIndex

private theorem inferConstant_sound {value : Constant} (kind : node.kind = .constant value)
    (success : inferConstant program.types id node value = some (.ok inferred)) :
    HasType program locals id node.ty := by
  simp only [inferConstant, Option.bind_eq_bind, Option.bind_eq_some_iff] at success
  obtain ⟨found, isName, success⟩ := success
  split at success
  next named => exact .constant here kind (constructorName_named (named ▸ isName))
  next => simp at success

private theorem inferBuiltin_sound {builtin : BuiltinId} {evidence : Option ClassEvidence}
    (kind : node.kind = .builtin builtin evidence)
    (success : inferBuiltin fuel program id node builtin evidence = some (.ok inferred)) :
    HasType program locals id node.ty := by
  simp only [inferBuiltin] at success
  split at success
  next => simp at success
  next spec found =>
    simp only [Option.bind_eq_bind, Option.bind_eq_some_iff] at success
    obtain ⟨fits, isPlausible, success⟩ := success
    split at success
    next holds =>
      simp only [Option.bind_eq_some_iff] at success
      obtain ⟨agrees, isAgreeing, success⟩ := success
      split at success
      next holds' =>
        exact .builtin here kind ⟨fuel, spec, found, holds ▸ isPlausible, holds' ▸ isAgreeing⟩
      next => simp at success
    next => simp at success

include typed

private theorem inferLambda_sound {parameterType : TypeId} {body : CoreId}
    (kind : node.kind = .lambda parameterType body)
    (success : inferLambda program.types computed id node parameterType body = some (.ok inferred)) :
    HasType program locals id node.ty := by
  simp only [inferLambda] at success
  split at success
  next => simp at success
  next bodyType isBody =>
    simp only [Option.bind_eq_bind, Option.bind_eq_some_iff] at success
    obtain ⟨shape, isShape, success⟩ := success
    split at success
    next equal =>
      exact .lambda here kind (typed body [parameterType] bodyType
        (by simp [kind, CoreKind.scopedChildren]) isBody) (equal ▸ isShape)
    next => simp at success

private theorem inferApply_sound {callee argument : CoreId} (kind : node.kind = .apply callee argument)
    (success : inferApply program.types computed id node callee argument = some (.ok inferred)) :
    HasType program locals id node.ty := by
  simp only [inferApply] at success
  split at success
  next => simp at success
  next functionType isFunction =>
    split at success
    next => simp at success
    next argumentType isArgument =>
      simp only [Option.bind_eq_bind, Option.bind_eq_some_iff] at success
      obtain ⟨shape, isShape, success⟩ := success
      split at success
      next equal =>
        exact .apply here kind (typed.plain (by simp [kind, CoreKind.scopedChildren]) isFunction)
          (typed.plain (by simp [kind, CoreKind.scopedChildren]) isArgument) (equal ▸ isShape)
      next => simp at success

omit here in
/-- The computed types of a list of children against a list of expected types. -/
private theorem zip_typed {β : Type} {children : List CoreId} {expected : List β} (type : β → TypeId)
    (members : ∀ child ∈ children, (child, []) ∈ node.kind.scopedChildren)
    (agrees : ((children.zip expected).all fun (child, item) => computed child = some (type item)) = true)
    (index : ℕ) (child : CoreId) (item : β) (atChild : children[index]? = some child)
    (atItem : expected[index]? = some item) : HasType program locals child (type item) := by
  have pair : (children.zip expected)[index]? = some (child, item) := by
    rw [List.getElem?_zip_eq_some]; exact ⟨atChild, atItem⟩
  have equal := List.all_eq_true.mp agrees _ (List.mem_of_getElem? pair)
  exact typed.plain (members child (List.mem_of_getElem? atChild)) (by simpa using equal)

private theorem inferTuple_sound {elements : List CoreId} (kind : node.kind = .tuple elements)
    (success : inferTuple fuel program.types computed id node elements = some (.ok inferred)) :
    HasType program locals id node.ty := by
  simp only [inferTuple] at success
  split at success
  next => simp at success
  next expected name =>
    simp only [Option.bind_eq_bind, Option.bind_eq_some_iff] at success
    obtain ⟨⟨head, arguments⟩, spine, found, isName, success⟩ := success
    split at success
    next => simp at success
    next agrees =>
      simp only [ne_eq, not_or, not_not] at agrees
      obtain ⟨rfl, same⟩ := agrees
      split at success
      next all =>
        exact .tuple here kind same.symm
          ⟨head, expected, applySpine_nil spine, by rw [same]; exact name, constructorName_named isName⟩
          fun index child ty => zip_typed typed (fun ty => ty)
            (by simp [kind, CoreKind.scopedChildren]) all index child ty
      next => simp at success

private theorem inferList_sound {elements : List CoreId} (kind : node.kind = .list elements)
    (success : inferList program.types computed id node elements = some (.ok inferred)) :
    HasType program locals id node.ty := by
  simp only [inferList, Option.bind_eq_bind, Option.bind_eq_some_iff] at success
  obtain ⟨shape, isShape, success⟩ := success
  cases shape with
  | apply head item =>
    simp only [Option.bind_eq_some_iff] at success
    obtain ⟨found, isName, success⟩ := success
    split at success
    next => simp at success
    next named =>
      obtain rfl : found = some "[]" := by simpa using named
      split at success
      next all =>
        refine .list here kind isShape (constructorName_named isName) fun child member => ?_
        exact typed.plain (by simp [kind, CoreKind.scopedChildren, member])
          (by simpa using List.all_eq_true.mp all child member)
      next => simp at success
  | _ => simp at success

private theorem inferRecord_sound {layout : RecordLayout} {fields : List CoreId}
    (kind : node.kind = .record layout fields)
    (success : inferRecord fuel program.types computed id node layout fields = some (.ok inferred)) :
    HasType program locals id node.ty := by
  simp only [inferRecord, Option.bind_eq_bind, Option.bind_eq_some_iff] at success
  obtain ⟨found, isName, success⟩ := success
  split at success
  next => simp at success
  next agrees =>
    simp only [ne_eq, not_or, not_not] at agrees
    obtain ⟨rfl, same⟩ := agrees
    split at success
    next all =>
      exact .record here kind (typeHeadName_named isName) same fun index child field =>
        zip_typed typed RecordFieldLayout.ty
          (by simp [kind, CoreKind.scopedChildren]) all index child field
    next => simp at success

private theorem inferRecordGet_sound {layout : RecordLayout} {fieldIndex : ℕ} {record : CoreId}
    (kind : node.kind = .recordGet layout fieldIndex record)
    (success : inferRecordGet fuel program.types computed id node layout fieldIndex record =
      some (.ok inferred)) : HasType program locals id node.ty := by
  simp only [inferRecordGet] at success
  split at success
  next => simp at success
  next field isField =>
    split at success
    next => simp at success
    next recordType isRecord =>
      simp only [Option.bind_eq_bind, Option.bind_eq_some_iff] at success
      obtain ⟨found, isName, success⟩ := success
      split at success
      next => simp at success
      next agrees =>
        simp only [ne_eq, not_or, not_not] at agrees
        obtain ⟨rfl, same⟩ := agrees
        exact .recordGet here kind isField
          (typed.plain (by simp [kind, CoreKind.scopedChildren]) isRecord)
          (typeHeadName_named isName) same

private theorem inferRecordSet_sound {layout : RecordLayout} {fieldIndex : ℕ} {value record : CoreId}
    (kind : node.kind = .recordSet layout fieldIndex value record)
    (success : inferRecordSet fuel program.types computed id node layout fieldIndex value record =
      some (.ok inferred)) : HasType program locals id node.ty := by
  simp only [inferRecordSet] at success
  split at success
  next => simp at success
  next field isField =>
    simp only [Option.bind_eq_bind, Option.bind_eq_some_iff] at success
    obtain ⟨found, isName, success⟩ := success
    split at success
    next => simp at success
    next agrees =>
      simp only [ne_eq, not_or, not_not] at agrees
      obtain ⟨isRecord, rfl, isValue⟩ := agrees
      exact .recordSet here kind isField (typeHeadName_named isName)
        (typed.plain (by simp [kind, CoreKind.scopedChildren]) isRecord)
        (typed.plain (by simp [kind, CoreKind.scopedChildren]) isValue)

private theorem inferRecordModify_sound {layout : RecordLayout} {fieldIndex : ℕ}
    {callee record : CoreId} (kind : node.kind = .recordModify layout fieldIndex callee record)
    (success : inferRecordModify fuel program.types computed id node layout fieldIndex callee record =
      some (.ok inferred)) : HasType program locals id node.ty := by
  simp only [inferRecordModify] at success
  split at success
  next => simp at success
  next field isField =>
    simp only [Option.bind_eq_bind, Option.bind_eq_some_iff] at success
    obtain ⟨found, isName, valid, isValid, success⟩ := success
    split at success
    next => simp at success
    next agrees =>
      simp only [ne_eq, not_or, not_not, Bool.not_eq_true', Bool.not_eq_false] at agrees
      obtain ⟨isRecord, rfl, rfl⟩ := agrees
      cases isCallee : computed callee with
      | none => simp [isCallee, validModifier] at isValid
      | some functionType =>
        simp only [isCallee, validModifier, Option.map_eq_some_iff, decide_eq_true_eq] at isValid
        obtain ⟨shape, isShape, rfl⟩ := isValid
        exact .recordModify here kind isField (typeHeadName_named isName)
          (typed.plain (by simp [kind, CoreKind.scopedChildren]) isCallee) isShape
          (typed.plain (by simp [kind, CoreKind.scopedChildren]) isRecord)

private theorem inferVariant_sound {layout : VariantLayout} {constructorIndex : ℕ}
    {payload : Option CoreId} (kind : node.kind = .variant layout constructorIndex payload)
    (success : inferVariant fuel program.types computed id node layout constructorIndex payload =
      some (.ok inferred)) : HasType program locals id node.ty := by
  simp only [inferVariant, Option.bind_eq_bind, Option.bind_eq_some_iff] at success
  obtain ⟨found, isName, success⟩ := success
  split at success
  next => simp at success
  next named =>
    obtain rfl : found = some layout.typeName := by simpa using named
    split at success
    next => simp at success
    next constructor isConstructor =>
      refine .variant here kind (typeHeadName_named isName) isConstructor ?_ ?_
      · cases shape : constructor.payload <;> cases payload <;> simp [shape] at success ⊢
      · rintro ty child isPayload rfl
        simp only [isPayload] at success
        split at success
        next equal => exact typed.plain (by simp [kind, CoreKind.scopedChildren]) equal
        next => simp at success

private theorem inferCase_sound {scrutinee : CoreId} {layout : VariantLayout}
    {branches : List CaseBranch} {fallback : Option CoreId}
    (kind : node.kind = .case scrutinee layout branches fallback)
    (success : inferCase fuel program.types computed id node scrutinee layout branches fallback =
      some (.ok inferred)) : HasType program locals id node.ty := by
  simp only [inferCase] at success
  split at success
  next => simp at success
  next scrutineeType isScrutinee =>
    simp only [Option.bind_eq_bind, Option.bind_eq_some_iff] at success
    obtain ⟨found, isName, success⟩ := success
    split at success
    next => simp at success
    next named =>
      obtain rfl : found = some layout.typeName := by simpa using named
      split at success
      next => simp at success
      next seen checked =>
        obtain ⟨each, rfl, nodup⟩ := checkBranches_ok checked
        rw [List.append_nil] at success nodup
        have once : (branches.map CaseBranch.constructorIndex).Nodup :=
          List.nodup_reverse.mp (nodup List.nodup_nil)
        have below : ∀ index ∈ branches.map CaseBranch.constructorIndex,
            index < layout.constructors.length := by
          intro index member
          obtain ⟨branch, isBranch, rfl⟩ := List.mem_map.mp member
          obtain ⟨⟨constructor, isConstructor, _⟩, _⟩ := each branch isBranch
          exact (List.getElem?_eq_some_iff.mp isConstructor).1
        have known := fun branch isBranch => (each branch isBranch).1
        have every : ∀ index < layout.constructors.length,
            index ∈ branches.map CaseBranch.constructorIndex ∨ fallback.isSome := by
          intro index small
          cases fallback with
          | some _ => exact .inr rfl
          | none =>
            simp only at success
            split at success
            next => simp at success
            next full =>
              exact .inl (mem_of_nodup_length once below (by simpa using full) small)
        refine .case here kind (typed.plain (by simp [kind, CoreKind.scopedChildren]) isScrutinee)
          (typeHeadName_named isName) ⟨known, once, every⟩ ?_ ?_
        · intro branch isBranch
          refine typed _ _ _ ?_ (each branch isBranch).2
          rw [kind]
          simp only [CoreKind.scopedChildren, List.mem_append, List.mem_cons, List.mem_map]
          exact .inl (.inr ⟨branch, isBranch, rfl⟩)
        · rintro child rfl
          simp only at success
          split at success
          next => simp at success
          next isFallback =>
            exact typed.plain (by simp [kind, CoreKind.scopedChildren]) (by simpa using isFallback)

/-- One node of the type pass is one typing rule. -/
theorem inferNode_sound (success : inferNode fuel program computed locals id node = some (.ok inferred))
    (same : inferred = node.ty) : HasType program locals id node.ty := by
  simp only [inferNode] at success
  split at success
  next kind => exact inferBoundVar_sound here kind success same
  next kind => exact inferLambda_sound here typed kind success
  next kind => exact inferApply_sound here typed kind success
  next kind => exact inferConstant_sound here kind success
  next kind => exact inferBuiltin_sound here kind success
  next kind => exact inferTuple_sound here typed kind success
  next kind => exact inferList_sound here typed kind success
  next kind => exact inferRecord_sound here typed kind success
  next kind => exact inferRecordGet_sound here typed kind success
  next kind => exact inferRecordSet_sound here typed kind success
  next kind => exact inferRecordModify_sound here typed kind success
  next kind => exact inferVariant_sound here typed kind success
  next kind => exact inferCase_sound here typed kind success

end Rules

section Pass

/-- The invariant of the type pass. -/
structure TypePass (program : CoreProgram) (state : Computed × List TypeWork) : Prop where
  enclosed : ∀ work ∈ state.2, Enclosed program work.1 work.2.2
  typed : ∀ id ty, state.1 id = some ty →
    ∃ locals, Enclosed program id locals ∧ HasType program locals id ty

/-- On a tree the types computed so far are types under the binders of the children of any
enclosed node. -/
private theorem TypePass.childrenTyped {state : Computed × List TypeWork}
    (pass : TypePass program state) (tree : TreeShaped program) (here : program.node id = some node)
    (enclosed : Enclosed program id locals) : ChildrenTyped program state.1 locals node.kind := by
  intro child bound ty member found
  obtain ⟨actual, isEnclosed, typed⟩ := pass.typed child ty found
  rwa [tree.enclosed_unique (.child enclosed here member) isEnclosed]

/-- The step lemma of the type pass. -/
private theorem TypePass.turn {state next : Computed × List TypeWork} (pass : TypePass program state)
    (tree : TreeShaped program) (again : typeTurn fuel program state = some (.again next)) :
    TypePass program next := by
  obtain ⟨computed, stack⟩ := state
  cases stack with
  | nil => simp [typeTurn] at again
  | cons work stack =>
    obtain ⟨id, visited, locals⟩ := work
    have enclosed := pass.enclosed _ (List.mem_cons_self ..)
    have rest : ∀ work ∈ stack, Enclosed program work.1 work.2.2 := fun work member =>
      pass.enclosed work (List.mem_cons_of_mem _ member)
    simp only [typeTurn] at again
    split at again
    next => simp at again
    next node here =>
      simp only [Option.bind_eq_bind, Option.bind_eq_some_iff] at again
      obtain ⟨closed, _, again⟩ := again
      split at again
      next => simp at again
      next =>
        split at again
        next =>
          obtain rfl := Turn.again.inj (Option.some.inj again)
          refine ⟨?_, pass.typed⟩
          intro work member
          rcases List.mem_append.mp member with member | member
          · simp only [enterChildren, List.mem_map] at member
            obtain ⟨⟨child, bound⟩, isChild, rfl⟩ := member
            exact .child enclosed here isChild
          · rcases List.mem_cons.mp member with rfl | member
            · exact enclosed
            · exact rest work member
        next =>
          simp only [Option.bind_eq_some_iff] at again
          obtain ⟨result, success, again⟩ := again
          cases result with
          | error failure => simp at again
          | ok inferred =>
            simp only at again
            split at again
            next => simp at again
            next same =>
              have same : inferred = node.ty := by simpa using same
              obtain rfl := Turn.again.inj (Option.some.inj again)
              refine ⟨rest, fun other ty found => ?_⟩
              by_cases isHere : other = id
              · subst isHere
                obtain rfl : inferred = ty := by simpa using found
                refine ⟨locals, enclosed, ?_⟩
                rw [same]
                exact inferNode_sound here (pass.childrenTyped tree here enclosed) success same
              · exact pass.typed other ty (by simpa [Function.update_of_ne isHere] using found)

/-- Every type that the type pass computes on a tree is derivable. -/
theorem checkTypes_typed (tree : TreeShaped program)
    (checked : checkTypes fuel program = some (.ok computed)) (ty : TypeId)
    (found : computed id = some ty) :
    ∃ locals, Enclosed program id locals ∧ HasType program locals id ty := by
  refine run_invariant (TypePass program) (fun result => ∀ computed, result = .ok computed →
    ∀ id ty, computed id = some ty → ∃ locals, Enclosed program id locals ∧ HasType program locals id ty)
    (fun _ _ pass again => pass.turn tree again) ?_ ?_ checked computed rfl id ty found
  · rintro ⟨computed, stack⟩ result pass leave _ rfl id ty found
    cases stack with
    | nil =>
      obtain rfl : computed = _ := by simpa [typeTurn] using leave
      exact pass.typed id ty found
    | cons work stack =>
      obtain ⟨id, visited, locals⟩ := work
      simp only [typeTurn] at leave
      split at leave
      next => simp at leave
      next node here =>
        simp only [Option.bind_eq_bind, Option.bind_eq_some_iff] at leave
        obtain ⟨closed, _, leave⟩ := leave
        split at leave
        next => simp at leave
        next =>
          split at leave
          next => simp at leave
          next =>
            simp only [Option.bind_eq_some_iff] at leave
            obtain ⟨result, success, leave⟩ := leave
            cases result with
            | error failure => simp at leave
            | ok inferred => simp only at leave; split at leave <;> simp at leave
  · refine ⟨?_, by simp⟩
    intro work member
    obtain rfl := List.mem_singleton.mp member
    exact .root

end Pass

end HellRs.Core
