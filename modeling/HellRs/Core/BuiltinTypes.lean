import HellRs.Builtins.Scheme
import HellRs.Core.Accepted

/-! # The types of builtin nodes

The checker compares the type of a builtin with its registered scheme in one of four ways: the
rendered text, the whole shape, the arrows with the heads of their sides, or the number of arguments
only. Only the second way makes the type an instance of the scheme.
-/

namespace HellRs.Core

open Types Builtins

variable {types : TypeArena} {ty : TypeId}

/-- The type is the scheme type with the type variables replaced. -/
def Matches (types : TypeArena) (σ : List Char → TypeId) : SchemeType → TypeId → Prop
  | .var name, ty => σ name = ty
  | .con name, ty => ConstructorNamed types ty (String.ofList name)
  | .app head argument, ty => ∃ left right, types.get ty = some (.apply left right) ∧
      Matches types σ head left ∧ Matches types σ argument right
  | .arrow argument result, ty => ∃ left right, types.get ty = some (.function left right) ∧
      Matches types σ argument left ∧ Matches types σ result right

/-- The type is a substitution instance of the scheme type. -/
def IsInstance (types : TypeArena) (scheme : SchemeType) (ty : TypeId) : Prop :=
  ∃ σ, Matches types σ scheme ty

/-- The type has the arrows of the scheme type, and its sides have the same head constructors. -/
def Outlines (types : TypeArena) : SchemeType → TypeId → Prop
  | .arrow argument result, ty => ∃ left right, types.get ty = some (.function left right) ∧
      Outlines types argument left ∧ Outlines types result right
  | scheme, ty => ∀ name, scheme.headName = some name → HeadNamed types ty (String.ofList name)

/-- The type takes this number of arguments before a result that is no function. -/
inductive TakesArguments (types : TypeArena) : TypeId → ℕ → Prop
  | result {ty : TypeId} {node : TypeNode} (here : types.get ty = some node)
      (plain : ∀ argument result, node ≠ .function argument result) : TakesArguments types ty 0
  | argument {ty argument result : TypeId} {count : ℕ}
      (here : types.get ty = some (.function argument result))
      (rest : TakesArguments types result count) : TakesArguments types ty (count + 1)

/-- The ways to compare the type of a builtin with its scheme. -/
inductive Comparison where
  | rendered
  | whole
  | outline
  | arguments
deriving DecidableEq, Repr

/-- The way the checker compares the builtin of this name. -/
def comparison (name : String) : Comparison :=
  if (expectedDisplay name).isSome then .rendered
  else if name ∈ ["Eq.eq", "Ord.lt", "Ord.gt", "Function.id", "Function.fix", "Error.error"] then .whole
  else if name ∈ ["hell:Hell.NilR", "hell:Hell.ConsR", "hell:Hell.LeftV", "hell:Hell.RightV",
      "hell:Hell.NilA", "hell:Hell.WildA", "hell:Hell.ConsA", "hell:Hell.runAccessor",
      "hell:Hell.Tagged", "hell:Hell.Nullary"] then .outline
  else .arguments

/-- What the comparison says about the type of a builtin with this registry row. -/
def Compared (types : TypeArena) (spec : BuiltinSpec) (ty : TypeId) : Comparison → Prop
  | .rendered => ∃ fuel, types.display fuel ty = some spec.scheme
  | .whole => ∃ scheme, parseScheme spec.scheme = some scheme ∧ IsInstance types scheme ty
  | .outline => ∃ scheme, parseScheme spec.scheme = some scheme ∧ Outlines types scheme ty
  | .arguments => TakesArguments types ty spec.arity

section Reading

private theorem onArrow_true {test : TypeId → TypeId → Option Bool}
    (holds : onArrow types ty test = some true) :
    ∃ argument result, types.get ty = some (.function argument result) ∧
      test argument result = some true := by
  simp only [onArrow, arrow, Option.bind_eq_bind, Option.bind_eq_some_iff, Option.map_eq_some_iff] at holds
  obtain ⟨sides, ⟨node, here, rfl⟩, holds⟩ := holds
  cases node with
  | function argument result => exact ⟨argument, result, here, holds⟩
  | _ => simp at holds

private theorem headIs_true {fuel : ℕ} {name : String} (holds : headIs fuel types ty name = some true) :
    HeadNamed types ty name := by
  simp only [headIs, Option.map_eq_some_iff, decide_eq_true_eq] at holds
  obtain ⟨head, found, rfl⟩ := holds
  exact typeHeadName_named found

private theorem both_true {first second : Option Bool} (holds : both first second = some true) :
    first = some true ∧ second = some true := by
  simp only [both, Option.bind_eq_bind, Option.bind_eq_some_iff] at holds
  obtain ⟨value, isValue, holds⟩ := holds
  cases value with
  | true => exact ⟨isValue, holds⟩
  | false => simp at holds

private theorem constructorName_true {name : String}
    (holds : ((constructorName types ty).map fun found => decide (found = some name)) = some true) :
    ConstructorNamed types ty name := by
  simp only [Option.map_eq_some_iff, decide_eq_true_eq] at holds
  obtain ⟨_, found, rfl⟩ := holds
  exact constructorName_named found

private theorem arrow_isSome (holds : (arrow types ty).map Option.isSome = some true) :
    ∃ argument result, types.get ty = some (.function argument result) := by
  simp only [arrow, Option.map_map, Option.map_eq_some_iff, Function.comp_apply] at holds
  obtain ⟨node, here, holds⟩ := holds
  cases node with
  | function argument result => exact ⟨argument, result, here⟩
  | _ => simp at holds

private theorem functionTypeParts_takes {fuel : ℕ} {seen arguments : List TypeId} {result : TypeId}
    (found : functionTypeParts types fuel ty seen = some (arguments, result)) :
    ∃ count, arguments.length = seen.length + count ∧ TakesArguments types ty count := by
  induction fuel generalizing ty seen with
  | zero => cases found
  | succ fuel ih =>
    simp only [functionTypeParts, Option.bind_eq_bind, Option.bind_eq_some_iff] at found
    obtain ⟨node, here, found⟩ := found
    split at found
    next argument rest =>
      obtain ⟨count, length, takes⟩ := ih found
      refine ⟨count + 1, ?_, .argument here takes⟩
      rw [length, List.length_append, List.length_singleton]
      omega
    next plain =>
      obtain ⟨rfl, rfl⟩ := Prod.mk.inj (Option.some.inj found)
      exact ⟨0, rfl, .result here plain⟩

private theorem headNamed_of_constructor {name : String} (named : ConstructorNamed types ty name) :
    HeadNamed types ty name :=
  ⟨ty, [], .head, named⟩

/-- A side of an outline with a head constructor. -/
private theorem outlines_head {scheme : SchemeType} {name : List Char}
    (head : scheme.headName = some name) (named : HeadNamed types ty (String.ofList name)) :
    Outlines types scheme ty := by
  cases scheme with
  | arrow _ _ => simp [SchemeType.headName] at head
  | var _ => simp [SchemeType.headName] at head
  | con _ => rintro _ same; rw [head] at same; exact Option.some.inj same ▸ named
  | app _ _ => rintro _ same; rw [head] at same; exact Option.some.inj same ▸ named

private theorem outlines_var {name : List Char} : Outlines types (.var name) ty := by
  rintro _ same
  simp [SchemeType.headName] at same

end Reading

section Comparing

private theorem expectedDisplay_scheme {name text : String} (expected : expectedDisplay name = some text) :
    ∃ spec ∈ registry, spec.name = name ∧ spec.scheme = text := by
  simp only [expectedDisplay, List.mem_cons, List.not_mem_nil, or_false] at expected
  split_ifs at expected with isName isName isName isName isName isName isName isName isName <;>
    obtain rfl := Option.some.inj expected
  · rcases isName with rfl | rfl
    · exact ⟨_, List.mem_of_getElem? (i := 293) rfl, rfl, rfl⟩
    · exact ⟨_, List.mem_of_getElem? (i := 294) rfl, rfl, rfl⟩
  · subst isName; exact ⟨_, List.mem_of_getElem? (i := 296) rfl, rfl, rfl⟩
  · rcases isName with rfl | rfl | rfl
    · exact ⟨_, List.mem_of_getElem? (i := 237) rfl, rfl, rfl⟩
    · exact ⟨_, List.mem_of_getElem? (i := 240) rfl, rfl, rfl⟩
    · exact ⟨_, List.mem_of_getElem? (i := 236) rfl, rfl, rfl⟩
  · subst isName; exact ⟨_, List.mem_of_getElem? (i := 234) rfl, rfl, rfl⟩
  · subst isName; exact ⟨_, List.mem_of_getElem? (i := 239) rfl, rfl, rfl⟩
  · subst isName; exact ⟨_, List.mem_of_getElem? (i := 69) rfl, rfl, rfl⟩
  · subst isName; exact ⟨_, List.mem_of_getElem? (i := 79) rfl, rfl, rfl⟩
  · subst isName; exact ⟨_, List.mem_of_getElem? (i := 89) rfl, rfl, rfl⟩
  · rcases isName with rfl | rfl
    · exact ⟨_, List.mem_of_getElem? (i := 82) rfl, rfl, rfl⟩
    · exact ⟨_, List.mem_of_getElem? (i := 83) rfl, rfl, rfl⟩

/-- A registered scheme text that reads as the given scheme type. -/
private theorem whole_of_row (index : ℕ) {spec : BuiltinSpec} {name : String} {scheme : SchemeType}
    (row : registry[index]? = some spec) (named : spec.name = name)
    (parsed : parseScheme spec.scheme = some scheme) (isInstance : IsInstance types scheme ty) :
    ∃ spec ∈ registry, spec.name = name ∧ Compared types spec ty .whole :=
  ⟨spec, List.mem_of_getElem? row, named, scheme, parsed, isInstance⟩

private theorem outline_of_row (index : ℕ) {spec : BuiltinSpec} {name : String} {scheme : SchemeType}
    (row : registry[index]? = some spec) (named : spec.name = name)
    (parsed : parseScheme spec.scheme = some scheme) (outlines : Outlines types scheme ty) :
    ∃ spec ∈ registry, spec.name = name ∧ Compared types spec ty .outline :=
  ⟨spec, List.mem_of_getElem? row, named, scheme, parsed, outlines⟩

private theorem comparison_instance
    (isPlausible : (onArrow types ty fun left rest => onArrow types rest fun right result =>
      if left = right then (constructorName types result).map fun name => decide (name = some "Bool")
      else some false) = some true) :
    IsInstance types (.arrow (.var ['a']) (.arrow (.var ['a']) (.con ['B', 'o', 'o', 'l']))) ty := by
  obtain ⟨left, rest, outer, isPlausible⟩ := onArrow_true isPlausible
  obtain ⟨right, result, inner, isPlausible⟩ := onArrow_true isPlausible
  split at isPlausible
  next same =>
    exact ⟨fun _ => left, left, rest, outer, rfl, right, result, inner, same,
      constructorName_true isPlausible⟩
  next => simp at isPlausible

private theorem whole_instance {fuel : ℕ} {name : String}
    (isWhole : name ∈ ["Eq.eq", "Ord.lt", "Ord.gt", "Function.id", "Function.fix", "Error.error"])
    (isPlausible : builtinShapeIsPlausible fuel types name ty = some true) :
    ∃ spec ∈ registry, spec.name = name ∧ Compared types spec ty .whole := by
  simp only [List.mem_cons, List.not_mem_nil, or_false] at isWhole
  rcases isWhole with rfl | rfl | rfl | rfl | rfl | rfl
  · exact whole_of_row 340 rfl rfl ((parseScheme_ofList _).trans rfl)
      (comparison_instance (by simpa [builtinShapeIsPlausible] using isPlausible))
  · exact whole_of_row 332 rfl rfl ((parseScheme_ofList _).trans rfl)
      (comparison_instance (by simpa [builtinShapeIsPlausible] using isPlausible))
  · exact whole_of_row 331 rfl rfl ((parseScheme_ofList _).trans rfl)
      (comparison_instance (by simpa [builtinShapeIsPlausible] using isPlausible))
  · refine whole_of_row 330 rfl rfl ((parseScheme_ofList _).trans rfl) ?_
    obtain ⟨argument, result, here, same⟩ :=
      onArrow_true (by simpa [builtinShapeIsPlausible] using isPlausible)
    obtain rfl : argument = result := by simpa using same
    exact ⟨fun _ => argument, argument, argument, here, rfl, rfl⟩
  · refine whole_of_row 329 rfl rfl ((parseScheme_ofList _).trans rfl) ?_
    obtain ⟨callee, result, here, inner⟩ :=
      onArrow_true (by simpa [builtinShapeIsPlausible] using isPlausible)
    obtain ⟨argument, calleeResult, calleeHere, same⟩ := onArrow_true inner
    obtain ⟨rfl, rfl⟩ : argument = result ∧ calleeResult = result := by simpa using same
    exact ⟨fun _ => calleeResult, callee, calleeResult, here,
      ⟨calleeResult, calleeResult, calleeHere, rfl, rfl⟩, rfl⟩
  · refine whole_of_row 341 rfl rfl ((parseScheme_ofList _).trans rfl) ?_
    obtain ⟨argument, result, here, named⟩ :=
      onArrow_true (by simpa [builtinShapeIsPlausible] using isPlausible)
    exact ⟨fun _ => result, argument, result, here, constructorName_true named, rfl⟩

set_option maxRecDepth 2000 in
private theorem outline_outlines {fuel : ℕ} {name : String}
    (isOutline : name ∈ ["hell:Hell.NilR", "hell:Hell.ConsR", "hell:Hell.LeftV", "hell:Hell.RightV",
      "hell:Hell.NilA", "hell:Hell.WildA", "hell:Hell.ConsA", "hell:Hell.runAccessor",
      "hell:Hell.Tagged", "hell:Hell.Nullary"])
    (isPlausible : builtinShapeIsPlausible fuel types name ty = some true) :
    ∃ spec ∈ registry, spec.name = name ∧ Compared types spec ty .outline := by
  simp only [List.mem_cons, List.not_mem_nil, or_false] at isOutline
  rcases isOutline with rfl | rfl | rfl | rfl | rfl | rfl | rfl | rfl | rfl | rfl
  · refine outline_of_row 349 rfl rfl ((parseScheme_ofList _).trans rfl) ?_
    exact outlines_head rfl (headIs_true (by simpa [builtinShapeIsPlausible] using isPlausible))
  · refine outline_of_row 346 rfl rfl ((parseScheme_ofList _).trans rfl) ?_
    obtain ⟨first, rest, here, isPlausible⟩ :=
      onArrow_true (by simpa [builtinShapeIsPlausible] using isPlausible)
    obtain ⟨tail, result, restHere, isPlausible⟩ := onArrow_true isPlausible
    obtain ⟨tailHead, resultHead⟩ := both_true isPlausible
    exact ⟨first, rest, here, outlines_var, tail, result, restHere,
      outlines_head rfl (headIs_true tailHead),
      outlines_head rfl (headIs_true resultHead)⟩
  · refine outline_of_row 347 rfl rfl ((parseScheme_ofList _).trans rfl) ?_
    obtain ⟨argument, result, here, resultHead⟩ :=
      onArrow_true (by simpa [builtinShapeIsPlausible] using isPlausible)
    exact ⟨argument, result, here, outlines_var,
      outlines_head rfl (headIs_true resultHead)⟩
  · refine outline_of_row 351 rfl rfl ((parseScheme_ofList _).trans rfl) ?_
    obtain ⟨argument, result, here, isPlausible⟩ :=
      onArrow_true (by simpa [builtinShapeIsPlausible] using isPlausible)
    obtain ⟨argumentHead, resultHead⟩ := both_true isPlausible
    exact ⟨argument, result, here, outlines_head rfl (headIs_true argumentHead),
      outlines_head rfl (headIs_true resultHead)⟩
  · refine outline_of_row 348 rfl rfl ((parseScheme_ofList _).trans rfl) ?_
    exact outlines_head rfl (headIs_true (by simpa [builtinShapeIsPlausible] using isPlausible))
  · refine outline_of_row 353 rfl rfl ((parseScheme_ofList _).trans rfl) ?_
    obtain ⟨argument, result, here, resultHead⟩ :=
      onArrow_true (by simpa [builtinShapeIsPlausible] using isPlausible)
    exact ⟨argument, result, here, outlines_var,
      outlines_head rfl (headIs_true resultHead)⟩
  · refine outline_of_row 345 rfl rfl ((parseScheme_ofList _).trans rfl) ?_
    obtain ⟨handler, rest, here, isPlausible⟩ :=
      onArrow_true (by simpa [builtinShapeIsPlausible] using isPlausible)
    obtain ⟨handlerArrow, isPlausible⟩ := both_true isPlausible
    obtain ⟨argument, result, handlerHere⟩ := arrow_isSome handlerArrow
    obtain ⟨tail, accessor, restHere, isPlausible⟩ := onArrow_true isPlausible
    obtain ⟨tailHead, accessorHead⟩ := both_true isPlausible
    exact ⟨handler, rest, here, ⟨argument, result, handlerHere, outlines_var, outlines_var⟩,
      tail, accessor, restHere, outlines_head rfl (headIs_true tailHead),
      outlines_head rfl (headIs_true accessorHead)⟩
  · refine outline_of_row 354 rfl rfl ((parseScheme_ofList _).trans rfl) ?_
    obtain ⟨tagged, rest, here, isPlausible⟩ :=
      onArrow_true (by simpa [builtinShapeIsPlausible] using isPlausible)
    obtain ⟨taggedHead, isPlausible⟩ := both_true isPlausible
    obtain ⟨accessor, result, restHere, accessorHead⟩ := onArrow_true isPlausible
    exact ⟨tagged, rest, here, outlines_head rfl (headIs_true taggedHead),
      accessor, result, restHere, outlines_head rfl (headIs_true accessorHead),
      outlines_var⟩
  · refine outline_of_row 352 rfl rfl ((parseScheme_ofList _).trans rfl) ?_
    obtain ⟨argument, result, here, resultHead⟩ :=
      onArrow_true (by simpa [builtinShapeIsPlausible] using isPlausible)
    exact ⟨argument, result, here, outlines_var,
      outlines_head rfl (headIs_true resultHead)⟩
  · refine outline_of_row 350 rfl rfl ((parseScheme_ofList _).trans rfl) ?_
    exact outlines_head rfl (headNamed_of_constructor
      (constructorName_true (by simpa [builtinShapeIsPlausible] using isPlausible)))

/-- Every other builtin takes as many arguments as its row says. -/
private theorem other_takes {fuel : ℕ} {name : String} (way : comparison name = .arguments)
    (isPlausible : builtinShapeIsPlausible fuel types name ty = some true) :
    ∃ spec ∈ registry, spec.name = name ∧ Compared types spec ty .arguments := by
  simp only [comparison] at way
  split_ifs at way with _ notWhole notOutline
  simp only [List.mem_cons, List.not_mem_nil, or_false, not_or] at notWhole notOutline
  simp only [builtinShapeIsPlausible, List.mem_cons, List.not_mem_nil, or_false, notWhole, notOutline,
    if_false, Option.bind_eq_bind, Option.bind_eq_some_iff, Option.some.injEq] at isPlausible
  obtain ⟨⟨arguments, result⟩, parts, isPlausible⟩ := isPlausible
  split at isPlausible
  next spec found =>
    obtain ⟨count, length, takes⟩ := functionTypeParts_takes parts
    refine ⟨spec, List.mem_of_find?_eq_some found, by simpa using List.find?_some found, ?_⟩
    have same : arguments.length = spec.arity := by simpa using isPlausible
    obtain rfl : count = spec.arity := by simpa [same] using length.symm
    exact takes
  next => simp at isPlausible

/-- What the comparison establishes for each builtin: the rendered text, an instance, an outline or
the number of arguments. -/
theorem builtinTypeIsPlausible_compared {fuel : ℕ} {name : String}
    (isPlausible : builtinTypeIsPlausible fuel types name ty = some true) :
    ∃ spec ∈ registry, spec.name = name ∧ Compared types spec ty (comparison name) := by
  simp only [builtinTypeIsPlausible, Option.bind_eq_bind, Option.bind_eq_some_iff] at isPlausible
  obtain ⟨displayed, shown, isPlausible⟩ := isPlausible
  cases expected : expectedDisplay name with
  | some text =>
    obtain ⟨spec, member, named, sameText⟩ := expectedDisplay_scheme expected
    rw [expected] at isPlausible
    obtain rfl : displayed = text := by simpa using isPlausible
    rw [comparison, if_pos (by simp [expected])]
    exact ⟨spec, member, named, fuel, by rw [shown, sameText]⟩
  | none =>
    rw [expected] at isPlausible
    cases way : comparison name with
    | rendered =>
      simp only [comparison, expected, Option.isSome_none, Bool.false_eq_true, if_false] at way
      split_ifs at way
    | whole =>
      simp only [comparison, expected, Option.isSome_none, Bool.false_eq_true, if_false] at way
      split_ifs at way with isWhole
      exact whole_instance isWhole isPlausible
    | outline =>
      simp only [comparison, expected, Option.isSome_none, Bool.false_eq_true, if_false] at way
      split_ifs at way with _ isOutline
      exact outline_outlines isOutline isPlausible
    | arguments => exact other_takes way isPlausible

/-- In an accepted program every builtin node below the root is registered, and its type agrees with
the registry as far as the comparison for its name says. -/
theorem verify_builtin {program : CoreProgram} {fuel : ℕ} {executable : ExecutableProgram}
    (success : verify fuel program = some (.ok executable)) {id : CoreId} {locals : List TypeId}
    (enclosed : Enclosed program id locals) {node : CoreNode} (here : program.node id = some node)
    {builtin : BuiltinId} {evidence : Option ClassEvidence}
    (kind : node.kind = .builtin builtin evidence) :
    ∃ row, registry[builtin]? = some row ∧ ∃ spec ∈ registry, spec.name = row.name ∧
      Compared program.types spec node.ty (comparison row.name) := by
  obtain ⟨_, accepted⟩ := verify_accepted success
  obtain ⟨_, typed⟩ := enclosed.hasType accepted.rootTyped
  obtain ⟨_, row, registered, isPlausible, _⟩ := typed.admitted here kind
  exact ⟨row, registered, builtinTypeIsPlausible_compared isPlausible⟩

theorem hello_builtin : ∃ spec ∈ registry, spec.name = "Text.putStrLn" ∧
    Compared helloProgram.types spec 4 .rendered := by
  have enclosed : Enclosed helloProgram 1 [] :=
    Enclosed.child (@Enclosed.root helloProgram) rfl (List.mem_cons_self ..)
  obtain ⟨_, registered, compared⟩ := verify_builtin verify_hello enclosed rfl rfl
  obtain rfl := Option.some.inj registered
  exact compared

/-- The type is an instance of the registered scheme of the builtin. -/
def CarriesInstance (types : TypeArena) (builtin : BuiltinId) (ty : TypeId) : Prop :=
  ∃ spec scheme, registry[builtin]? = some spec ∧ spec.schemeType = some scheme ∧
    IsInstance types scheme ty

/-- In every accepted program the builtin nodes compared in this way carry instances. -/
def InstancesFor (way : Comparison) : Prop :=
  ∀ (program : CoreProgram) (fuel : ℕ) (executable : ExecutableProgram),
    verify fuel program = some (.ok executable) → ∀ node ∈ program.nodes,
      ∀ builtin evidence spec, node.kind = .builtin builtin evidence →
        registry[builtin]? = some spec → comparison spec.name = way →
          CarriesInstance program.types builtin node.ty

/-- `main = (\x -> Text.putStrLn "hello") builtin`, where `x` has the given type. -/
def unusedArgument (builtin : BuiltinId) (ty : TypeNode) : CoreProgram where
  root := 0
  nodes := [
    ⟨3, ⟨0, 0, 0⟩, .apply 1 2⟩,
    ⟨6, ⟨0, 0, 0⟩, .lambda 5 3⟩,
    ⟨5, ⟨0, 0, 0⟩, .builtin builtin none⟩,
    ⟨3, ⟨0, 0, 0⟩, .apply 4 5⟩,
    ⟨4, ⟨0, 0, 0⟩, .builtin 83 none⟩,
    ⟨0, ⟨0, 0, 0⟩, .constant (.text "hello")⟩]
  types := ⟨helloProgram.types.nodes ++ [ty, .function 5 3]⟩
  mainType := 3
  instanceEvidence := []

private theorem verify_renderedArgument :
    verify 40 (unusedArgument 83 (.constructor "Text -> IO ()" KindArena.TYPE)) =
      some (.ok (unusedArgument 83 (.constructor "Text -> IO ()" KindArena.TYPE)).seal) := by
  decide

private theorem verify_outlinedArgument :
    verify 40 (unusedArgument 349 (.constructor "hell:Hell.Record" KindArena.TYPE)) =
      some (.ok (unusedArgument 349 (.constructor "hell:Hell.Record" KindArena.TYPE)).seal) := by
  decide

private theorem verify_countedArgument :
    verify 40 (unusedArgument 31 (.function 0 3)) =
      some (.ok (unusedArgument 31 (.function 0 3)).seal) := by
  decide

/-- `helloProgram` beside a builtin that the root does not reach. -/
def unreachedBuiltin : CoreProgram :=
  { helloProgram with nodes := helloProgram.nodes ++ [⟨0, ⟨0, 0, 0⟩, .builtin 330 none⟩] }

private theorem verify_unreached :
    verify 40 unreachedBuiltin = some (.ok unreachedBuiltin.seal) := by
  decide

private theorem not_instancesFor {way : Comparison} {program : CoreProgram} {node : CoreNode}
    {builtin : BuiltinId} {spec : BuiltinSpec}
    (accepts : verify 40 program = some (.ok program.seal)) (member : node ∈ program.nodes)
    (kind : node.kind = .builtin builtin none) (registered : registry[builtin]? = some spec)
    (compared : comparison spec.name = way)
    (not : ¬CarriesInstance program.types builtin node.ty) : ¬InstancesFor way :=
  fun always => not (always _ _ _ accepts _ member builtin none spec kind registered compared)

/-- A constructor can be named like the text of a type, a record constructor can lack its row, a
function can have any sides, and a node that the root does not reach can have any type. -/
theorem not_instances : ¬InstancesFor .rendered ∧ ¬InstancesFor .outline ∧
    ¬InstancesFor .arguments ∧ ¬InstancesFor .whole := by
  refine ⟨not_instancesFor verify_renderedArgument (List.mem_of_getElem? (i := 2) rfl) rfl rfl
      (by decide) ?_,
    not_instancesFor verify_outlinedArgument (List.mem_of_getElem? (i := 2) rfl) rfl rfl
      (by decide) ?_,
    not_instancesFor verify_countedArgument (List.mem_of_getElem? (i := 2) rfl) rfl rfl
      (by decide) ?_,
    not_instancesFor verify_unreached (List.mem_of_getElem? (i := 3) rfl) rfl rfl
      (by decide) ?_⟩
  all_goals
    rintro ⟨spec, scheme, registered, parsed, σ, isInstance⟩
    obtain rfl := Option.some.inj registered
    obtain rfl := Option.some.inj (parsed.symm.trans ((parseScheme_ofList _).trans rfl))
    obtain ⟨left, right, here, sides⟩ := isInstance
    simp [TypeArena.get, unusedArgument, unreachedBuiltin, helloProgram] at here
  -- Only the counted builtin has a type with arguments.
  obtain ⟨_, rfl⟩ := here
  obtain ⟨_, kind, result⟩ := sides
  cases result

end Comparing

end HellRs.Core
