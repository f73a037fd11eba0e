import HellRs.Compiler.Expansion

/-! # Validation of names

The check that every name of a file means something, made before inference. The explicit work list is
recursion here, with the errors in the same order. An accepted expression names only locals that are in
scope.
-/

namespace HellRs.Compiler

open Syntax

section Types

/-- The public rows of the type constructor manifest. -/
def publicTypes : List String := ["()", "Bool", "Builder", "ByteString", "CI", "Char", "Day", "DayOfWeek", "Double",
  "Either", "ExitCode", "Handle", "IO", "Int", "Integer", "Map", "Maybe", "Set", "Text", "These", "TimeOfDay",
  "Tree", "UTCTime", "Value", "Vector"]

def isPublicTypeName (name : String) : Bool := publicTypes.contains name

/-- The parts of a type expression come before it, so that `fuel` above its position is enough. -/
def validateType (parsed : ParsedFile) (userTypes : UserTypes) : ℕ → TypeExprId → DiagnosticBundle
  | 0, _ => []
  | fuel + 1, id =>
      match parsed.type id with
      | .name name =>
          if !isPublicTypeName name && (userTypes.byName.lookup name).isNone then
            [⟨"H0404", s!"unknown or unavailable type `{name}`"⟩]
          else []
      | ty => ty.children.flatMap (validateType parsed userTypes fuel)

end Types

section Patterns

/-- The names of a pattern, the last one bound first. -/
def patternNames : BindingPattern → List String
  | .name name => [name]
  | .wildcard => ["_"]
  | .tuple names => names.reverse
  | .annotated inner _ => patternNames inner

def patternErrors : BindingPattern → DiagnosticBundle
  | .tuple names => names.zipIdx.filterMap fun (name, index) =>
      if name ∈ names.take index then some ⟨"H0205", s!"duplicate tuple binder `{name}`"⟩ else none
  | .annotated inner _ => patternErrors inner
  | _ => []

/-- The names of several patterns before the names in scope. -/
def pushNames (patterns : List BindingPattern) (locals : List String) : List String :=
  patterns.foldl (fun locals pattern => patternNames pattern ++ locals) locals

end Patterns

section Expressions

variable (parsed : ParsedFile) (globals : Globals) (userTypes : UserTypes)

/-- Every registered builtin is executable. -/
def validateName (name : String) (locals : List String) : DiagnosticBundle :=
  match stripPrefix "Main." name with
  | some global =>
      if (globals.lookup global).isNone && (userTypes.constructors.lookup global).isNone then
        [⟨"H0402", s!"unknown global `{name}`"⟩]
      else []
  | none =>
      if isPrimitive name then
        if name ∈ ["Record.get", "Record.set", "Record.modify"] then []
        else if (Builtins.lookup name).isNone then [⟨"H0403", s!"unknown primitive `{name}`"⟩]
        else []
      else if name ∈ locals then []
      else if (globals.lookup name).isSome then
        [⟨"H0401", s!"global `{name}` must be referenced as `Main.{name}`"⟩]
      else if (userTypes.constructors.lookup name).isSome then
        [⟨"H0401", s!"constructor `{name}` must be qualified as `Main.{name}`"⟩]
      else [⟨"H0401", s!"unbound local `{name}`"⟩]

def validateRecord (constructor : String) (fields : List RecordFieldExpr) : DiagnosticBundle :=
  let knownUserRecord := match (stripPrefix "Main." constructor).bind fun name => userTypes.constructors.lookup name with
    | some (ConstructorOwner.record _) => true
    | _ => false
  let unknown := if !knownUserRecord && (Builtins.lookup constructor).isNone then
      [⟨"H0403", s!"unknown record-construction function `{constructor}`"⟩]
    else []
  let names := fields.map RecordFieldExpr.name
  unknown ++ names.zipIdx.filterMap fun (name, index) =>
    if name ∈ names.take index then some ⟨"H0603", s!"duplicate record initializer `{name}`"⟩ else none

variable (validate : ExprId → List String → DiagnosticBundle)

def validateStatements : List DoStatement → List String → DiagnosticBundle
  | [], _ => []
  | statement :: rest, locals =>
      validate statement.expression locals ++
        (statement.pattern?.elim [] patternErrors ++
          validateStatements rest (pushNames statement.pattern?.toList locals))

def validateStep (id : ExprId) (locals : List String) : DiagnosticBundle :=
  match parsed.expression id with
  | .name name => validateName globals userTypes name locals
  | .literal _ => []
  | .apply function argument => validate function locals ++ validate argument locals
  | .typeApply function argument => validate function locals ++ validateType parsed userTypes (argument + 1) argument
  | .lambda parameters body => parameters.flatMap patternErrors ++ validate body (pushNames parameters locals)
  | .ifThenElse condition thenBranch elseBranch =>
      validate condition locals ++ (validate thenBranch locals ++ validate elseBranch locals)
  | .doBlock statements => validateStatements validate statements locals
  | .case scrutinee alternatives => validate scrutinee locals ++
      alternatives.flatMap fun alternative =>
        validate alternative.expression ((binders alternative.pattern).reverse ++ locals)
  | .tuple elements => elements.flatMap fun element => validate element locals
  | .list elements => elements.flatMap fun element => validate element locals
  | .recordConstruction constructor fields =>
      validateRecord userTypes constructor fields ++ fields.flatMap fun field => validate field.value locals
  | .annotated expression ty => validate expression locals ++ validateType parsed userTypes (ty + 1) ty

end Expressions

section Files

variable (parsed : ParsedFile) (globals : Globals) (userTypes : UserTypes)

def validateExpression : ℕ → ExprId → List String → DiagnosticBundle
  | 0, _, _ => []
  | fuel + 1, id, locals => validateStep parsed globals userTypes (validateExpression fuel) id locals

def validateDeclaration : Declaration → DiagnosticBundle
  | .value declaration =>
      validateExpression parsed globals userTypes (declaration.value + 1) declaration.value [] ++
        declaration.annotation.elim [] fun ty => validateType parsed userTypes (ty + 1) ty
  | .record declaration => declaration.fields.flatMap fun field => validateType parsed userTypes (field.ty + 1) field.ty
  | .sum declaration => declaration.constructors.flatMap fun constructor =>
      constructor.payload.elim [] fun payload => validateType parsed userTypes (payload + 1) payload

def validateAllNames : Except DiagnosticBundle Unit :=
  match parsed.declarations.flatMap (validateDeclaration parsed globals userTypes) with
  | [] => .ok ()
  | errors => .error errors

end Files

section Scoped

variable {context : InferContext} {id part : ExprId} {names : List String}

/-- The names below the expression mean something where the given locals are in scope. -/
def Validated (context : InferContext) (id : ExprId) (names : List String) : Prop :=
  ∃ fuel, id < fuel ∧ validateExpression context.parsed context.globals context.userTypes fuel id names = []

/-- The part is validated with these locals when the expression is validated. -/
theorem Validated.step {names' : List String} (validated : Validated context id names) (before : part < id)
    (each : ∀ validate : ExprId → List String → DiagnosticBundle,
      validateStep context.parsed context.globals context.userTypes validate id names = [] → validate part names' = []) :
    Validated context part names' := by
  obtain ⟨fuel, enough, accepted⟩ := validated
  cases fuel with
  | zero => cases enough
  | succ fuel => exact ⟨fuel, Nat.lt_of_lt_of_le before (Nat.le_of_lt_succ enough), each _ accepted⟩

/-- A local that is named is in scope. -/
theorem Validated.name {name : String} (validated : Validated context id names)
    (shape : context.parsed.expression id = .name name) (isLocal : stripPrefix "Main." name = none)
    (notPrimitive : isPrimitive name = false) : name ∈ names := by
  obtain ⟨fuel, enough, accepted⟩ := validated
  cases fuel with
  | zero => cases enough
  | succ fuel =>
    by_contra unbound
    simp only [validateExpression, validateStep, shape, validateName, isLocal, notPrimitive] at accepted
    simp only [Bool.false_eq_true, if_false, unbound] at accepted
    split at accepted
    · cases accepted
    · split at accepted <;> cases accepted

/-- The body of a global is validated without locals. -/
theorem validated_global {value index : ℕ} (accepted : validateAllNames context.parsed context.globals context.userTypes = .ok ())
    (isValue : globalValue context.parsed index = some value) : Validated context value [] := by
  obtain ⟨declaration, declared, isValue⟩ := Option.bind_eq_some_iff.mp isValue
  have none : context.parsed.declarations.flatMap
      (validateDeclaration context.parsed context.globals context.userTypes) = [] := by
    rw [validateAllNames] at accepted
    split at accepted
    next none => exact none
    next => cases accepted
  have here := List.flatMap_eq_nil_iff.mp none declaration (List.mem_of_getElem? declared)
  cases declaration with
  | value declaration =>
    obtain rfl := Option.some.inj isValue
    exact ⟨declaration.value + 1, Nat.lt_succ_self _, (List.append_eq_nil_iff.mp here).1⟩
  | record | sum => cases isValue

end Scoped

end HellRs.Compiler
