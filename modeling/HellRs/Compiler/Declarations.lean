import Mathlib
import HellRs.Syntax.Ast

/-! # Data types and globals of a file

The tables that the compiler makes of the declarations of a file. A hash map is the list of its entries,
the last one inserted first. The spans and notes of diagnostics are left out.
-/

namespace HellRs.Compiler

open Syntax

structure Diagnostic where
  code : String
  message : String
deriving DecidableEq, Repr

abbrev DiagnosticBundle := List Diagnostic

structure UserField where
  name : String
  ty : TypeExprId
deriving DecidableEq, Repr

structure UserConstructor where
  name : String
  payload : Option TypeExprId
deriving DecidableEq, Repr

inductive UserTypeShape where
  | record (constructor : String) (fields : List UserField)
  | variant (constructors : List UserConstructor)
deriving DecidableEq, Repr

structure UserType where
  qualifiedName : String
  shape : UserTypeShape
deriving DecidableEq, Repr

inductive ConstructorOwner where
  | record (typeIndex : ℕ)
  | variant (typeIndex constructorIndex : ℕ)
deriving DecidableEq, Repr

structure UserTypes where
  definitions : List UserType
  byName : List (String × ℕ)
  constructors : List (String × ConstructorOwner)
deriving DecidableEq, Repr

abbrev Globals := List (String × ℕ)

/-- The fields of a record, in the order of their names. -/
def collectFields (fields : List FieldDecl) : Except DiagnosticBundle (List UserField) := do
  let collected ← fields.foldlM (fun (seen : List UserField) field =>
    if seen.any fun earlier => earlier.name = field.name then
      throw [⟨"H0304", s!"duplicate record field `{field.name}`"⟩]
    else pure (seen ++ [⟨field.name, field.ty⟩])) []
  pure (collected.insertionSort fun left right => left.name ≤ right.name)

/-- The constructors of a sum, in the order of their names; of repeated ones the last. -/
def normalizeConstructors (constructors : List ConstructorDecl) : List UserConstructor :=
  let normalized := constructors.foldl (fun normalized constructor =>
    normalized.filter (fun (other : UserConstructor) => other.name ≠ constructor.name) ++
      [⟨constructor.name, constructor.payload⟩]) []
  normalized.insertionSort fun left right => left.name ≤ right.name

/-- The name and the shape of a data declaration. -/
def Declaration.userType? : Declaration → Except DiagnosticBundle (Option (String × UserTypeShape))
  | .value _ => pure none
  | .record declaration => do
      let fields ← collectFields declaration.fields
      pure (some (declaration.typeName, .record declaration.constructor fields))
  | .sum declaration =>
      pure (some (declaration.typeName, .variant (normalizeConstructors declaration.constructors)))

def insertType (result : UserTypes) (declaration : Declaration) : Except DiagnosticBundle UserTypes := do
  match ← Declaration.userType? declaration with
  | none => pure result
  | some (typeName, shape) =>
      let qualifiedName := "Main." ++ typeName
      if (result.byName.lookup qualifiedName).isSome then
        throw [⟨"H0302", s!"duplicate user type `{qualifiedName}`"⟩]
      else pure { result with
        definitions := result.definitions ++ [⟨qualifiedName, shape⟩]
        byName := (qualifiedName, result.definitions.length) :: result.byName }

def insertConstructor (constructors : List (String × ConstructorOwner)) :
    String × ConstructorOwner → Except DiagnosticBundle (List (String × ConstructorOwner))
  | (name, owner) =>
      if (constructors.lookup name).isSome then throw [⟨"H0303", s!"duplicate constructor `{name}`"⟩]
      else pure ((name, owner) :: constructors)

/-- The constructors of a definition with their owners. -/
def UserType.owners (definition : UserType) (typeIndex : ℕ) : List (String × ConstructorOwner) :=
  match definition.shape with
  | .record constructor _ => [(constructor, .record typeIndex)]
  | .variant constructors =>
      constructors.zipIdx.map fun (constructor, index) => (constructor.name, .variant typeIndex index)

def collectUserTypes (parsed : ParsedFile) : Except DiagnosticBundle UserTypes := do
  let result ← parsed.declarations.foldlM insertType ⟨[], [], []⟩
  let owners := result.definitions.zipIdx.flatMap fun (definition, typeIndex) => definition.owners typeIndex
  let constructors ← owners.foldlM insertConstructor []
  pure { result with constructors }

def insertGlobal (userTypes : UserTypes) (globals : Globals) :
    Declaration × ℕ → Except DiagnosticBundle Globals
  | (.value declaration, index) =>
      if (userTypes.constructors.lookup declaration.name).isSome then
        throw [⟨"H0303", s!"top-level term `{declaration.name}` collides with a constructor"⟩]
      else if (globals.lookup declaration.name).isSome then
        throw [⟨"H0301", s!"duplicate top-level term `{declaration.name}`"⟩]
      else pure ((declaration.name, index) :: globals)
  | _ => pure globals

def collectGlobals (parsed : ParsedFile) (userTypes : UserTypes) : Except DiagnosticBundle Globals :=
  parsed.declarations.zipIdx.foldlM (insertGlobal userTypes) []

/-- The body of a global. -/
def globalValue (parsed : ParsedFile) (index : ℕ) : Option ExprId :=
  parsed.declarations[index]? >>= Declaration.value?

private theorem insertGlobal_declared {parsed : ParsedFile} {userTypes : UserTypes}
    (entries : List (Declaration × ℕ))
    (placed : ∀ declaration index, (declaration, index) ∈ entries → parsed.declarations[index]? = some declaration)
    {globals collected : Globals} (declared : ∀ name index, (name, index) ∈ globals → (globalValue parsed index).isSome)
    (inserted : entries.foldlM (insertGlobal userTypes) globals = .ok collected) :
    ∀ name index, (name, index) ∈ collected → (globalValue parsed index).isSome := by
  induction entries generalizing globals with
  | nil =>
    cases inserted
    exact declared
  | cons entry entries ih =>
    obtain ⟨declaration, position⟩ := entry
    rw [List.foldlM_cons] at inserted
    replace ih := @ih fun other index member => placed other index (List.mem_cons_of_mem _ member)
    have here := placed declaration position (List.mem_cons_self ..)
    cases declaration with
    | value declaration =>
      simp only [insertGlobal] at inserted
      split at inserted
      · cases inserted
      · split at inserted
        · cases inserted
        · refine ih ?_ inserted
          intro name index member
          rcases List.mem_cons.mp member with same | old
          · cases same
            simp [globalValue, here, Declaration.value?]
          · exact declared name index old
    | record | sum => exact ih declared inserted

/-- A global is the position of a value declaration. -/
theorem global_declared {parsed : ParsedFile} {userTypes : UserTypes} {globals : Globals}
    (collected : collectGlobals parsed userTypes = .ok globals) {name : String} {index : ℕ}
    (isGlobal : globals.lookup name = some index) : (globalValue parsed index).isSome := by
  refine insertGlobal_declared parsed.declarations.zipIdx ?_ (by simp) collected name index ?_
  · intro declaration position member
    simpa [List.mk_mem_zipIdx_iff_getElem?] using member
  · obtain ⟨before, after, rfl, _⟩ := List.lookup_eq_some_iff.mp isGlobal
    simp

private theorem insertType_within {result inserted : UserTypes} {declaration : Declaration}
    (within : ∀ name index, (name, index) ∈ result.byName → index < result.definitions.length)
    (isInserted : insertType result declaration = .ok inserted) :
    ∀ name index, (name, index) ∈ inserted.byName → index < inserted.definitions.length := by
  simp only [insertType, bind, Except.bind] at isInserted
  cases shaped : Declaration.userType? declaration with
  | error _ =>
    rw [shaped] at isInserted
    cases isInserted
  | ok shape =>
    rw [shaped] at isInserted
    cases shape with
    | none =>
      cases isInserted
      exact within
    | some shape =>
      simp only at isInserted
      split at isInserted
      · cases isInserted
      · cases isInserted
        intro name index member
        rw [List.length_append, List.length_singleton]
        rcases List.mem_cons.mp member with same | old
        · cases same
          exact Nat.lt_succ_self _
        · exact Nat.lt_succ_of_lt (within name index old)

private theorem insertTypes_within (declarations : List Declaration) {result inserted : UserTypes}
    (within : ∀ name index, (name, index) ∈ result.byName → index < result.definitions.length)
    (isInserted : declarations.foldlM insertType result = .ok inserted) :
    ∀ name index, (name, index) ∈ inserted.byName → index < inserted.definitions.length := by
  induction declarations generalizing result with
  | nil =>
    cases isInserted
    exact within
  | cons declaration declarations ih =>
    rw [List.foldlM_cons] at isInserted
    cases first : insertType result declaration with
    | error _ =>
      rw [first] at isInserted
      cases isInserted
    | ok middle =>
      rw [first] at isInserted
      exact ih (insertType_within within first) isInserted

/-- A named type is the position of a definition. -/
theorem type_declared {parsed : ParsedFile} {userTypes : UserTypes} (collected : collectUserTypes parsed = .ok userTypes)
    {name : String} {index : ℕ} (isType : userTypes.byName.lookup name = some index) :
    index < userTypes.definitions.length := by
  simp only [collectUserTypes, bind, Except.bind] at collected
  cases inserted : parsed.declarations.foldlM insertType ⟨[], [], []⟩ with
  | error _ =>
    rw [inserted] at collected
    cases collected
  | ok result =>
    rw [inserted] at collected
    simp only at collected
    split at collected
    · cases collected
    · cases collected
      obtain ⟨before, after, split, _⟩ := List.lookup_eq_some_iff.mp isType
      refine insertTypes_within parsed.declarations (by simp) inserted name index ?_
      rw [split]
      simp

end HellRs.Compiler
