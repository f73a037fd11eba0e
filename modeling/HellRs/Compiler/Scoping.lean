import Mathlib
import HellRs.Compiler.Names

/-! # Lexical scoping

The term that lexical scoping gives an expression: a local is its innermost binder, counted from inside,
and a global is the term of its body outside of all binders. An expression is seen as its parts, each with
the binders around it, and the term that is built of the terms of the parts.
-/

namespace HellRs.Compiler

open Syntax Core

section Binders

/-- The names that one binder brings into scope, each with its place in the bound value. -/
abbrev Frame := List (String × Projection)

def patternFrame : BindingPattern → Frame
  | .name name => [(name, .identity)]
  | .wildcard => []
  | .tuple names => (names.zipIdx.map fun (name, index) => (name, .tupleElement names.length index)).reverse
  | .annotated inner _ => patternFrame inner

inductive Binder where
  | bound (frame : Frame)
  /-- A payload that has no local while the part is inferred. -/
  | missing
deriving DecidableEq, Repr

def Binder.frame : Binder → Frame
  | bound frame => frame
  | missing => []

/-- The binder of a name, counted from inside, and the place of the name in it. -/
def resolve : List Frame → String → Option (ℕ × Projection)
  | [], _ => none
  | frame :: scope, name =>
      match frame.lookup name with
      | some projection => some (0, projection)
      | none => (resolve scope name).map fun (index, projection) => (index + 1, projection)

/-- The name is one that can be bound to a local. -/
def IsLocal (name : String) : Prop := stripPrefix "Main." name = none ∧ isPrimitive name = false

/-- No binder is missing between the name and the binder that it refers to. -/
def Reached : List Binder → String → Prop
  | [], _ => False
  | .missing :: _, _ => False
  | .bound frame :: rest, name => (frame.lookup name).isSome ∨ Reached rest name

end Binders

section Parts

/-- A part of an expression with the binders between them, the innermost first. -/
structure SubExpr where
  id : ExprId
  binders : List Binder
deriving DecidableEq, Repr

def doParts : List DoStatement → List Binder → List SubExpr
  | [], _ => []
  | statement :: rest, around => ⟨statement.expression, around⟩ ::
      doParts rest (statement.pattern?.elim around fun pattern => .bound (patternFrame pattern) :: around)

def caseBinders (pattern : CasePattern) : List Binder :=
  (binders pattern).reverse.map fun name => .bound [(name, .identity)]

/-- The alternative that is written for a constructor of a family. -/
def alternativeFor (alternatives : List CaseAlternative) (index : ℕ) : Option CaseAlternative :=
  alternatives.find? fun alternative =>
    (primitiveName alternative.pattern >>= primitiveCaseConstructor).any fun found => found.index = index

def wildcardOf (alternatives : List CaseAlternative) : Option CaseAlternative :=
  alternatives.find? fun alternative => alternative.pattern = .wildcard

def Expr.isCase : Expr → Bool
  | .case _ _ => true
  | _ => false

/-- How many terms of the wildcard are inferred ahead, without the payloads for which it stands. -/
def inferredAhead (parsed : ParsedFile) (alternatives : List CaseAlternative) : ℕ :=
  match wildcardOf alternatives with
  | some wildcard =>
      if Expr.isCase (parsed.expression wildcard.expression) then repeats alternatives wildcard
      else min 1 (repeats alternatives wildcard)
  | none => 0

/-- A part for each constructor. Where a term of the wildcard is inferred ahead, the payloads are missing. -/
def handlerParts (alternatives : List CaseAlternative) : List (ℕ × ℕ) → ℕ → List SubExpr
  | [], _ => []
  | (arity, index) :: rest, ahead =>
      match alternativeFor alternatives index with
      | some written => ⟨written.expression, caseBinders written.pattern⟩ :: handlerParts alternatives rest ahead
      | none =>
          match wildcardOf alternatives with
          | some wildcard =>
              ⟨wildcard.expression, List.replicate arity (if 0 < ahead then .missing else .bound [])⟩ ::
                handlerParts alternatives rest (ahead - 1)
          | none => []

def primitiveFamily (alternatives : List CaseAlternative) : Option CaseFamily :=
  ((alternatives.filterMap fun alternative => primitiveName alternative.pattern).findSome?
    primitiveCaseConstructor).map PrimitiveConstructor.family

variable (context : InferContext)

/-- The variant that the alternatives name. -/
def namedType (alternatives : List CaseAlternative) : Option ℕ := do
  let name ← alternatives.findSome? fun alternative => userName alternative.pattern
  match context.userTypes.constructors.lookup name with
  | some (.variant typeIndex _) => some typeIndex
  | _ => none

def namedConstructors (alternatives : List CaseAlternative) : List UserConstructor :=
  match (namedType context alternatives).bind fun typeIndex =>
      context.userTypes.definitions[typeIndex]?.map UserType.shape with
  | some (.variant constructors) => constructors
  | _ => []

/-- The written constructors with their positions, in the order of these. -/
def writtenConstructors (alternatives : List CaseAlternative) : List (ℕ × CaseAlternative) :=
  (alternatives.filterMap fun alternative => do
    let name ← userName alternative.pattern
    let index ← (namedConstructors context alternatives).findIdx? fun constructor => constructor.name = name
    some (index, alternative)).insertionSort fun left right => left.1 ≤ right.1

def isPrimitiveCase (alternatives : List CaseAlternative) : Bool :=
  alternatives.any fun alternative => (primitiveName alternative.pattern).isSome

def alternativeParts (alternatives : List CaseAlternative) : List SubExpr :=
  if isPrimitiveCase alternatives then
    match primitiveFamily alternatives with
    | some family => handlerParts alternatives family.payloads.zipIdx (inferredAhead context.parsed alternatives)
    | none => []
  else
    ((writtenConstructors context alternatives).map fun (_, alternative) =>
        ⟨alternative.expression, caseBinders alternative.pattern⟩) ++
      (wildcardOf alternatives).toList.map fun wildcard => ⟨wildcard.expression, []⟩

/-- The constructor and the fields of the record that is constructed, in the order of the record. -/
def recordShape (constructor : String) (fields : List RecordFieldExpr) : String × List RecordFieldExpr :=
  match stripPrefix "Main." constructor with
  | none => ("hell:Hell.Record", fields.insertionSort fun left right => left.name ≤ right.name)
  | some name =>
      match context.userTypes.constructors.lookup name with
      | some (.record typeIndex) =>
          match context.userTypes.definitions[typeIndex]?.map UserType.shape with
          | some (.record declaredConstructor declaredFields) =>
              (declaredConstructor, declaredFields.filterMap fun declared =>
                fields.find? fun field => field.name = declared.name)
          | _ => (constructor, fields)
      | _ => (constructor, fields)

/-- The parts of an expression that its term is built of. -/
def parts (id : ExprId) : List SubExpr :=
  match recordIntrinsic context.parsed id with
  | some (intrinsic, _) => intrinsic.operands.map fun operand => ⟨operand, []⟩
  | none =>
      match context.parsed.expression id with
      | .name _ => []
      | .literal _ => []
      | .apply function argument => [⟨function, []⟩, ⟨argument, []⟩]
      | .typeApply function _ => [⟨function, []⟩]
      | .lambda parameters body => [⟨body, (parameters.map fun pattern => .bound (patternFrame pattern)).reverse⟩]
      | .ifThenElse condition thenBranch elseBranch => [⟨elseBranch, []⟩, ⟨thenBranch, []⟩, ⟨condition, []⟩]
      | .doBlock statements => doParts statements []
      | .case scrutinee alternatives => ⟨scrutinee, []⟩ :: alternativeParts context alternatives
      | .tuple elements => elements.map fun element => ⟨element, []⟩
      | .list elements => elements.map fun element => ⟨element, []⟩
      | .recordConstruction constructor fields =>
          (recordShape context constructor fields).2.map fun field => ⟨field.value, []⟩
      | .annotated expression _ => [⟨expression, []⟩]

end Parts

section Building

def buildIntrinsic (label : String) : RecordIntrinsic → List CoreTerm → Option CoreTerm
  | .get _, [record] => some (.recordGet label record)
  | .set _ _, [value, record] => some (.recordSet label value record)
  | .modify _ _, [function, record] => some (.recordModify label function record)
  | _, _ => none

/-- A statement before the term of the later ones. -/
def buildStatement : DoStatement → CoreTerm → CoreTerm → CoreTerm
  | .action _, action, body => .apply (.apply (.builtin "Monad.then") action) body
  | .letBind _ _, value, body => .apply (.lambda body) value
  | .bind _ _, action, body => .apply (.apply (.builtin "Monad.bind") action) (.lambda body)

def buildDo : List DoStatement → List CoreTerm → Option CoreTerm
  | [.action _], [body] => some body
  | statement :: rest, term :: terms => (buildDo rest terms).map (buildStatement statement term)
  | _, _ => none

variable (context : InferContext)

/-- A handler is a function of the payloads of its constructor. -/
def buildCase (alternatives : List CaseAlternative) (scrutinee : CoreTerm) (terms : List CoreTerm) : Option CoreTerm :=
  if isPrimitiveCase alternatives then
    (primitiveFamily alternatives).map fun family =>
      let handlers := List.zipWith wrapLambdas family.payloads terms
      .apply (handlers.foldl .apply (.builtin family.eliminatorName)) scrutinee
  else
    let indices := (writtenConstructors context alternatives).map Prod.fst
    some (.case scrutinee (indices.zip terms) terms[indices.length]?)

def build (id : ExprId) (terms : List CoreTerm) : Option CoreTerm :=
  match recordIntrinsic context.parsed id with
  | some (intrinsic, field) =>
      match context.parsed.type field with
      | .promoted label => buildIntrinsic label intrinsic terms
      | _ => none
  | none =>
      match context.parsed.expression id, terms with
      | .literal value, [] => some (.constant value)
      | .apply _ _, [function, argument] => some (.apply function argument)
      | .typeApply _ _, [function] => some function
      | .lambda parameters _, [body] => some (wrapLambdas parameters.length body)
      | .ifThenElse _ _ _, [elseBranch, thenBranch, condition] =>
          some (.apply (.apply (.apply (.builtin "Bool.bool") elseBranch) thenBranch) condition)
      | .doBlock statements, terms => buildDo statements terms
      | .case _ alternatives, scrutinee :: terms => buildCase context alternatives scrutinee terms
      | .tuple _, elements => some (.tuple elements)
      | .list _, elements => some (.list elements)
      | .recordConstruction constructor fields, terms =>
          let record := CoreTerm.record (recordShape context constructor fields).1 terms
          some (if (stripPrefix "Main." constructor).isSome then record else .apply (.builtin "Maybe.Just") record)
      | .annotated _ _, [expression] => some expression
      | _, _ => none

theorem wrapLambdas_injective {count : ℕ} {body body' : CoreTerm} (same : wrapLambdas count body = wrapLambdas count body') :
    body = body' := by
  induction count with
  | zero => exact same
  | succ count ih => exact ih (CoreTerm.lambda.inj same)

theorem foldl_apply_injective {arguments arguments' : List CoreTerm} {function function' : CoreTerm}
    (length : arguments.length = arguments'.length)
    (same : arguments.foldl .apply function = arguments'.foldl .apply function') :
    function = function' ∧ arguments = arguments' := by
  induction arguments generalizing arguments' function function' with
  | nil =>
    obtain rfl := List.eq_nil_of_length_eq_zero length.symm
    exact ⟨same, rfl⟩
  | cons first arguments ih =>
    cases arguments' with
    | nil => cases length
    | cons first' arguments' =>
      obtain ⟨applied, rfl⟩ := ih (Nat.succ.inj length) same
      obtain ⟨rfl, rfl⟩ := CoreTerm.apply.inj applied
      exact ⟨rfl, rfl⟩

theorem zipWith_wrapLambdas_injective {counts : List ℕ} {bodies bodies' : List CoreTerm}
    (length : bodies.length = bodies'.length) (enough : bodies.length ≤ counts.length)
    (same : List.zipWith wrapLambdas counts bodies = List.zipWith wrapLambdas counts bodies') : bodies = bodies' := by
  induction counts generalizing bodies bodies' with
  | nil =>
    obtain rfl := List.eq_nil_of_length_eq_zero (Nat.le_zero.mp enough)
    exact (List.eq_nil_of_length_eq_zero length.symm).symm
  | cons count counts ih =>
    cases bodies with
    | nil => exact (List.eq_nil_of_length_eq_zero length.symm).symm
    | cons body bodies =>
      cases bodies' with
      | nil => cases length
      | cons body' bodies' =>
        obtain ⟨here, rest⟩ := List.cons.inj same
        rw [wrapLambdas_injective here, ih (Nat.succ.inj length) (Nat.le_of_succ_le_succ enough) rest]

/-- The branches and the term after them determine the terms. -/
theorem branches_injective {indices : List ℕ} {terms terms' : List CoreTerm} (length : terms.length = terms'.length)
    (enough : terms.length ≤ indices.length + 1) (branches : indices.zip terms = indices.zip terms')
    (fallback : terms[indices.length]? = terms'[indices.length]?) : terms = terms' := by
  induction indices generalizing terms terms' with
  | nil =>
    refine List.ext_getElem? fun position => ?_
    cases position with
    | zero => exact fallback
    | succ position =>
      simp only [List.length_nil] at enough
      rw [List.getElem?_eq_none (by omega), List.getElem?_eq_none (by omega)]
  | cons index indices ih =>
    cases terms with
    | nil => exact (List.eq_nil_of_length_eq_zero length.symm).symm
    | cons term terms =>
      cases terms' with
      | nil => cases length
      | cons term' terms' =>
        obtain ⟨here, rest⟩ := List.cons.inj branches
        rw [(Prod.mk.inj here).2, ih (Nat.succ.inj length) (Nat.le_of_succ_le_succ enough) rest fallback]

theorem buildStatement_injective {statement : DoStatement} {term term' body body' : CoreTerm}
    (same : buildStatement statement term body = buildStatement statement term' body') : term = term' ∧ body = body' := by
  cases statement with
  | action =>
    obtain ⟨action, rfl⟩ := CoreTerm.apply.inj same
    exact ⟨(CoreTerm.apply.inj action).2, rfl⟩
  | letBind =>
    obtain ⟨lambda, rfl⟩ := CoreTerm.apply.inj same
    exact ⟨rfl, CoreTerm.lambda.inj lambda⟩
  | bind =>
    obtain ⟨action, lambda⟩ := CoreTerm.apply.inj same
    exact ⟨(CoreTerm.apply.inj action).2, CoreTerm.lambda.inj lambda⟩

theorem buildDo_singleton {statement : DoStatement} {terms : List CoreTerm} {term : CoreTerm}
    (built : buildDo [statement] terms = some term) : terms = [term] := by
  rw [buildDo.eq_def] at built
  split at built
  next body _ _ =>
    cases built
    rfl
  next rest _ terms _ isCons =>
    obtain ⟨_, rfl⟩ := List.cons.inj isCons
    cases terms <;> cases built
  next => cases built

theorem buildDo_cons {statement next : DoStatement} {rest : List DoStatement} {terms : List CoreTerm} {term : CoreTerm}
    (built : buildDo (statement :: next :: rest) terms = some term) : ∃ first later body, terms = first :: later ∧
      buildDo (next :: rest) later = some body ∧ term = buildStatement statement first body := by
  cases terms with
  | nil => cases statement <;> cases built
  | cons first later =>
    rw [buildDo] at built
    · obtain ⟨body, isBody, rfl⟩ := Option.map_eq_some_iff.mp built
      exact ⟨first, later, body, rfl, isBody, rfl⟩
    · exact fun _ _ isSingle => by cases isSingle

theorem buildDo_injective {statements : List DoStatement} {terms terms' : List CoreTerm} {term : CoreTerm}
    (built : buildDo statements terms = some term) (built' : buildDo statements terms' = some term) : terms = terms' := by
  induction statements generalizing terms terms' term with
  | nil => cases built
  | cons statement rest ih =>
    cases rest with
    | nil => rw [buildDo_singleton built, buildDo_singleton built']
    | cons next rest =>
      obtain ⟨first, later, body, rfl, isBody, rfl⟩ := buildDo_cons built
      obtain ⟨first', later', body', rfl, isBody', same⟩ := buildDo_cons built'
      obtain ⟨rfl, rfl⟩ := buildStatement_injective same
      rw [ih isBody isBody']

theorem handlerParts_length (alternatives : List CaseAlternative) (handlers : List (ℕ × ℕ)) (ahead : ℕ) :
    (handlerParts alternatives handlers ahead).length ≤ handlers.length := by
  induction handlers generalizing ahead with
  | nil => exact Nat.le_refl 0
  | cons handler handlers ih =>
    obtain ⟨arity, index⟩ := handler
    rw [handlerParts]
    split
    · exact Nat.succ_le_succ (ih ahead)
    · split
      · exact Nat.succ_le_succ (ih (ahead - 1))
      · exact Nat.zero_le _

theorem buildCase_injective {alternatives : List CaseAlternative} {scrutinee scrutinee' term : CoreTerm}
    {terms terms' : List CoreTerm} (length : terms.length = (alternativeParts context alternatives).length)
    (length' : terms'.length = (alternativeParts context alternatives).length)
    (built : buildCase context alternatives scrutinee terms = some term)
    (built' : buildCase context alternatives scrutinee' terms' = some term) :
    scrutinee = scrutinee' ∧ terms = terms' := by
  have same := length.trans length'.symm
  rw [buildCase] at built built'
  rw [alternativeParts] at length
  split at built
  next isPrimitive =>
    rw [if_pos isPrimitive] at built' length
    cases isFamily : primitiveFamily alternatives with
    | none => simp [isFamily] at built
    | some family =>
      simp only [isFamily, Option.map_some, Option.some.injEq] at built built' length
      obtain ⟨handlers, rfl⟩ := CoreTerm.apply.inj (built.trans built'.symm)
      refine ⟨rfl, @zipWith_wrapLambdas_injective family.payloads _ _ same ?_ (foldl_apply_injective ?_ handlers).2⟩
      · have bounded := handlerParts_length alternatives family.payloads.zipIdx (inferredAhead context.parsed alternatives)
        rw [List.length_zipIdx] at bounded
        omega
      · simp only [List.length_zipWith, same]
  next isUser =>
    rw [if_neg isUser] at built' length
    obtain ⟨rfl, branches, fallback⟩ := CoreTerm.case.inj ((Option.some.inj built).trans (Option.some.inj built').symm)
    refine ⟨rfl, branches_injective same ?_ branches fallback⟩
    rw [List.length_append, List.length_map, List.length_map] at length
    rw [List.length_map, length]
    cases wildcardOf alternatives <;> simp

theorem buildIntrinsic_injective {label : String} {intrinsic : RecordIntrinsic} {terms terms' : List CoreTerm}
    {term : CoreTerm} (built : buildIntrinsic label intrinsic terms = some term)
    (built' : buildIntrinsic label intrinsic terms' = some term) : terms = terms' := by
  rw [buildIntrinsic.eq_def] at built
  split at built <;> cases built <;> rw [buildIntrinsic.eq_def] at built' <;> split at built' <;> cases built' <;> rfl

/-- The term determines the terms of which it is built. -/
theorem build_injective {id : ExprId} {terms terms' : List CoreTerm} {term : CoreTerm}
    (length : terms.length = (parts context id).length) (length' : terms'.length = (parts context id).length)
    (built : build context id terms = some term) (built' : build context id terms' = some term) : terms = terms' := by
  rw [build.eq_def] at built built'
  rw [parts.eq_def] at length length'
  cases isIntrinsic : recordIntrinsic context.parsed id with
  | some found =>
    obtain ⟨intrinsic, field⟩ := found
    simp only [isIntrinsic] at built built'
    split at built
    next label shape =>
      simp only [shape] at built'
      exact buildIntrinsic_injective built built'
    next => cases built
  | none =>
    simp only [isIntrinsic] at built built' length length'
    cases shape : context.parsed.expression id with
    | name | literal =>
      rw [shape] at length length'
      rw [List.eq_nil_of_length_eq_zero length, List.eq_nil_of_length_eq_zero length']
    | apply =>
      rw [shape] at length length'
      obtain ⟨function, argument, rfl⟩ := List.length_eq_two.mp length
      obtain ⟨function', argument', rfl⟩ := List.length_eq_two.mp length'
      simp only [shape, Option.some.injEq] at built built'
      obtain ⟨rfl, rfl⟩ := CoreTerm.apply.inj (built.trans built'.symm)
      rfl
    | typeApply | annotated | lambda =>
      rw [shape] at length length'
      obtain ⟨body, rfl⟩ := List.length_eq_one_iff.mp length
      obtain ⟨body', rfl⟩ := List.length_eq_one_iff.mp length'
      simp only [shape, Option.some.injEq] at built built'
      have same := built.trans built'.symm
      first | rw [same] | rw [wrapLambdas_injective same]
    | ifThenElse =>
      rw [shape] at length length'
      obtain ⟨elseBranch, thenBranch, condition, rfl⟩ := List.length_eq_three.mp length
      obtain ⟨elseBranch', thenBranch', condition', rfl⟩ := List.length_eq_three.mp length'
      simp only [shape, Option.some.injEq] at built built'
      obtain ⟨two, rfl⟩ := CoreTerm.apply.inj (built.trans built'.symm)
      obtain ⟨one, rfl⟩ := CoreTerm.apply.inj two
      obtain ⟨_, rfl⟩ := CoreTerm.apply.inj one
      rfl
    | doBlock =>
      simp only [shape] at built built'
      exact buildDo_injective built built'
    | case scrutinee alternatives =>
      rw [shape] at length length'
      simp only [shape] at built built'
      cases terms with
      | nil => cases length
      | cons scrutinee terms =>
        cases terms' with
        | nil => cases length'
        | cons scrutinee' terms' =>
          obtain ⟨rfl, rfl⟩ := buildCase_injective context (Nat.succ.inj length) (Nat.succ.inj length') built built'
          rfl
    | tuple | list =>
      simp only [shape, Option.some.injEq] at built built'
      have same := built.trans built'.symm
      injection same
    | recordConstruction constructor fields =>
      simp only [shape, Option.some.injEq] at built built'
      have same := built.trans built'.symm
      split at same
      · exact (CoreTerm.record.inj same).2
      · exact (CoreTerm.record.inj (CoreTerm.apply.inj same).2).2

end Building

section Meaning

/-- Lexical scoping gives the expression this term in the scope of these binders. -/
inductive Lexical (context : InferContext) : List Frame → ExprId → CoreTerm → Prop
  | bound {scope : List Frame} {id : ExprId} {name : String} {index : ℕ} {projection : Projection}
      (shape : context.parsed.expression id = .name name) (isLocal : IsLocal name)
      (resolved : resolve scope name = some (index, projection)) :
      Lexical context scope id (.boundVar index projection)
  | global {scope : List Frame} {id : ExprId} {name : String} {index : ℕ} {value : ExprId} {term : CoreTerm}
      (shape : context.parsed.expression id = .name name) (isGlobal : mainGlobal context.globals name = some index)
      (isValue : globalValue context.parsed index = some value) (body : Lexical context [] value term) :
      Lexical context scope id term
  | constructor {scope : List Frame} {id : ExprId} {name constructor : String} {owner : ConstructorOwner}
      {term : CoreTerm} (shape : context.parsed.expression id = .name name)
      (isMain : stripPrefix "Main." name = some constructor) (notGlobal : context.globals.lookup constructor = none)
      (owned : context.userTypes.constructors.lookup constructor = some owner)
      (inferred : inferUserConstructor context.userTypes owner = .ok term) : Lexical context scope id term
  | primitive {scope : List Frame} {id : ExprId} {name : String}
      (shape : context.parsed.expression id = .name name) (notMain : stripPrefix "Main." name = none)
      (primitive : isPrimitive name = true) : Lexical context scope id (.builtin name)
  | parts {scope : List Frame} {id : ExprId} {terms : List CoreTerm} {term : CoreTerm}
      (notName : ∀ name, context.parsed.expression id ≠ .name name)
      (length : terms.length = (parts context id).length)
      (each : ∀ (position : ℕ) (part : SubExpr) (term : CoreTerm), (parts context id)[position]? = some part → terms[position]? = some term →
        Lexical context (part.binders.map Binder.frame ++ scope) part.id term)
      (built : build context id terms = some term) : Lexical context scope id term

/-- One step down into an expression or into the body of a global. -/
inductive Enters (context : InferContext) : ExprId × List Binder → ExprId × List Binder → Prop
  | part {id : ExprId} {around : List Binder} {part : SubExpr} (isPart : part ∈ parts context id) :
      Enters context (id, around) (part.id, part.binders ++ around)
  | global {id : ExprId} {around : List Binder} {name : String} {index : ℕ} {value : ExprId}
      (shape : context.parsed.expression id = .name name) (isGlobal : mainGlobal context.globals name = some index)
      (isValue : globalValue context.parsed index = some value) : Enters context (id, around) (value, [])

/-- No local below the expression refers to a binder outside of an alternative whose payloads are missing. -/
def Hygienic (context : InferContext) (id : ExprId) (around : List Binder) : Prop :=
  ∀ part inner name, Relation.ReflTransGen (Enters context) (id, around) (part, inner) →
    context.parsed.expression part = .name name → IsLocal name → Reached inner name

variable {context : InferContext} {id : ExprId}

theorem lexical_parts_iff {scope : List Frame} {term : CoreTerm}
    (notName : ∀ name, context.parsed.expression id ≠ .name name) : Lexical context scope id term ↔
      ∃ terms, List.Forall₂ (fun (part : SubExpr) term =>
        Lexical context (part.binders.map Binder.frame ++ scope) part.id term) (parts context id) terms ∧
          build context id terms = some term := by
  constructor
  · intro lexical
    cases lexical with
    | bound shape | global shape | constructor shape | primitive shape => exact absurd shape (notName _)
    | parts _ length each built =>
      refine ⟨_, List.forall₂_iff_get.mpr ⟨length.symm, fun position inside inside' => ?_⟩, built⟩
      exact each position _ _ (List.getElem?_eq_getElem inside) (List.getElem?_eq_getElem inside')
  · rintro ⟨terms, each, built⟩
    obtain ⟨length, each⟩ := List.forall₂_iff_get.mp each
    refine .parts notName length.symm (fun position part term isPart isTerm => ?_) built
    obtain ⟨inside, rfl⟩ := List.getElem?_eq_some_iff.mp isPart
    obtain ⟨inside', rfl⟩ := List.getElem?_eq_some_iff.mp isTerm
    exact each position inside inside'

theorem recordIntrinsic_name {parsed : ParsedFile} {name : String} (shape : parsed.expression id = .name name) :
    recordIntrinsic parsed id = none := by
  have noDollar : dollarApplication parsed id = none := by rw [dollarApplication, shape]
  have alone : intrinsicSpine parsed id = (id, [], []) := by
    simp only [intrinsicSpine, noDollar]
    rw [spine, shape]
  simp only [recordIntrinsic, alone, shape]

theorem parts_name {name : String} (shape : context.parsed.expression id = .name name) : parts context id = [] := by
  simp only [parts, recordIntrinsic_name shape, shape]

theorem Hygienic.enters {around inner : List Binder} {part : ExprId} (hygienic : Hygienic context id around)
    (enters : Enters context (id, around) (part, inner)) : Hygienic context part inner :=
  fun _ _ _ reaches => hygienic _ _ _ (.head enters reaches)

theorem hygienic_iff {around : List Binder} : Hygienic context id around ↔
    (∀ name, context.parsed.expression id = .name name → IsLocal name → Reached around name) ∧
      ∀ part inner, Enters context (id, around) (part, inner) → Hygienic context part inner := by
  constructor
  · exact fun hygienic => ⟨fun name => hygienic id around name .refl, fun _ _ => hygienic.enters⟩
  · rintro ⟨here, below⟩ part inner name reaches
    rcases reaches.cases_head with same | ⟨⟨entered, around'⟩, enters, reaches'⟩
    · obtain ⟨rfl, rfl⟩ := Prod.mk.inj same
      exact here name
    · exact below entered around' enters part inner name reaches'

theorem hygienic_parts_iff {around : List Binder} (notName : ∀ name, context.parsed.expression id ≠ .name name) :
    Hygienic context id around ↔ ∀ part ∈ parts context id, Hygienic context part.id (part.binders ++ around) := by
  rw [hygienic_iff]
  constructor
  · exact fun ⟨_, below⟩ part isPart => below _ _ (.part isPart)
  · intro each
    refine ⟨fun name shape => absurd shape (notName name), fun part inner enters => ?_⟩
    cases enters with
    | part isPart => exact each _ isPart
    | global shape => exact absurd shape (notName _)

theorem hygienic_local_iff {around : List Binder} {name : String} (shape : context.parsed.expression id = .name name)
    (isLocal : IsLocal name) : Hygienic context id around ↔ Reached around name := by
  rw [hygienic_iff]
  constructor
  · exact fun ⟨here, _⟩ => here name shape isLocal
  · intro reached
    refine ⟨fun other shape' _ => ?_, fun part inner enters => ?_⟩
    · obtain rfl := Expr.name.inj (shape.symm.trans shape')
      exact reached
    · cases enters with
      | part isPart =>
        rw [parts_name shape] at isPart
        cases isPart
      | global shape' isGlobal =>
        obtain rfl := Expr.name.inj (shape.symm.trans shape')
        simp [mainGlobal, isLocal.1] at isGlobal

theorem hygienic_global_iff {around : List Binder} {name : String} {index : ℕ} {value : ExprId}
    (shape : context.parsed.expression id = .name name) (isGlobal : mainGlobal context.globals name = some index)
    (isValue : globalValue context.parsed index = some value) : Hygienic context id around ↔ Hygienic context value [] := by
  rw [hygienic_iff]
  constructor
  · exact fun ⟨_, below⟩ => below _ _ (.global shape isGlobal isValue)
  · intro hygienic
    refine ⟨fun other shape' isLocal => ?_, fun part inner enters => ?_⟩
    · obtain rfl := Expr.name.inj (shape.symm.trans shape')
      simp [mainGlobal, isLocal.1] at isGlobal
    · cases enters with
      | part isPart =>
        rw [parts_name shape] at isPart
        cases isPart
      | global shape' isGlobal' isValue' =>
        obtain rfl := Expr.name.inj (shape.symm.trans shape')
        obtain rfl := Option.some.inj (isGlobal.symm.trans isGlobal')
        obtain rfl := Option.some.inj (isValue.symm.trans isValue')
        exact hygienic

/-- A name that is neither a local nor a global means the same everywhere. -/
theorem hygienic_constant {around : List Binder} {name : String} (shape : context.parsed.expression id = .name name)
    (notLocal : ¬IsLocal name) (notGlobal : mainGlobal context.globals name = none) : Hygienic context id around := by
  refine hygienic_iff.mpr ⟨fun other shape' isLocal => ?_, fun part inner enters => ?_⟩
  · obtain rfl := Expr.name.inj (shape.symm.trans shape')
    exact absurd isLocal notLocal
  · cases enters with
    | part isPart =>
      rw [parts_name shape] at isPart
      cases isPart
    | global shape' isGlobal =>
      obtain rfl := Expr.name.inj (shape.symm.trans shape')
      rw [notGlobal] at isGlobal
      cases isGlobal

end Meaning

end HellRs.Compiler
