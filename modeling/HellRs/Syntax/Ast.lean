import Mathlib

/-! # Parsed files

Expressions and type expressions live in two arenas and refer to each other by position. The parser
allocates a node after its parts, so that the parts of a node come before it. Spans are left out.
-/

namespace HellRs.Syntax

abbrev ExprId := ℕ
abbrev TypeExprId := ℕ

/-- `name.strip_prefix(prefix)`. -/
def stripPrefix (start name : String) : Option String :=
  if start.toList.isPrefixOf name.toList then some (String.ofList (name.toList.drop start.length)) else none

inductive Literal where
  | integer (digits : String)
  | double (digits : String)
  | character (value : Char)
  | text (value : String)
  | unit
deriving DecidableEq, Repr

inductive BindingPattern where
  | name (name : String)
  | wildcard
  | tuple (names : List String)
  | annotated (inner : BindingPattern) (ty : TypeExprId)
deriving DecidableEq, Repr

inductive DoStatement where
  | bind (pattern : BindingPattern) (expression : ExprId)
  | letBind (pattern : BindingPattern) (expression : ExprId)
  /-- `DoStatement::Then`. -/
  | action (expression : ExprId)
deriving DecidableEq, Repr

inductive CasePattern where
  | userConstructor (name : String) (binder : Option String)
  | primitiveConstructor (name : String) (binders : List String)
  | wildcard
deriving DecidableEq, Repr

structure CaseAlternative where
  pattern : CasePattern
  expression : ExprId
deriving DecidableEq, Repr

structure RecordFieldExpr where
  name : String
  value : ExprId
deriving DecidableEq, Repr

inductive Expr where
  | name (name : String)
  | literal (value : Literal)
  | apply (function argument : ExprId)
  | typeApply (function : ExprId) (argument : TypeExprId)
  | lambda (parameters : List BindingPattern) (body : ExprId)
  | ifThenElse (condition thenBranch elseBranch : ExprId)
  | doBlock (statements : List DoStatement)
  | case (scrutinee : ExprId) (alternatives : List CaseAlternative)
  | tuple (elements : List ExprId)
  | list (elements : List ExprId)
  | recordConstruction (constructor : String) (fields : List RecordFieldExpr)
  /-- `Expr::Annotation`. -/
  | annotated (expression : ExprId) (ty : TypeExprId)
deriving DecidableEq, Repr

inductive TypeExpr where
  | name (name : String)
  | unit
  | list (item : TypeExprId)
  | tuple (items : List TypeExprId)
  | function (argument result : TypeExprId)
  | apply (function argument : TypeExprId)
  | promoted (label : String)
deriving DecidableEq, Repr

structure ValueDecl where
  name : String
  annotation : Option TypeExprId
  value : ExprId
deriving DecidableEq, Repr

structure FieldDecl where
  name : String
  ty : TypeExprId
deriving DecidableEq, Repr

structure RecordDecl where
  typeName : String
  constructor : String
  fields : List FieldDecl
deriving DecidableEq, Repr

structure ConstructorDecl where
  name : String
  payload : Option TypeExprId
deriving DecidableEq, Repr

structure SumDecl where
  typeName : String
  constructors : List ConstructorDecl
deriving DecidableEq, Repr

inductive Declaration where
  | value (declaration : ValueDecl)
  | record (declaration : RecordDecl)
  | sum (declaration : SumDecl)
deriving DecidableEq, Repr

def DoStatement.expression : DoStatement → ExprId
  | bind _ expression => expression
  | letBind _ expression => expression
  | action expression => expression

def DoStatement.pattern? : DoStatement → Option BindingPattern
  | bind pattern _ => some pattern
  | letBind pattern _ => some pattern
  | action _ => none

/-- A tuple pattern binds at least one name. -/
def BindingPattern.Binds : BindingPattern → Prop
  | name _ => True
  | wildcard => True
  | tuple names => names ≠ []
  | annotated inner _ => inner.Binds

instance BindingPattern.decidableBinds : DecidablePred Binds
  | name _ => .isTrue trivial
  | wildcard => .isTrue trivial
  | tuple names => inferInstanceAs (Decidable (names ≠ []))
  | annotated inner _ => decidableBinds inner

namespace Expr

/-- The parts of an expression, from left to right. -/
def children : Expr → List ExprId
  | name _ => []
  | literal _ => []
  | apply function argument => [function, argument]
  | typeApply function _ => [function]
  | lambda _ body => [body]
  | ifThenElse condition thenBranch elseBranch => [condition, thenBranch, elseBranch]
  | doBlock statements => statements.map DoStatement.expression
  | case scrutinee alternatives => scrutinee :: alternatives.map CaseAlternative.expression
  | tuple elements => elements
  | list elements => elements
  | recordConstruction _ fields => fields.map RecordFieldExpr.value
  | annotated expression _ => [expression]

/-- The patterns of the binders that are not case binders. -/
def patterns : Expr → List BindingPattern
  | lambda parameters _ => parameters
  | doBlock statements => statements.filterMap DoStatement.pattern?
  | _ => []

/-- What the lexer lets a name be: no name is the wildcard token, and what starts with a dollar is an
operator. -/
def Named : Expr → Prop
  | name text => text ≠ "_" ∧ stripPrefix "$wildcard" text = none
  | _ => True

instance decidableNamed : DecidablePred Named
  | name text => inferInstanceAs (Decidable (text ≠ "_" ∧ stripPrefix "$wildcard" text = none))
  | literal _ | apply .. | typeApply .. | lambda .. | ifThenElse .. | doBlock _ | case .. | tuple _ | list _
  | recordConstruction .. | annotated .. => .isTrue trivial

end Expr

/-- The parts of a type expression, from left to right. -/
def TypeExpr.children : TypeExpr → List TypeExprId
  | name _ => []
  | unit => []
  | list item => [item]
  | tuple items => items
  | .function argument result => [argument, result]
  | .apply callee argument => [callee, argument]
  | promoted _ => []

def Declaration.value? : Declaration → Option ExprId
  | value declaration => some declaration.value
  | _ => none

/-- A file as `Parser::parse` returns it. -/
structure ParsedFile where
  declarations : List Declaration
  expressions : List Expr
  types : List TypeExpr
  values : ∀ declaration ∈ declarations, ∀ value ∈ declaration.value?, value < expressions.length
  older : ∀ id < expressions.length, ∀ child ∈ (expressions[id]?.getD (.literal .unit)).children, child < id
  olderType : ∀ id < types.length, ∀ child ∈ (types[id]?.getD .unit).children, child < id
  binds : ∀ expression ∈ expressions, ∀ pattern ∈ expression.patterns, pattern.Binds
  named : ∀ expression ∈ expressions, expression.Named

namespace ParsedFile

variable (parsed : ParsedFile)

/-- `parsed.expressions[id]`. -/
def expression (id : ExprId) : Expr := parsed.expressions[id]?.getD (.literal .unit)

/-- `parsed.types[id]`. -/
def type (id : TypeExprId) : TypeExpr := parsed.types[id]?.getD .unit

variable {parsed}

theorem child_lt {id child : ExprId} (isChild : child ∈ (parsed.expression id).children) : child < id := by
  rcases Nat.lt_or_ge id parsed.expressions.length with inside | outside
  · exact parsed.older id inside child isChild
  · rw [expression, List.getElem?_eq_none outside] at isChild
    cases isChild

theorem childType_lt {id child : TypeExprId} (isChild : child ∈ (parsed.type id).children) : child < id := by
  rcases Nat.lt_or_ge id parsed.types.length with inside | outside
  · exact parsed.olderType id inside child isChild
  · rw [type, List.getElem?_eq_none outside] at isChild
    cases isChild

theorem binds_of_pattern {id : ExprId} {pattern : BindingPattern}
    (member : pattern ∈ (parsed.expression id).patterns) : pattern.Binds := by
  rcases Nat.lt_or_ge id parsed.expressions.length with inside | outside
  · rw [expression, List.getElem?_eq_getElem inside] at member
    exact parsed.binds _ (List.getElem_mem inside) pattern member
  · rw [expression, List.getElem?_eq_none outside] at member
    cases member

theorem expression_named (id : ExprId) : (parsed.expression id).Named := by
  rcases Nat.lt_or_ge id parsed.expressions.length with inside | outside
  · rw [expression, List.getElem?_eq_getElem inside]
    exact parsed.named _ (List.getElem_mem inside)
  · rw [expression, List.getElem?_eq_none outside]
    trivial

variable (parsed)

/-- The second expression is a part of the first, or the first itself. -/
def Contains : ExprId → ExprId → Prop :=
  Relation.ReflTransGen fun id child => child ∈ (parsed.expression id).children

/-- The second type expression is a part of the first, or the first itself. -/
def ContainsType : TypeExprId → TypeExprId → Prop :=
  Relation.ReflTransGen fun id child => child ∈ (parsed.type id).children

end ParsedFile

end HellRs.Syntax
