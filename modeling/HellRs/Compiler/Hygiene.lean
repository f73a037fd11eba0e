import HellRs.Compiler.Scoping

/-! # Scopes survive inlining

The locals of inference stand for the binders around an expression that are not missing, with the locals
of the callers below them. From this the indices of inference are compared with lexical scoping.
-/

namespace HellRs.Compiler

open Syntax Core

section Locals

/-- The locals hold the names of the binders in `scope`, above the locals `outer`. -/
inductive Represents (outer : Locals) : Locals → List Frame → Prop
  | nil : Represents outer outer []
  | push {locals here : Locals} {scope : List Frame} {frame : Frame} (rest : Represents outer locals scope)
      (bound : here ≠ []) (slots : ∀ entry ∈ here, entry.slot = localSlotCount locals)
      (same : ∀ name, (Expr.name name).Named →
        (here.find? fun entry => entry.name = name).map Local.projection = frame.lookup name) :
      Represents outer (here ++ locals) (frame :: scope)

variable {outer locals here : Locals} {scope : List Frame}

theorem localSlotCount_append (bound : here ≠ []) (slots : ∀ entry ∈ here, entry.slot = localSlotCount locals) :
    localSlotCount (here ++ locals) = localSlotCount locals + 1 := by
  induction here with
  | nil => exact absurd rfl bound
  | cons first here ih =>
    have isFirst := slots first (List.mem_cons_self ..)
    have unfold : localSlotCount (first :: here ++ locals) = max (first.slot + 1) (localSlotCount (here ++ locals)) := rfl
    rw [unfold, isFirst]
    cases here with
    | nil => exact Nat.max_eq_left (Nat.le_succ _)
    | cons second here =>
      rw [ih (List.cons_ne_nil _ _) fun entry member => slots entry (List.mem_cons_of_mem _ member), Nat.max_self]

/-- A name is found at the slot of its binder, counted from inside. -/
theorem Represents.find {name : String} {index : ℕ} {projection : Projection} (represents : Represents outer locals scope)
    (named : (Expr.name name).Named) (resolved : resolve scope name = some (index, projection)) :
    ∃ found, (locals.find? fun entry => entry.name = name) = some found ∧ found.projection = projection ∧
      localSlotCount locals = found.slot + index + 1 := by
  induction represents generalizing index with
  | nil => cases resolved
  | @push locals here scope frame rest bound slots same ih =>
    have count := localSlotCount_append bound slots
    have isSame := same name named
    rw [List.find?_append]
    rw [resolve] at resolved
    cases isHere : frame.lookup name with
    | some projection' =>
      rw [isHere] at resolved isSame
      cases resolved
      obtain ⟨found, isFound, isProjection⟩ := Option.map_eq_some_iff.mp isSame
      have slot := slots found (List.mem_of_find?_eq_some isFound)
      exact ⟨found, by rw [isFound, Option.some_or], isProjection, by omega⟩
    | none =>
      rw [isHere] at resolved isSame
      obtain ⟨⟨inner, projection'⟩, isInner, same⟩ := Option.map_eq_some_iff.mp resolved
      obtain ⟨rfl, rfl⟩ := Prod.mk.inj same
      obtain ⟨found, isFound, isProjection, isSlot⟩ := ih isInner
      rw [Option.map_eq_none_iff.mp isSame, Option.none_or]
      exact ⟨found, isFound, isProjection, by omega⟩

/-- The locals of one binder, all at one slot. -/
private theorem find_frame (frame : Frame) (slot : ℕ) (name : String) :
    ((frame.map fun (name, projection) => (⟨name, slot, projection⟩ : Local)).find? fun entry => entry.name = name).map
      Local.projection = frame.lookup name := by
  induction frame with
  | nil => rfl
  | cons first frame ih =>
    obtain ⟨here, projection⟩ := first
    rw [List.map_cons, List.find?_cons, List.lookup_cons]
    by_cases same : here = name
    · simp [same]
    · have differs : (name == here) = false := by simpa using fun equal => same equal.symm
      rw [differs]
      simpa only [same, decide_false] using ih

theorem Represents.frame {frame : Frame} (represents : Represents outer locals scope) (bound : frame ≠ []) :
    Represents outer ((frame.map fun (name, projection) => ⟨name, localSlotCount locals, projection⟩) ++ locals)
      (frame :: scope) := by
  refine .push represents (by simpa using bound) (fun entry member => ?_) fun name _ => find_frame frame _ name
  obtain ⟨_, _, rfl⟩ := List.mem_map.mp member
  rfl

theorem Represents.pushLocal (represents : Represents outer locals scope) (name : String) :
    Represents outer (pushLocal locals name) ([(name, .identity)] :: scope) := by
  have bound : ([(name, .identity)] : Frame) ≠ [] := List.cons_ne_nil _ _
  exact represents.frame bound

/-- A local that no name can be. -/
theorem Represents.unnamed {name : String} (represents : Represents outer locals scope)
    (isWildcard : (stripPrefix "$wildcard" name).isSome) : Represents outer (Compiler.pushLocal locals name) ([] :: scope) := by
  have pushed : Represents outer ([⟨name, localSlotCount locals, .identity⟩] ++ locals) ([] :: scope) := by
    refine .push represents (List.cons_ne_nil _ _) (fun entry member => ?_) fun other named => ?_
    · obtain rfl := List.mem_singleton.mp member
      rfl
    · have differs : name ≠ other := by
        rintro rfl
        rw [named.2] at isWildcard
        cases isWildcard
      simp [differs]
  exact pushed

theorem Represents.bindPattern {pattern : BindingPattern} (represents : Represents outer locals scope)
    (binds : pattern.Binds) : Represents outer (bindPattern pattern locals) (patternFrame pattern :: scope) := by
  induction pattern with
  | name name => exact represents.pushLocal name
  | wildcard => exact represents.unnamed (by decide)
  | tuple names =>
    have some : names ≠ [] := binds
    have bound : patternFrame (.tuple names) ≠ [] := by simpa [patternFrame] using some
    have framed := represents.frame bound
    simp only [patternFrame, List.map_reverse, List.map_map] at framed ⊢
    exact framed
  | annotated inner _ ih => exact ih binds

theorem Represents.bindPatterns {patterns : List BindingPattern} (represents : Represents outer locals scope)
    (binds : ∀ pattern ∈ patterns, pattern.Binds) :
    Represents outer (bindPatterns patterns locals) ((patterns.map patternFrame).reverse ++ scope) := by
  induction patterns generalizing locals scope with
  | nil => exact represents
  | cons pattern patterns ih =>
    have here := represents.bindPattern (binds pattern (List.mem_cons_self ..))
    rw [List.map_cons, List.reverse_cons, List.append_assoc]
    exact ih here fun other member => binds other (List.mem_cons_of_mem _ member)

theorem Represents.pushLocals {names : List String} (represents : Represents outer locals scope) :
    Represents outer (pushLocals locals names) (names.reverse.map (fun name => [(name, .identity)]) ++ scope) := by
  induction names generalizing locals scope with
  | nil => exact represents
  | cons name names ih =>
    rw [List.reverse_cons, List.map_append, List.append_assoc]
    exact ih (represents.pushLocal name)

theorem Represents.wildcards {arity : ℕ} (represents : Represents outer locals scope) :
    Represents outer (Compiler.pushLocals locals (wildcardNames arity)) (List.replicate arity [] ++ scope) := by
  have isWildcard (index : ℕ) : (stripPrefix "$wildcard" ("$wildcard" ++ toString index)).isSome := by
    simp [stripPrefix]
  induction arity with
  | zero => exact represents
  | succ arity ih =>
    have last := ih.unnamed (isWildcard arity)
    rw [wildcardNames, List.range_succ, List.map_append, Compiler.pushLocals, List.foldl_append]
    exact last

end Locals

section Around

/-- The binders that have locals. -/
def present (around : List Binder) : List Frame :=
  around.filterMap fun binder => match binder with
    | .bound frame => some frame
    | .missing => none

def Bound (around : List Binder) (name : String) : Prop := ∃ frame, .bound frame ∈ around ∧ (frame.lookup name).isSome

variable {around : List Binder} {name : String}

theorem present_append (inner around : List Binder) : present (inner ++ around) = present inner ++ present around :=
  List.filterMap_append

theorem present_bound (frames : List Frame) : present (frames.map .bound) = frames := by
  simp [present, List.filterMap_map]

theorem present_missing (count : ℕ) : present (List.replicate count .missing) = [] := by
  simp [present]

/-- The index of inference and the index of lexical scoping are the same where no binder is missing on the way. -/
theorem resolve_around (bound : Bound around name) : ∃ index index' projection,
    resolve (present around) name = some (index, projection) ∧
      resolve (around.map Binder.frame) name = some (index', projection) ∧ index ≤ index' ∧
        (index = index' ↔ Reached around name) := by
  induction around with
  | nil =>
    obtain ⟨_, member, _⟩ := bound
    cases member
  | cons binder around ih =>
    cases binder with
    | missing =>
      have later : Bound around name := by
        obtain ⟨frame, member, found⟩ := bound
        exact ⟨frame, by simpa using member, found⟩
      obtain ⟨index, index', projection, isIndex, isIndex', le, _⟩ := ih later
      refine ⟨index, index' + 1, projection, isIndex, ?_, by omega, by omega, fun reached => reached.elim⟩
      simp [resolve, Binder.frame, isIndex']
    | bound frame =>
      have split : present (.bound frame :: around) = frame :: present around := rfl
      rw [split, List.map_cons, Binder.frame, resolve, resolve, Reached]
      cases here : frame.lookup name with
      | some projection => exact ⟨0, 0, projection, rfl, rfl, Nat.le_refl 0, by simp⟩
      | none =>
        have later : Bound around name := by
          obtain ⟨frame', member, found⟩ := bound
          rcases List.mem_cons.mp member with same | member
          · rw [Binder.bound.inj same, here] at found
            cases found
          · exact ⟨frame', member, found⟩
        obtain ⟨index, index', projection, isIndex, isIndex', le, reached⟩ := ih later
        refine ⟨index + 1, index' + 1, projection, by simp [isIndex], by simp [isIndex'], by omega, ?_⟩
        simpa using reached

/-- The validated names are bound. -/
def Covers (names : List String) (around : List Binder) : Prop :=
  ∀ name, (Expr.name name).Named → name ∈ names → Bound around name

variable {names : List String}

theorem Covers.under (covers : Covers names around) (inner : List Binder) : Covers names (inner ++ around) := by
  intro name named member
  obtain ⟨frame, isBinder, found⟩ := covers name named member
  exact ⟨frame, List.mem_append_right _ isBinder, found⟩

theorem Covers.frame {frame : Frame} {added : List String} (covers : Covers names around)
    (here : ∀ name, (Expr.name name).Named → name ∈ added → (frame.lookup name).isSome) :
    Covers (added ++ names) (.bound frame :: around) := by
  intro name named member
  rcases List.mem_append.mp member with isNew | isOld
  · exact ⟨frame, List.mem_cons_self .., here name named isNew⟩
  · exact covers.under [_] name named isOld

theorem mem_patternFrame {pattern : BindingPattern} (named : (Expr.name name).Named)
    (member : name ∈ patternNames pattern) : ((patternFrame pattern).lookup name).isSome := by
  induction pattern with
  | name other =>
    obtain rfl := List.mem_singleton.mp member
    simp [patternFrame]
  | wildcard =>
    obtain rfl := List.mem_singleton.mp member
    exact absurd rfl named.1
  | tuple names =>
    have isName : name ∈ names := List.mem_reverse.mp member
    rw [List.lookup_isSome_iff]
    obtain ⟨position, inside, rfl⟩ := List.mem_iff_getElem.mp isName
    refine ⟨(names[position], .tupleElement names.length position), ?_, by simp⟩
    rw [patternFrame, List.mem_reverse, List.mem_map]
    exact ⟨(names[position], position), List.mk_mem_zipIdx_iff_getElem?.mpr (List.getElem?_eq_getElem inside), rfl⟩
  | annotated inner _ ih => exact ih member

theorem Covers.pattern (covers : Covers names around) (pattern : BindingPattern) :
    Covers (patternNames pattern ++ names) (.bound (patternFrame pattern) :: around) :=
  covers.frame fun _ named member => mem_patternFrame named member

theorem Covers.patterns (covers : Covers names around) (patterns : List BindingPattern) :
    Covers (pushNames patterns names) ((patterns.map fun pattern => .bound (patternFrame pattern)).reverse ++ around) := by
  induction patterns generalizing names around with
  | nil => exact covers
  | cons pattern patterns ih =>
    rw [List.map_cons, List.reverse_cons, List.append_assoc]
    exact ih (covers.pattern pattern)

theorem Covers.alternative (covers : Covers names around) (pattern : CasePattern) :
    Covers ((binders pattern).reverse ++ names) (caseBinders pattern ++ around) := by
  rw [caseBinders]
  induction (binders pattern).reverse with
  | nil => exact covers
  | cons binder rest ih =>
    have here (other : String) (_ : (Expr.name other).Named) (member : other ∈ [binder]) :
        (([(binder, .identity)] : Frame).lookup other).isSome := by
      obtain rfl := List.mem_singleton.mp member
      simp
    exact ih.frame here

end Around

section Scopes

variable {context : InferContext} {id : ExprId} {around : List Binder} {names : List String}

/-- The locals that are named below the expression are bound around it. -/
def InScope (context : InferContext) (id : ExprId) (around : List Binder) : Prop :=
  ∃ names, Validated context id names ∧ Covers names around

theorem Validated.applies {part : ExprId} (validated : Validated context id names)
    (applies : Applies context.parsed id part) : Validated context part names := by
  have step {id child : ExprId} (validated : Validated context id names)
      (isApplied : child ∈ Expr.applied (context.parsed.expression id)) : Validated context child names := by
    have single : Applies context.parsed id child := .single isApplied
    have before := single.inside.lt
    refine validated.step before fun validate accepted => ?_
    rw [validateStep] at accepted
    cases shape : context.parsed.expression id with
    | apply function argument =>
      rw [shape] at accepted isApplied
      obtain ⟨isFunction, isArgument⟩ := List.append_eq_nil_iff.mp accepted
      rcases List.mem_pair.mp isApplied with rfl | rfl
      · exact isFunction
      · exact isArgument
    | typeApply function argument =>
      rw [shape] at accepted isApplied
      obtain rfl := List.mem_singleton.mp isApplied
      exact (List.append_eq_nil_iff.mp accepted).1
    | _ =>
      rw [shape] at isApplied
      cases isApplied
  induction applies with
  | single isApplied => exact step validated isApplied
  | tail _ isApplied ih => exact step ih isApplied

theorem doParts_scope {statements : List DoStatement} {inner : List Binder} {part : SubExpr}
    (isPart : part ∈ doParts statements inner) (covers : Covers names (inner ++ around)) :
    part.id ∈ statements.map DoStatement.expression ∧ ∃ names', Covers names' (part.binders ++ around) ∧
      ∀ validate, validateStatements validate statements names = [] → validate part.id names' = [] := by
  induction statements generalizing inner names with
  | nil => cases isPart
  | cons statement rest ih =>
    rcases List.mem_cons.mp isPart with rfl | isLater
    · exact ⟨List.mem_cons_self .., names, covers, fun _ accepted => (List.append_eq_nil_iff.mp accepted).1⟩
    · have covers' : Covers (pushNames statement.pattern?.toList names)
          ((statement.pattern?.elim inner fun pattern => .bound (patternFrame pattern) :: inner) ++ around) := by
        cases statement.pattern? with
        | none => exact covers
        | some pattern => exact covers.pattern pattern
      obtain ⟨member, names', covered, accepts⟩ := ih isLater covers'
      refine ⟨List.mem_cons_of_mem _ member, names', covered, fun validate accepted => ?_⟩
      exact accepts validate (List.append_eq_nil_iff.mp (List.append_eq_nil_iff.mp accepted).2).2

theorem handlerParts_mem {alternatives : List CaseAlternative} {handlers : List (ℕ × ℕ)} {ahead : ℕ} {part : SubExpr}
    (isPart : part ∈ handlerParts alternatives handlers ahead) : ∃ alternative ∈ alternatives,
      part.id = alternative.expression ∧ (part.binders = caseBinders alternative.pattern ∨ alternative.pattern = .wildcard) := by
  induction handlers generalizing ahead with
  | nil => cases isPart
  | cons handler handlers ih =>
    obtain ⟨arity, index⟩ := handler
    rw [handlerParts] at isPart
    split at isPart
    next written isWritten =>
      rcases List.mem_cons.mp isPart with rfl | isLater
      · exact ⟨written, List.mem_of_find?_eq_some isWritten, rfl, .inl rfl⟩
      · exact ih isLater
    next =>
      split at isPart
      next wildcard isWildcard =>
        rcases List.mem_cons.mp isPart with rfl | isLater
        · exact ⟨wildcard, List.mem_of_find?_eq_some isWildcard, rfl, .inr (by simpa using List.find?_some isWildcard)⟩
        · exact ih isLater
      next => cases isPart

theorem alternativeParts_mem {alternatives : List CaseAlternative} {part : SubExpr}
    (isPart : part ∈ alternativeParts context alternatives) : ∃ alternative ∈ alternatives,
      part.id = alternative.expression ∧ (part.binders = caseBinders alternative.pattern ∨ alternative.pattern = .wildcard) := by
  rw [alternativeParts] at isPart
  split at isPart
  · split at isPart
    · exact handlerParts_mem isPart
    · cases isPart
  · rcases List.mem_append.mp isPart with isWritten | isWildcard
    · obtain ⟨⟨index, alternative⟩, member, rfl⟩ := List.mem_map.mp isWritten
      rw [writtenConstructors, List.mem_insertionSort, List.mem_filterMap] at member
      obtain ⟨other, isOther, found⟩ := member
      simp only [Option.bind_eq_bind, Option.bind_eq_some_iff, Option.some.injEq, Prod.mk.injEq] at found
      obtain ⟨_, _, _, _, _, rfl⟩ := found
      exact ⟨other, isOther, rfl, .inl rfl⟩
    · obtain ⟨wildcard, isFound, rfl⟩ := List.mem_map.mp isWildcard
      have isFound := Option.mem_toList.mp isFound
      exact ⟨wildcard, List.mem_of_find?_eq_some isFound, rfl, .inr (by simpa using List.find?_some isFound)⟩

theorem recordShape_subset {constructor : String} {fields : List RecordFieldExpr} {field : RecordFieldExpr}
    (member : field ∈ (recordShape context constructor fields).2) : field ∈ fields := by
  rw [recordShape] at member
  split at member
  · exact (List.mem_insertionSort _).mp member
  · split at member
    · split at member
      · obtain ⟨declared, _, found⟩ := List.mem_filterMap.mp member
        exact List.mem_of_find?_eq_some found
      · exact member
    · exact member

/-- What is in scope of an expression is in scope of its parts, with the binders between. -/
theorem InScope.part {part : SubExpr} (inScope : InScope context id around) (isPart : part ∈ parts context id) :
    InScope context part.id (part.binders ++ around) := by
  obtain ⟨names, validated, covers⟩ := inScope
  rw [parts] at isPart
  split at isPart
  next intrinsic field isIntrinsic =>
    obtain ⟨operand, isOperand, rfl⟩ := List.mem_map.mp isPart
    exact ⟨names, validated.applies (recordIntrinsic_applies isIntrinsic operand isOperand), covers⟩
  next =>
    have below {child : ExprId} {names' : List String} {inner : List Binder} (isChild : child ∈ (context.parsed.expression id).children)
        (covers' : Covers names' (inner ++ around))
        (accepts : ∀ validate : ExprId → List String → DiagnosticBundle,
          validateStep context.parsed context.globals context.userTypes validate id names = [] → validate child names' = []) :
        InScope context child (inner ++ around) :=
      ⟨names', validated.step (ParsedFile.child_lt isChild) accepts, covers'⟩
    simp only [validateStep] at below
    cases shape : context.parsed.expression id with
    | name | literal =>
      rw [shape] at isPart
      cases isPart
    | apply function argument =>
      simp only [shape, Expr.children, List.append_eq_nil_iff] at isPart below
      rcases List.mem_pair.mp isPart with rfl | rfl
      · exact below (by simp) covers fun _ accepted => accepted.1
      · exact below (by simp) covers fun _ accepted => accepted.2
    | typeApply function argument =>
      simp only [shape, Expr.children, List.append_eq_nil_iff] at isPart below
      obtain rfl := List.mem_singleton.mp isPart
      exact below (by simp) covers fun _ accepted => accepted.1
    | annotated expression ty =>
      simp only [shape, Expr.children, List.append_eq_nil_iff] at isPart below
      obtain rfl := List.mem_singleton.mp isPart
      exact below (by simp) covers fun _ accepted => accepted.1
    | lambda parameters body =>
      simp only [shape, Expr.children, List.append_eq_nil_iff] at isPart below
      obtain rfl := List.mem_singleton.mp isPart
      exact below (by simp) (covers.patterns parameters) fun _ accepted => accepted.2
    | ifThenElse condition thenBranch elseBranch =>
      simp only [shape, Expr.children, List.append_eq_nil_iff] at isPart below
      simp only [List.mem_cons, List.not_mem_nil, or_false] at isPart
      rcases isPart with rfl | rfl | rfl
      · exact below (by simp) covers fun _ accepted => accepted.2.2
      · exact below (by simp) covers fun _ accepted => accepted.2.1
      · exact below (by simp) covers fun _ accepted => accepted.1
    | doBlock statements =>
      simp only [shape, Expr.children] at isPart below
      obtain ⟨member, names', covers', accepts⟩ := doParts_scope isPart (covers.under [])
      exact below member covers' accepts
    | case scrutinee alternatives =>
      simp only [shape, Expr.children, List.append_eq_nil_iff, List.flatMap_eq_nil_iff] at isPart below
      rcases List.mem_cons.mp isPart with rfl | isAlternative
      · exact below (List.mem_cons_self ..) covers fun _ accepted => accepted.1
      · obtain ⟨alternative, member, same, binders⟩ := alternativeParts_mem isAlternative
        rw [same]
        have isChild := List.mem_cons_of_mem scrutinee (List.mem_map_of_mem (f := CaseAlternative.expression) member)
        rcases binders with written | isWildcard
        · rw [written]
          exact below isChild (covers.alternative alternative.pattern) fun _ accepted => accepted.2 alternative member
        · refine below isChild (covers.under part.binders) fun validate accepted => ?_
          simpa [isWildcard, Compiler.binders] using accepted.2 alternative member
    | tuple elements | list elements =>
      simp only [shape, Expr.children, List.flatMap_eq_nil_iff] at isPart below
      obtain ⟨element, member, rfl⟩ := List.mem_map.mp isPart
      exact below member covers fun _ accepted => accepted element member
    | recordConstruction constructor fields =>
      simp only [shape, Expr.children, List.append_eq_nil_iff, List.flatMap_eq_nil_iff] at isPart below
      obtain ⟨field, member, rfl⟩ := List.mem_map.mp isPart
      have member' := recordShape_subset member
      exact below (List.mem_map_of_mem member') covers fun _ accepted => accepted.2 field member'

/-- A local that is named is bound. -/
theorem InScope.name {name : String} (inScope : InScope context id around)
    (shape : context.parsed.expression id = .name name) (isLocal : IsLocal name) : Bound around name := by
  obtain ⟨names, validated, covers⟩ := inScope
  have named : (context.parsed.expression id).Named := ParsedFile.expression_named id
  rw [shape] at named
  exact covers name named (validated.name shape isLocal.1 isLocal.2)

end Scopes

section Inverted

variable {context : InferContext} {expand : ℕ → Locals → Elab CoreTerm} {infer : ExprId → Locals → Elab CoreTerm}
  {outer locals : Locals} {around : List Binder} {term : CoreTerm}

/-- The term is inferred for the part, with locals for the binders that are not missing. -/
def Infers (infer : ExprId → Locals → Elab CoreTerm) (outer : Locals) (around : List Binder) (part : SubExpr)
    (term : CoreTerm) : Prop :=
  ∃ locals, Represents outer locals (present (part.binders ++ around)) ∧ infer part.id locals = .ok term

theorem mapM_forall₂ {α β : Type} {each : α → Elab β} {items : List α} {results : List β}
    (mapped : items.mapM each = .ok results) : List.Forall₂ (fun item result => each item = .ok result) items results := by
  induction items generalizing results with
  | nil =>
    cases mapped
    exact .nil
  | cons item items ih =>
    obtain ⟨first, rest, isFirst, isRest, rfl⟩ := mapM_ok_cons.mp mapped
    exact .cons isFirst (ih isRest)

theorem inferElements_parts {elements : List ExprId} {terms : List CoreTerm}
    (represents : Represents outer locals (present around)) (inferred : inferElements infer elements locals = .ok terms) :
    List.Forall₂ (Infers infer outer around) (elements.map fun element => ⟨element, []⟩) terms := by
  rw [List.forall₂_map_left_iff]
  exact (mapM_forall₂ inferred).imp fun element term isTerm => ⟨locals, represents, isTerm⟩

theorem inferRecordIntrinsic_parts {id : ExprId} {result : Option CoreTerm}
    (represents : Represents outer locals (present around))
    (inferred : inferRecordIntrinsic context infer id locals = .ok result) :
    (result = none ∧ recordIntrinsic context.parsed id = none) ∨ ∃ intrinsic field label term terms,
      recordIntrinsic context.parsed id = some (intrinsic, field) ∧ context.parsed.type field = .promoted label ∧
        result = some term ∧ buildIntrinsic label intrinsic terms = some term ∧
          List.Forall₂ (Infers infer outer around) (intrinsic.operands.map fun operand => ⟨operand, []⟩) terms := by
  rw [inferRecordIntrinsic] at inferred
  split at inferred
  next isNone => exact .inl ⟨(Except.ok.inj inferred).symm, isNone⟩
  next intrinsic field isIntrinsic =>
    right
    split at inferred
    next label shape =>
      cases intrinsic with
      | get record =>
        obtain ⟨term, isTerm, same⟩ := bind_ok_iff.mp inferred
        exact ⟨_, field, label, _, [term], isIntrinsic, shape, (Except.ok.inj same).symm, rfl,
          .cons ⟨locals, represents, isTerm⟩ .nil⟩
      | set value record =>
        obtain ⟨term, isTerm, rest⟩ := bind_ok_iff.mp inferred
        obtain ⟨term', isTerm', same⟩ := bind_ok_iff.mp rest
        exact ⟨_, field, label, _, [term', term], isIntrinsic, shape, (Except.ok.inj same).symm, rfl,
          .cons ⟨locals, represents, isTerm'⟩ (.cons ⟨locals, represents, isTerm⟩ .nil)⟩
      | modify function record =>
        obtain ⟨term, isTerm, rest⟩ := bind_ok_iff.mp inferred
        obtain ⟨term', isTerm', same⟩ := bind_ok_iff.mp rest
        exact ⟨_, field, label, _, [term', term], isIntrinsic, shape, (Except.ok.inj same).symm, rfl,
          .cons ⟨locals, represents, isTerm'⟩ (.cons ⟨locals, represents, isTerm⟩ .nil)⟩
    next => cases inferred

theorem instantiateBuiltin_ok {name : String} (inferred : instantiateBuiltin name = .ok term) : term = .builtin name := by
  rw [instantiateBuiltin] at inferred
  split at inferred
  · cases inferred
  · exact (Except.ok.inj inferred).symm

theorem inferDo_parts {statements : List DoStatement} {inner : List Binder}
    (binds : ∀ statement ∈ statements, ∀ pattern ∈ statement.pattern?, pattern.Binds)
    (represents : Represents outer locals (present (inner ++ around))) (inferred : inferDo infer statements locals = .ok term) :
    ∃ terms, List.Forall₂ (Infers infer outer around) (doParts statements inner) terms ∧
      buildDo statements terms = some term := by
  induction statements generalizing inner locals term with
  | nil => cases inferred
  | cons statement rest ih =>
    cases rest with
    | nil =>
      cases statement with
      | action expression => exact ⟨[term], .cons ⟨locals, represents, inferred⟩ .nil, rfl⟩
      | letBind | bind => cases inferred
    | cons next rest =>
      have bindsRest := fun statement member => binds statement (List.mem_cons_of_mem _ member)
      cases statement with
      | action expression =>
        obtain ⟨action, isAction, inferred⟩ := bind_ok_iff.mp inferred
        obtain ⟨body, isBody, inferred⟩ := bind_ok_iff.mp inferred
        obtain ⟨builtin, isBuiltin, same⟩ := bind_ok_iff.mp inferred
        obtain ⟨terms, areTerms, built⟩ := ih bindsRest represents isBody
        refine ⟨action :: terms, .cons ⟨locals, represents, isAction⟩ areTerms, ?_⟩
        rw [buildDo, built, Option.map_some, ← Except.ok.inj same, instantiateBuiltin_ok isBuiltin, buildStatement]
        exact fun _ _ isSingle => by cases isSingle
      | letBind pattern expression =>
        have bound := binds _ (List.mem_cons_self ..) pattern rfl
        obtain ⟨value, isValue, inferred⟩ := bind_ok_iff.mp inferred
        obtain ⟨body, isBody, same⟩ := bind_ok_iff.mp inferred
        have represents' : Represents outer (bindPattern pattern locals)
            (present ((.bound (patternFrame pattern) :: inner) ++ around)) := represents.bindPattern bound
        obtain ⟨terms, areTerms, built⟩ := ih bindsRest represents' isBody
        refine ⟨value :: terms, .cons ⟨locals, represents, isValue⟩ areTerms, ?_⟩
        rw [buildDo, built, Option.map_some, ← Except.ok.inj same, buildStatement]
        exact fun _ _ isSingle => by cases isSingle
      | bind pattern expression =>
        have bound := binds _ (List.mem_cons_self ..) pattern rfl
        obtain ⟨action, isAction, inferred⟩ := bind_ok_iff.mp inferred
        obtain ⟨body, isBody, inferred⟩ := bind_ok_iff.mp inferred
        obtain ⟨builtin, isBuiltin, same⟩ := bind_ok_iff.mp inferred
        have represents' : Represents outer (bindPattern pattern locals)
            (present ((.bound (patternFrame pattern) :: inner) ++ around)) := represents.bindPattern bound
        obtain ⟨terms, areTerms, built⟩ := ih bindsRest represents' isBody
        refine ⟨action :: terms, .cons ⟨locals, represents, isAction⟩ areTerms, ?_⟩
        rw [buildDo, built, Option.map_some, ← Except.ok.inj same, instantiateBuiltin_ok isBuiltin, buildStatement]
        exact fun _ _ isSingle => by cases isSingle

theorem inferAhead_ok {id : ExprId} {count : ℕ} {queue : List CoreTerm}
    (inferred : inferAhead context infer id locals count = .ok queue) :
    queue.length = (if Expr.isCase (context.parsed.expression id) then count else min 1 count) ∧
      ∀ term ∈ queue, infer id locals = .ok term := by
  induction count generalizing queue with
  | zero =>
    cases inferred
    exact ⟨by split <;> rfl, by simp⟩
  | succ count ih =>
    rw [inferAhead] at inferred
    split at inferred
    next scrutinee alternatives shape =>
      obtain ⟨first, isFirst, inferred⟩ := bind_ok_iff.mp inferred
      obtain ⟨rest, isRest, same⟩ := bind_ok_iff.mp inferred
      obtain rfl := Except.ok.inj same
      obtain ⟨length, each⟩ := ih isRest
      rw [shape] at length ⊢
      exact ⟨congrArg Nat.succ length, List.forall_mem_cons.mpr ⟨isFirst, each⟩⟩
    next notCase =>
      obtain ⟨first, isFirst, same⟩ := bind_ok_iff.mp inferred
      obtain rfl := Except.ok.inj same
      have other : Expr.isCase (context.parsed.expression id) = false := by
        cases shape : context.parsed.expression id with
        | case scrutinee alternatives => exact absurd shape (notCase scrutinee alternatives)
        | _ => rfl
      refine ⟨?_, by simpa using isFirst⟩
      rw [other, if_neg Bool.false_ne_true, List.length_singleton]
      exact (Nat.min_eq_left (Nat.succ_le_succ (Nat.zero_le count))).symm

/-- The queue of a prepared alternative: terms that are inferred with the binders of its pattern. -/
structure Prepared.Ready (context : InferContext) (infer : ExprId → Locals → Elab CoreTerm) (locals : Locals)
    (alternatives : List CaseAlternative) (entry : Prepared) : Prop where
  length : entry.queue.length = if Expr.isCase (context.parsed.expression entry.alternative.expression)
    then repeats alternatives entry.alternative else min 1 (repeats alternatives entry.alternative)
  queue : ∀ term ∈ entry.queue,
    infer entry.alternative.expression (pushLocals locals (binders entry.alternative.pattern)) = .ok term

variable {alternatives : List CaseAlternative} {prepared : List Prepared}

theorem prepare_ready (isPrepared : prepare context infer alternatives locals = .ok prepared) :
    ∀ entry ∈ prepared, entry.Ready context infer locals alternatives := by
  intro entry member
  have each := mapM_forall₂ isPrepared
  obtain ⟨alternative, found⟩ : ∃ alternative, (do
      let queue ← inferAhead context infer alternative.expression (pushLocals locals (binders alternative.pattern))
        (repeats alternatives alternative)
      pure ⟨alternative, queue⟩ : Elab Prepared) = .ok entry := by
    obtain ⟨position, inside, rfl⟩ := List.mem_iff_getElem.mp member
    obtain ⟨length, each⟩ := List.forall₂_iff_get.mp each
    exact ⟨_, each position (length ▸ inside) inside⟩
  obtain ⟨queue, isQueue, same⟩ := bind_ok_iff.mp found
  obtain rfl := Except.ok.inj same
  obtain ⟨length, each⟩ := inferAhead_ok isQueue
  exact ⟨length, each⟩

theorem Prepared.Ready.take {entry : Prepared} (ready : entry.Ready context infer locals alternatives)
    (taken : takePrepared infer entry.queue entry.alternative.expression
      (pushLocals locals (binders entry.alternative.pattern)) = .ok term) :
    infer entry.alternative.expression (pushLocals locals (binders entry.alternative.pattern)) = .ok term := by
  rw [takePrepared.eq_def] at taken
  split at taken
  next first rest isQueue =>
    obtain rfl := Except.ok.inj taken
    exact ready.queue first (isQueue ▸ List.mem_cons_self ..)
  next => exact taken

/-- The binders of a written alternative have locals. -/
theorem represents_alternative (represents : Represents outer locals (present around)) (pattern : CasePattern) :
    Represents outer (pushLocals locals (binders pattern)) (present (caseBinders pattern ++ around)) := by
  rw [present_append, caseBinders]
  have frames := present_bound ((binders pattern).reverse.map fun name => [(name, Projection.identity)])
  rw [List.map_map] at frames
  exact frames ▸ represents.pushLocals

theorem inferHandlers_parts {wildcard : Option Prepared} (represents : Represents outer locals (present around))
    (ready : ∀ entry ∈ prepared, entry.Ready context infer locals alternatives)
    (isWildcard : wildcard = prepared.find? fun entry => entry.alternative.pattern = .wildcard)
    {handlers : List (ℕ × ℕ)} {queue terms : List CoreTerm}
    (queued : ∀ entry ∈ wildcard, ∀ term ∈ queue, infer entry.alternative.expression locals = .ok term)
    (inferred : inferHandlers infer prepared wildcard locals handlers queue = .ok terms) :
    ∃ bodies, List.Forall₂ (Infers infer outer around)
      (handlerParts (prepared.map Prepared.alternative) handlers queue.length) bodies ∧
        terms = List.zipWith wrapLambdas (handlers.map Prod.fst) bodies := by
  induction handlers generalizing queue terms with
  | nil =>
    cases inferred
    exact ⟨[], .nil, rfl⟩
  | cons handler handlers ih =>
    obtain ⟨arity, index⟩ := handler
    have written : alternativeFor (prepared.map Prepared.alternative) index =
        (explicitFor prepared index).map Prepared.alternative := by
      rw [alternativeFor, List.find?_map]
      rfl
    have unwritten : wildcardOf (prepared.map Prepared.alternative) = wildcard.map Prepared.alternative := by
      rw [wildcardOf, List.find?_map, isWildcard]
      rfl
    rw [inferHandlers.eq_def] at inferred
    dsimp only at inferred
    rw [handlerParts, written]
    split at inferred
    next entry isEntry =>
      obtain ⟨body, isBody, inferred⟩ := bind_ok_iff.mp inferred
      obtain ⟨rest, isRest, same⟩ := bind_ok_iff.mp inferred
      obtain ⟨bodies, areBodies, rfl⟩ := ih queued isRest
      have isInferred := (ready entry (List.mem_of_find?_eq_some isEntry)).take isBody
      refine ⟨body :: bodies, ?_, (Except.ok.inj same).symm⟩
      rw [isEntry, Option.map_some]
      exact .cons ⟨_, represents_alternative represents entry.alternative.pattern, isInferred⟩ areBodies
    next isNone =>
      rw [isNone, Option.map_none, unwritten]
      split at inferred
      next entry =>
        obtain ⟨body, isBody, inferred⟩ := bind_ok_iff.mp inferred
        obtain ⟨rest, isRest, same⟩ := bind_ok_iff.mp inferred
        have queued' : ∀ other ∈ some entry, ∀ term ∈ queue.tail, infer other.alternative.expression locals = .ok term :=
          fun other isOther term member => queued other isOther term (List.mem_of_mem_tail member)
        obtain ⟨bodies, areBodies, rfl⟩ := ih queued' isRest
        refine ⟨body :: bodies, .cons ?_ (by simpa using areBodies), (Except.ok.inj same).symm⟩
        cases queue with
        | cons first queue =>
          obtain rfl := Except.ok.inj isBody
          refine ⟨locals, ?_, queued entry rfl first (List.mem_cons_self ..)⟩
          simpa [present_append, present_missing] using represents
        | nil =>
          have frames := present_bound (List.replicate arity [])
          rw [List.map_replicate] at frames
          refine ⟨_, ?_, isBody⟩
          simpa [present_append, frames] using represents.wildcards
      next => cases inferred

theorem primitiveAlternatives_ok {found found' : PrimitiveAlternatives}
    (inserted : prepared.foldlM insertPrimitiveAlternative found = .ok found') :
    found'.family = found.family.or (primitiveFamily (prepared.map Prepared.alternative)) ∧
      found'.wildcard = found.wildcard.or (prepared.find? fun entry => entry.alternative.pattern = .wildcard) := by
  induction prepared generalizing found with
  | nil =>
    cases inserted
    exact ⟨by simp [primitiveFamily], by simp⟩
  | cons first prepared ih =>
    obtain ⟨middle, isMiddle, inserted⟩ := foldlM_ok_cons.mp inserted
    obtain ⟨family, wildcard⟩ := ih inserted
    rw [insertPrimitiveAlternative] at isMiddle
    rw [family, wildcard, List.map_cons, primitiveFamily, primitiveFamily, List.filterMap_cons, List.find?_cons]
    split at isMiddle
    next name names shape =>
      split at isMiddle
      next => cases isMiddle
      next constructor isConstructor =>
        split at isMiddle
        · cases isMiddle
        next agrees =>
          split at isMiddle
          · cases isMiddle
          · split at isMiddle
            · cases isMiddle
            · cases isMiddle
              simp only [shape, primitiveName, List.findSome?_cons, isConstructor, Option.map_some, Option.some_or,
                reduceCtorEq, decide_false]
              refine ⟨?_, trivial⟩
              cases isFamily : found.family with
              | none => rfl
              | some family =>
                rw [isFamily] at agrees
                simpa using (by simpa using agrees : family = constructor.family).symm
    next shape =>
      obtain ⟨inserted', isInserted, same⟩ := bind_ok_iff.mp isMiddle
      cases same
      obtain ⟨isNone, rfl⟩ := insertWildcard_ok isInserted
      simp [shape, primitiveName, isNone]
    next => cases isMiddle

theorem inferPrimitiveCase_parts {scrutinee : CoreTerm} (represents : Represents outer locals (present around))
    (ready : ∀ entry ∈ prepared, entry.Ready context infer locals alternatives)
    (isPrepared : prepared.map Prepared.alternative = alternatives) (isPrimitive : isPrimitiveCase alternatives = true)
    (inferred : inferPrimitiveCase infer scrutinee prepared locals = .ok term) :
    ∃ bodies, List.Forall₂ (Infers infer outer around) (alternativeParts context alternatives) bodies ∧
      buildCase context alternatives scrutinee bodies = some term := by
  obtain ⟨found, isFound, inferred⟩ := bind_ok_iff.mp inferred
  obtain ⟨isFamily, isWildcard⟩ := primitiveAlternatives_ok isFound
  rw [isPrepared, Option.none_or] at isFamily
  rw [Option.none_or] at isWildcard
  split at inferred
  · cases inferred
  · split at inferred
    · cases inferred
    next family here =>
      rw [here] at isFamily
      obtain ⟨eliminator, isEliminator, inferred⟩ := bind_ok_iff.mp inferred
      obtain ⟨handlers, areHandlers, same⟩ := bind_ok_iff.mp inferred
      have ahead : ((found.wildcard.map Prepared.queue).getD []).length = inferredAhead context.parsed alternatives := by
        have same : wildcardOf alternatives = found.wildcard.map Prepared.alternative := by
          rw [← isPrepared, wildcardOf, List.find?_map, isWildcard]
          rfl
        rw [inferredAhead, same]
        cases isEntry : found.wildcard with
        | none => rfl
        | some entry => exact (ready entry (List.mem_of_find?_eq_some (isWildcard.symm.trans isEntry))).length
      have queued : ∀ entry ∈ found.wildcard, ∀ term ∈ (found.wildcard.map Prepared.queue).getD [],
          infer entry.alternative.expression locals = .ok term := by
        intro entry isEntry term member
        rw [Option.mem_def] at isEntry
        rw [isEntry] at member
        have here := isWildcard.symm.trans isEntry
        have inferred := (ready entry (List.mem_of_find?_eq_some here)).queue term member
        have shape : entry.alternative.pattern = .wildcard := by simpa using List.find?_some here
        rwa [shape] at inferred
      obtain ⟨bodies, areBodies, rfl⟩ := inferHandlers_parts represents ready isWildcard queued areHandlers
      rw [isPrepared, ahead] at areBodies
      refine ⟨bodies, ?_, ?_⟩
      · rw [alternativeParts, if_pos isPrimitive, ← isFamily]
        exact areBodies
      · rw [buildCase, if_pos isPrimitive, ← isFamily, ← Except.ok.inj same, instantiateBuiltin_ok isEliminator,
          List.zipIdx_map_fst]
        rfl

theorem selectType_ok {selected selected' : Option ℕ} (isSelected : prepared.foldlM (selectType context) selected = .ok selected') :
    selected' = selected.or (namedType context (prepared.map Prepared.alternative)) := by
  induction prepared generalizing selected with
  | nil =>
    cases isSelected
    simp [namedType]
  | cons first prepared ih =>
    obtain ⟨middle, isMiddle, isSelected⟩ := foldlM_ok_cons.mp isSelected
    rw [ih isSelected, List.map_cons, namedType, namedType, List.findSome?_cons]
    rw [selectType] at isMiddle
    split at isMiddle
    next name binder shape =>
      split at isMiddle
      next typeIndex _ owned =>
        split at isMiddle
        next agrees =>
          cases isMiddle
          simp only [shape, userName, Option.bind_eq_bind, Option.bind_some, owned, Option.some_or]
          cases selected with
          | none => rfl
          | some old =>
            have same : old = typeIndex := by simpa using agrees
            rw [same, Option.some_or]
        next => cases isMiddle
      next => cases isMiddle
    next notUser =>
      cases isMiddle
      have unnamed : userName first.alternative.pattern = none := by
        cases shape : first.alternative.pattern with
        | userConstructor name binder => exact absurd shape (notUser name binder)
        | _ => rfl
      rw [unnamed]

theorem selectedDefinition_ok {selected : Option ℕ} {definition : UserType} {constructors : List UserConstructor}
    (isSelected : selected = namedType context alternatives)
    (isDefinition : selectedDefinition context prepared selected = .ok (definition, constructors)) :
    constructors = namedConstructors context alternatives := by
  rw [namedConstructors, ← isSelected]
  rw [selectedDefinition.eq_def] at isDefinition
  split at isDefinition
  next =>
    split at isDefinition
    · cases isDefinition
    · cases isDefinition
      rfl
  next typeIndex =>
    split at isDefinition
    next name constructors' isType =>
      cases isDefinition
      simp [isType]
    next => cases isDefinition

/-- The position of a written constructor, with what is written. -/
def placed {α : Type} (constructors : List UserConstructor) (pattern : α → CasePattern) (entry : α) : Option (ℕ × α) := do
  let name ← userName (pattern entry)
  let index ← constructors.findIdx? fun constructor => constructor.name = name
  some (index, entry)

theorem userAlternatives_ok {definition : UserType} {constructors : List UserConstructor} {found found' : UserAlternatives}
    (inserted : prepared.foldlM (insertUserAlternative definition constructors) found = .ok found') :
    found'.explicit = found.explicit ++ prepared.filterMap (placed constructors fun entry => entry.alternative.pattern) ∧
      found'.wildcard = found.wildcard.or (prepared.find? fun entry => entry.alternative.pattern = .wildcard) := by
  induction prepared generalizing found with
  | nil =>
    cases inserted
    simp
  | cons first prepared ih =>
    obtain ⟨middle, isMiddle, inserted⟩ := foldlM_ok_cons.mp inserted
    obtain ⟨explicit, wildcard⟩ := ih inserted
    rw [explicit, wildcard, List.filterMap_cons, List.find?_cons]
    rw [insertUserAlternative] at isMiddle
    split at isMiddle
    next name binder shape =>
      split at isMiddle
      · cases isMiddle
      · split at isMiddle
        · cases isMiddle
        next index isIndex =>
          split at isMiddle
          · cases isMiddle
          · cases isMiddle
            simp [placed, shape, userName, isIndex]
    next shape =>
      obtain ⟨inserted', isInserted, same⟩ := bind_ok_iff.mp isMiddle
      cases same
      obtain ⟨isNone, rfl⟩ := insertWildcard_ok isInserted
      simp [placed, shape, userName, isNone]
    next => cases isMiddle

theorem writtenConstructors_eq (constructors : List UserConstructor)
    (isNamed : constructors = namedConstructors context (prepared.map Prepared.alternative)) :
    writtenConstructors context (prepared.map Prepared.alternative) =
      ((prepared.filterMap (placed constructors fun entry => entry.alternative.pattern)).insertionSort
        fun left right => left.1 ≤ right.1).map fun (index, entry) => (index, entry.alternative) := by
  have same (entry : Prepared) : (placed constructors (fun entry => entry.alternative.pattern) entry).map
      (fun (index, entry) => (index, entry.alternative)) = placed constructors CaseAlternative.pattern entry.alternative := by
    simp only [placed, Option.bind_eq_bind]
    cases userName entry.alternative.pattern with
    | none => rfl
    | some name =>
      rw [Option.bind_some, Option.bind_some]
      cases constructors.findIdx? fun constructor => decide (constructor.name = name) <;> rfl
  have ordered := List.map_insertionSort (fun (left right : ℕ × Prepared) => left.1 ≤ right.1)
    (fun (left right : ℕ × CaseAlternative) => left.1 ≤ right.1) (fun (index, entry) => (index, entry.alternative))
    (prepared.filterMap (placed constructors fun entry => entry.alternative.pattern)) fun _ _ _ _ => Iff.rfl
  rw [ordered, List.map_filterMap, writtenConstructors, ← isNamed, List.filterMap_map]
  simp only [same]
  rfl

private theorem zip_branches {α β : Type} {written : List (ℕ × α)} {branches : List (ℕ × β)}
    (same : List.Forall₂ (fun entry branch => entry.1 = branch.1) written branches) (fallback : Option β) :
    (written.map Prod.fst).zip (branches.map Prod.snd ++ fallback.toList) = branches ∧
      (branches.map Prod.snd ++ fallback.toList)[(written.map Prod.fst).length]? = fallback := by
  induction same with
  | nil => cases fallback <;> exact ⟨rfl, rfl⟩
  | @cons entry branch written branches here _ ih => exact ⟨by simp [here, ih.1], by simpa using ih.2⟩

theorem inferUserCase_parts {scrutinee : CoreTerm} (represents : Represents outer locals (present around))
    (ready : ∀ entry ∈ prepared, entry.Ready context infer locals alternatives)
    (isPrepared : prepared.map Prepared.alternative = alternatives) (isUser : isPrimitiveCase alternatives = false)
    (inferred : inferUserCase context infer scrutinee prepared locals = .ok term) :
    ∃ bodies, List.Forall₂ (Infers infer outer around) (alternativeParts context alternatives) bodies ∧
      buildCase context alternatives scrutinee bodies = some term := by
  obtain ⟨selected, isSelected, inferred⟩ := bind_ok_iff.mp inferred
  obtain ⟨⟨definition, constructors⟩, isDefinition, inferred⟩ := bind_ok_iff.mp inferred
  obtain ⟨found, isFound, inferred⟩ := bind_ok_iff.mp inferred
  obtain ⟨explicit, covered, inferred⟩ := bind_ok_iff.mp inferred
  obtain ⟨branches, areBranches, inferred⟩ := bind_ok_iff.mp inferred
  obtain ⟨fallback, isFallback, same⟩ := bind_ok_iff.mp inferred
  obtain ⟨isExplicit, isWildcard⟩ := userAlternatives_ok isFound
  rw [List.nil_append] at isExplicit
  rw [Option.none_or] at isWildcard
  have isNamed : constructors = namedConstructors context (prepared.map Prepared.alternative) :=
    selectedDefinition_ok (selectType_ok isSelected) isDefinition
  have sorted : explicit = found.explicit.insertionSort fun left right => left.1 ≤ right.1 := by
    rw [coverUser] at covered
    dsimp only at covered
    split at covered
    · cases covered
    · split at covered
      · cases covered
      · exact (Except.ok.inj covered).symm
  have written := writtenConstructors_eq constructors isNamed
  rw [← isExplicit, ← sorted, isPrepared] at written
  have unwritten : wildcardOf alternatives = found.wildcard.map Prepared.alternative := by
    rw [← isPrepared, wildcardOf, List.find?_map, isWildcard]
    rfl
  have readyExplicit : ∀ entry ∈ explicit, entry.2.Ready context infer locals alternatives := by
    intro entry member
    rw [sorted, List.mem_insertionSort, isExplicit, List.mem_filterMap] at member
    obtain ⟨other, isOther, isPlaced⟩ := member
    simp only [placed, Option.bind_eq_bind, Option.bind_eq_some_iff, Option.some.injEq] at isPlaced
    obtain ⟨_, _, _, _, rfl⟩ := isPlaced
    exact ready other isOther
  have branched : List.Forall₂ (fun entry (branch : ℕ × CoreTerm) => entry.1 = branch.1 ∧
      Infers infer outer around ⟨entry.2.alternative.expression, caseBinders entry.2.alternative.pattern⟩ branch.2)
      explicit branches := by
    refine ((List.forall₂_and_left explicit branches).mpr ⟨readyExplicit, mapM_forall₂ areBranches⟩).imp ?_
    rintro ⟨index, entry⟩ ⟨index', body⟩ ⟨isReady, inferred⟩
    obtain ⟨body, isBody, same⟩ := bind_ok_iff.mp inferred
    obtain ⟨rfl, rfl⟩ := Prod.mk.inj (Except.ok.inj same)
    exact ⟨rfl, _, represents_alternative represents entry.alternative.pattern, isReady.take isBody⟩
  have rest : List.Forall₂ (Infers infer outer around)
      ((wildcardOf alternatives).toList.map fun wildcard => ⟨wildcard.expression, []⟩) fallback.toList := by
    rw [unwritten]
    rw [inferFallback.eq_def] at isFallback
    cases isEntry : found.wildcard with
    | none =>
      rw [isEntry] at isFallback
      cases isFallback
      exact .nil
    | some entry =>
      rw [isEntry] at isFallback
      obtain ⟨body, isBody, same⟩ := bind_ok_iff.mp isFallback
      obtain rfl := Except.ok.inj same
      have here := isWildcard.symm.trans isEntry
      have shape : entry.alternative.pattern = .wildcard := by simpa using List.find?_some here
      have isReady := ready entry (List.mem_of_find?_eq_some here)
      have taken : infer entry.alternative.expression (pushLocals locals (binders entry.alternative.pattern)) = .ok body :=
        isReady.take (by rw [shape]; exact isBody)
      rw [shape] at taken
      exact .cons ⟨locals, represents, taken⟩ .nil
  have indices := zip_branches (branched.imp fun _ _ both => both.1) fallback
  refine ⟨branches.map Prod.snd ++ fallback.toList, ?_, ?_⟩
  · rw [alternativeParts, if_neg (by simp [isUser]), written, List.map_map]
    refine List.rel_append ?_ rest
    rw [List.forall₂_map_left_iff, List.forall₂_map_right_iff]
    exact branched.imp fun _ _ both => both.2
  · rw [buildCase, if_neg (by simp [isUser]), written, List.map_map, ← Except.ok.inj same]
    dsimp only
    have first : (Prod.fst ∘ fun (entry : ℕ × Prepared) => (entry.1, entry.2.alternative)) = Prod.fst := rfl
    rw [first, indices.1, indices.2]

private theorem forall₂_orderedInsert {α β : Type} {related : α → β → Prop} {r : α → α → Prop} {s : β → β → Prop}
    [DecidableRel r] [DecidableRel s] (agree : ∀ x y x' y', related x y → related x' y' → (r x x' ↔ s y y'))
    {x : α} {y : β} (here : related x y) {xs : List α} {ys : List β} (rest : List.Forall₂ related xs ys) :
    List.Forall₂ related (xs.orderedInsert r x) (ys.orderedInsert s y) := by
  induction rest with
  | nil => exact .cons here .nil
  | @cons x' y' xs ys first rest ih =>
    rw [List.orderedInsert_cons, List.orderedInsert_cons]
    by_cases before : r x x'
    · rw [if_pos before, if_pos ((agree _ _ _ _ here first).mp before)]
      exact .cons here (.cons first rest)
    · rw [if_neg before, if_neg fun before' => before ((agree _ _ _ _ here first).mpr before')]
      exact .cons first ih

private theorem forall₂_insertionSort {α β : Type} {related : α → β → Prop} {r : α → α → Prop} {s : β → β → Prop}
    [DecidableRel r] [DecidableRel s] (agree : ∀ x y x' y', related x y → related x' y' → (r x x' ↔ s y y'))
    {xs : List α} {ys : List β} (rest : List.Forall₂ related xs ys) :
    List.Forall₂ related (xs.insertionSort r) (ys.insertionSort s) := by
  induction rest with
  | nil => exact .nil
  | cons here _ ih => exact forall₂_orderedInsert agree here ih

/-- The term supplied for a field. -/
def Supplies (infer : ExprId → Locals → Elab CoreTerm) (outer : Locals) (around : List Binder) (field : RecordFieldExpr)
    (supplied : String × CoreTerm) : Prop :=
  supplied.1 = field.name ∧ Infers infer outer around ⟨field.value, []⟩ supplied.2

theorem supplied_fields {fields : List RecordFieldExpr} {values : List CoreTerm}
    (represents : Represents outer locals (present around))
    (inferred : inferElements infer (fields.map RecordFieldExpr.value) locals = .ok values) :
    List.Forall₂ (Supplies infer outer around) fields ((fields.map RecordFieldExpr.name).zip values) := by
  have each := mapM_forall₂ inferred
  rw [List.forall₂_map_left_iff] at each
  clear inferred
  induction each with
  | nil => exact .nil
  | cons here _ ih => exact .cons ⟨rfl, locals, represents, here⟩ ih

private theorem supplied_lookup {fields : List RecordFieldExpr} {supplied : Supplied}
    (supplies : List.Forall₂ (Supplies infer outer around) fields supplied) (name : String) :
    ((fields.find? fun field => field.name = name) = none ∧ supplied.lookup name = none) ∨ ∃ field term,
      (fields.find? fun field => field.name = name) = some field ∧ supplied.lookup name = some term ∧
        Infers infer outer around ⟨field.value, []⟩ term := by
  induction supplies with
  | nil => exact .inl ⟨rfl, rfl⟩
  | @cons field entry fields supplied here _ ih =>
    obtain ⟨entryName, term⟩ := entry
    obtain ⟨rfl, infers⟩ := here
    rw [List.find?_cons, List.lookup_cons]
    by_cases same : field.name = name
    · exact .inr ⟨field, term, by simp [same], by simp [same], infers⟩
    · have differs : (name == field.name) = false := by simpa using fun equal => same equal.symm
      simpa only [same, differs, decide_false] using ih

theorem supplied_parts {fields : List RecordFieldExpr} {supplied : Supplied}
    (supplies : List.Forall₂ (Supplies infer outer around) fields supplied) (declared : List UserField) :
    List.Forall₂ (Infers infer outer around)
      ((declared.filterMap fun declared => fields.find? fun field => field.name = declared.name).map
        fun field => ⟨field.value, []⟩)
      ((declared.map UserField.name).filterMap fun name => supplied.lookup name) := by
  induction declared with
  | nil => exact .nil
  | cons first declared ih =>
    rw [List.map_cons, List.filterMap_cons, List.filterMap_cons]
    rcases supplied_lookup supplies first.name with ⟨isNone, isNone'⟩ | ⟨field, term, isField, isTerm, infers⟩
    · rw [isNone, isNone']
      exact ih
    · rw [isField, isTerm]
      exact .cons infers ih

theorem inferRecordTree_parts {constructor : String} {fields : List RecordFieldExpr}
    (represents : Represents outer locals (present around))
    (inferred : inferRecordTree context infer constructor fields locals = .ok term) :
    ∃ terms, List.Forall₂ (Infers infer outer around)
        ((recordShape context constructor fields).2.map fun field => ⟨field.value, []⟩) terms ∧
      term = if (stripPrefix "Main." constructor).isSome then .record (recordShape context constructor fields).1 terms
        else .apply (.builtin "Maybe.Just") (.record (recordShape context constructor fields).1 terms) := by
  obtain ⟨values, areValues, inferred⟩ := bind_ok_iff.mp inferred
  have supplies := supplied_fields represents areValues
  generalize (fields.map RecordFieldExpr.name).zip values = supplied at inferred supplies
  rw [inferRecordConstruction] at inferred
  rw [recordShape]
  split at inferred
  next isGeneric =>
    rw [isGeneric]
    rw [inferGenericRecordConstruction] at inferred
    split at inferred
    · cases inferred
    · dsimp only at inferred
      split at inferred
      · cases inferred
      · obtain ⟨just, isJust, same⟩ := bind_ok_iff.mp inferred
        refine ⟨_, ?_, by rw [← Except.ok.inj same, instantiateBuiltin_ok isJust]; rfl⟩
        rw [List.forall₂_map_left_iff, List.forall₂_map_right_iff]
        refine (forall₂_insertionSort ?_ supplies).imp fun _ _ supplies => supplies.2
        rintro field entry field' entry' ⟨same, _⟩ ⟨same', _⟩
        rw [same, same']
  next name isMain =>
    rw [isMain]
    split at inferred
    next typeIndex owned =>
      split at inferred
      next declaredConstructor declaredFields isType =>
        simp only [owned, isType]
        rw [inferUserRecord] at inferred
        dsimp only at inferred
        split at inferred
        · cases inferred
        · split at inferred
          · cases inferred
          · split at inferred
            · cases inferred
            · exact ⟨_, supplied_parts supplies declaredFields, (Except.ok.inj inferred).symm⟩
      next => cases inferred
    next => cases inferred

/-- An expression that is no name has the term that is built of the terms inferred for its parts. -/
theorem inferStep_parts {id : ExprId} (notName : ∀ name, context.parsed.expression id ≠ .name name)
    (represents : Represents outer locals (present around)) (inferred : inferStep context expand infer id locals = .ok term) :
    ∃ terms, List.Forall₂ (Infers infer outer around) (parts context id) terms ∧ build context id terms = some term := by
  obtain ⟨intrinsic, isIntrinsic, inferred⟩ := bind_ok_iff.mp inferred
  rcases inferRecordIntrinsic_parts represents isIntrinsic with
    ⟨rfl, isNone⟩ | ⟨intrinsic, field, label, term', terms, isSome, shape, rfl, built, areTerms⟩
  · simp only [parts, build.eq_def, isNone]
    have binds : ∀ pattern ∈ (context.parsed.expression id).patterns, pattern.Binds := fun _ => ParsedFile.binds_of_pattern
    cases shape : context.parsed.expression id with
    | name name => exact absurd shape (notName name)
    | literal value =>
      rw [shape] at inferred
      obtain rfl := Except.ok.inj inferred
      exact ⟨[], .nil, rfl⟩
    | apply function argument =>
      rw [shape] at inferred
      obtain ⟨function', isFunction, inferred⟩ := bind_ok_iff.mp inferred
      obtain ⟨argument', isArgument, same⟩ := bind_ok_iff.mp inferred
      obtain rfl := Except.ok.inj same
      exact ⟨[function', argument'], .cons ⟨locals, represents, isFunction⟩ (.cons ⟨locals, represents, isArgument⟩ .nil),
        rfl⟩
    | typeApply expression _ | annotated expression _ =>
      rw [shape] at inferred
      exact ⟨[term], .cons ⟨locals, represents, inferred⟩ .nil, rfl⟩
    | lambda parameters body =>
      rw [shape] at inferred binds
      obtain ⟨body', isBody, same⟩ := bind_ok_iff.mp inferred
      obtain rfl := Except.ok.inj same
      have bound := represents.bindPatterns binds
      have frames := present_bound (parameters.map patternFrame).reverse
      rw [List.map_reverse, List.map_map] at frames
      refine ⟨[body'], .cons ⟨_, ?_, isBody⟩ .nil, rfl⟩
      rw [present_append]
      exact frames ▸ bound
    | ifThenElse condition thenBranch elseBranch =>
      rw [shape] at inferred
      obtain ⟨elseBranch', isElse, inferred⟩ := bind_ok_iff.mp inferred
      obtain ⟨thenBranch', isThen, inferred⟩ := bind_ok_iff.mp inferred
      obtain ⟨condition', isCondition, inferred⟩ := bind_ok_iff.mp inferred
      obtain ⟨eliminator, isEliminator, same⟩ := bind_ok_iff.mp inferred
      obtain rfl := Except.ok.inj same
      rw [instantiateBuiltin_ok isEliminator]
      exact ⟨[elseBranch', thenBranch', condition'], .cons ⟨locals, represents, isElse⟩
        (.cons ⟨locals, represents, isThen⟩ (.cons ⟨locals, represents, isCondition⟩ .nil)), rfl⟩
    | doBlock statements =>
      rw [shape] at inferred binds
      have bindsEach : ∀ statement ∈ statements, ∀ pattern ∈ statement.pattern?, pattern.Binds := fun statement member pattern
          isPattern => binds pattern (List.mem_filterMap.mpr ⟨statement, member, isPattern⟩)
      exact inferDo_parts bindsEach represents inferred
    | case scrutinee alternatives =>
      rw [shape] at inferred
      obtain ⟨scrutinee', isScrutinee, inferred⟩ := bind_ok_iff.mp inferred
      obtain ⟨prepared, isPrepared, inferred⟩ := bind_ok_iff.mp inferred
      have ready := prepare_ready isPrepared
      have same := prepare_alternatives isPrepared
      have bodies : ∃ bodies, List.Forall₂ (Infers infer outer around) (alternativeParts context alternatives) bodies ∧
          buildCase context alternatives scrutinee' bodies = some term := by
        split at inferred
        next isPrimitive => exact inferPrimitiveCase_parts represents ready same isPrimitive inferred
        next isUser => exact inferUserCase_parts represents ready same (Bool.eq_false_iff.mpr isUser) inferred
      obtain ⟨bodies, areBodies, built⟩ := bodies
      exact ⟨scrutinee' :: bodies, .cons ⟨locals, represents, isScrutinee⟩ areBodies, built⟩
    | tuple elements | list elements =>
      rw [shape] at inferred
      obtain ⟨elements', areElements, same⟩ := bind_ok_iff.mp inferred
      obtain rfl := Except.ok.inj same
      exact ⟨elements', inferElements_parts represents areElements, rfl⟩
    | recordConstruction constructor fields =>
      rw [shape] at inferred
      obtain ⟨terms, areTerms, rfl⟩ := inferRecordTree_parts represents inferred
      refine ⟨terms, areTerms, ?_⟩
      dsimp only
  · simp only [parts, build.eq_def, isSome, shape]
    obtain rfl := Except.ok.inj inferred
    exact ⟨terms, areTerms, built⟩

end Inverted

section Hygiene

variable {context : InferContext} {id : ExprId} {term : CoreTerm}

theorem lexical_global_iff {scope : List Frame} {name : String} {index : ℕ} {value : ExprId}
    (shape : context.parsed.expression id = .name name) (isGlobal : mainGlobal context.globals name = some index)
    (isValue : globalValue context.parsed index = some value) :
    Lexical context scope id term ↔ Lexical context [] value term := by
  constructor
  · intro lexical
    cases lexical with
    | bound shape' isLocal =>
      obtain rfl := Expr.name.inj (shape.symm.trans shape')
      simp [mainGlobal, isLocal.1] at isGlobal
    | global shape' isGlobal' isValue' body =>
      obtain rfl := Expr.name.inj (shape.symm.trans shape')
      obtain rfl := Option.some.inj (isGlobal.symm.trans isGlobal')
      obtain rfl := Option.some.inj (isValue.symm.trans isValue')
      exact body
    | constructor shape' isMain notGlobal =>
      obtain rfl := Expr.name.inj (shape.symm.trans shape')
      simp [mainGlobal, isMain, notGlobal] at isGlobal
    | primitive shape' notMain =>
      obtain rfl := Expr.name.inj (shape.symm.trans shape')
      simp [mainGlobal, notMain] at isGlobal
    | parts notName => exact absurd shape (notName name)
  · exact .global shape isGlobal isValue

/-- What is left to show of globals to compare inference with lexical scoping. -/
def Agrees (context : InferContext) (expand : ℕ → Locals → Elab CoreTerm) : Prop :=
  ∀ index locals term, expand index locals = .ok term → ∃ value, globalValue context.parsed index = some value ∧
    (Lexical context [] value term ↔ Hygienic context value [])

theorem inferName_lexical {expand : ℕ → Locals → Elab CoreTerm} (agrees : Agrees context expand) {name : String}
    {outer locals : Locals} {around : List Binder} (shape : context.parsed.expression id = .name name)
    (represents : Represents outer locals (present around)) (inScope : InScope context id around)
    (inferred : inferName context expand name locals = .ok term) :
    Lexical context (around.map Binder.frame) id term ↔ Hygienic context id around := by
  rw [inferName] at inferred
  split at inferred
  next global isMain =>
    have notLocal : ¬IsLocal name := fun isLocal => by simp [isLocal.1] at isMain
    split at inferred
    next index isGlobal =>
      have isGlobal : mainGlobal context.globals name = some index := by simp [mainGlobal, isMain, isGlobal]
      obtain ⟨value, isValue, same⟩ := agrees index locals term inferred
      rw [lexical_global_iff shape isGlobal isValue, hygienic_global_iff shape isGlobal isValue]
      exact same
    next notGlobal =>
      split at inferred
      next owner owned =>
        have noGlobal : mainGlobal context.globals name = none := by simp [mainGlobal, isMain, notGlobal]
        exact iff_of_true (.constructor shape isMain notGlobal owned inferred) (hygienic_constant shape notLocal noGlobal)
      next => cases inferred
  next notMain =>
    split at inferred
    next isPrimitive =>
      have notLocal : ¬IsLocal name := fun isLocal => by simp [isLocal.2] at isPrimitive
      have noGlobal : mainGlobal context.globals name = none := by simp [mainGlobal, notMain]
      rw [instantiateBuiltin_ok inferred]
      exact iff_of_true (.primitive shape notMain isPrimitive) (hygienic_constant shape notLocal noGlobal)
    next notPrimitive =>
      have isLocal : IsLocal name := ⟨notMain, Bool.eq_false_iff.mpr notPrimitive⟩
      have named : (context.parsed.expression id).Named := ParsedFile.expression_named id
      rw [shape] at named
      obtain ⟨index, index', projection, isIndex, isIndex', _, same⟩ := resolve_around (inScope.name shape isLocal)
      obtain ⟨found, isFound, rfl, slot⟩ := represents.find named isIndex
      rw [isFound] at inferred
      obtain rfl := Except.ok.inj inferred
      have counted : localSlotCount locals - found.slot - 1 = index := by omega
      rw [counted, hygienic_local_iff shape isLocal, ← same]
      constructor
      · intro lexical
        cases lexical with
        | bound shape' _ resolved =>
          obtain rfl := Expr.name.inj (shape.symm.trans shape')
          rw [isIndex'] at resolved
          exact (Prod.mk.inj (Option.some.inj resolved)).1.symm
        | global shape' isGlobal =>
          obtain rfl := Expr.name.inj (shape.symm.trans shape')
          simp [mainGlobal, isLocal.1] at isGlobal
        | constructor shape' isMain =>
          obtain rfl := Expr.name.inj (shape.symm.trans shape')
          simp [isLocal.1] at isMain
        | parts notName => exact absurd shape (notName name)
      · rintro rfl
        exact .bound shape isLocal isIndex'

/-- Inference gives an expression its lexical term exactly where no local is behind a missing binder. -/
theorem inferExpr_lexical {expand : ℕ → Locals → Elab CoreTerm} (agrees : Agrees context expand) {fuel : ℕ}
    {outer locals : Locals} {around : List Binder} (represents : Represents outer locals (present around))
    (inScope : InScope context id around) (inferred : inferExpr context expand fuel id locals = .ok term) :
    Lexical context (around.map Binder.frame) id term ↔ Hygienic context id around := by
  induction fuel generalizing id locals around term with
  | zero => cases inferred
  | succ fuel ih =>
    by_cases isName : ∃ name, context.parsed.expression id = .name name
    · obtain ⟨name, shape⟩ := isName
      rw [inferExpr, inferStep, inferRecordIntrinsic, recordIntrinsic_name shape, shape] at inferred
      exact inferName_lexical agrees shape represents inScope inferred
    · have notName : ∀ name, context.parsed.expression id ≠ .name name := fun name shape => isName ⟨name, shape⟩
      obtain ⟨terms, areTerms, built⟩ := inferStep_parts notName represents inferred
      rw [lexical_parts_iff notName, hygienic_parts_iff notName]
      -- The term determines the terms of the parts, so that each of these has to be the lexical one.
      have each : List.Forall₂ (fun (part : SubExpr) term =>
          (Lexical context (part.binders.map Binder.frame ++ around.map Binder.frame) part.id term ↔
            Hygienic context part.id (part.binders ++ around))) (parts context id) terms := by
        have inParts := (List.forall₂_and_left (p := fun part => part ∈ parts context id) _ terms).mpr ⟨fun _ member => member, areTerms⟩
        refine inParts.imp ?_
        rintro part term ⟨isPart, locals', represents', inferred'⟩
        rw [← List.map_append]
        exact ih represents' (inScope.part isPart) inferred'
      constructor
      · rintro ⟨terms', lexical, built'⟩ part isPart
        obtain rfl := build_injective context each.length_eq.symm lexical.length_eq.symm built built'
        obtain ⟨position, inside, rfl⟩ := List.mem_iff_getElem.mp isPart
        obtain ⟨length, each⟩ := List.forall₂_iff_get.mp each
        exact (each position inside (length ▸ inside)).mp ((List.forall₂_iff_get.mp lexical).2 position inside (length ▸ inside))
      · intro hygienic
        refine ⟨terms, ?_, built⟩
        have both := (List.forall₂_and_left _ terms).mpr ⟨hygienic, each⟩
        refine both.imp ?_
        rintro part term ⟨isHygienic, same⟩
        exact same.mpr isHygienic

theorem expandGlobal_agrees
    (accepted : validateAllNames context.parsed context.globals context.userTypes = .ok ()) (depth : ℕ) :
    Agrees context (expandGlobal context depth) := by
  induction depth with
  | zero => exact fun _ _ _ expanded => nomatch expanded
  | succ depth ih =>
    intro index locals term expanded
    rw [expandGlobal] at expanded
    split at expanded
    next => cases expanded
    next value isValue =>
      refine ⟨value, isValue, ?_⟩
      split at expanded
      next target isAlias =>
        rw [aliasOf] at isAlias
        split at isAlias
        next name shape =>
          obtain ⟨value', isValue', same⟩ := ih target locals term expanded
          rw [lexical_global_iff shape isAlias isValue', hygienic_global_iff shape isAlias isValue']
          exact same
        next => cases isAlias
      next =>
        have inScope : InScope context value [] :=
          ⟨[], validated_global accepted isValue, fun _ _ member => by cases member⟩
        exact inferExpr_lexical ih (.nil : Represents locals locals (present [])) inScope expanded

/-- A global that is inlined under any locals has its lexical term exactly where no local below its body refers
out of a wildcard alternative whose payloads are missing. -/
theorem expandGlobal_lexical (accepted : validateAllNames context.parsed context.globals context.userTypes = .ok ())
    {depth index : ℕ} {value : ExprId} {locals : Locals} (isValue : globalValue context.parsed index = some value)
    (expanded : expandGlobal context depth index locals = .ok term) :
    Lexical context [] value term ↔ Hygienic context value [] := by
  obtain ⟨value', isValue', same⟩ := expandGlobal_agrees accepted depth index locals term expanded
  obtain rfl := Option.some.inj (isValue.symm.trans isValue')
  exact same

/-- `main = IO.print ((\x -> case Maybe.Just 5 of { Maybe.Nothing -> 0; _ -> x }) 7)`. -/
def capturedFile : ParsedFile where
  declarations := [.value ⟨"main", none, 10⟩]
  expressions := [.name "Maybe.Just", .literal (.integer "5"), .apply 0 1, .literal (.integer "0"), .name "x",
    .case 2 [⟨.primitiveConstructor "Maybe.Nothing" [], 3⟩, ⟨.wildcard, 4⟩], .lambda [.name "x"] 5,
    .literal (.integer "7"), .apply 6 7, .name "IO.print", .apply 9 8]
  types := []
  values := by decide
  older := by decide
  olderType := by decide
  binds := by decide
  named := by decide

def capturedContext : InferContext := ⟨capturedFile, [("main", 0)], ⟨[], [], []⟩⟩

/-- The wildcard is the handler of `Maybe.Just`, and its local is the payload there. -/
def capturedTerm : CoreTerm :=
  .apply (.builtin "IO.print") (.apply (.lambda (.apply (.apply (.apply (.builtin "Maybe.maybe")
    (.constant (.integer "0"))) (.lambda (.boundVar 0 .identity)))
      (.apply (.builtin "Maybe.Just") (.constant (.integer "5"))))) (.constant (.integer "7")))

private theorem captured_expanded : expandGlobal capturedContext 1 0 [] = .ok capturedTerm := by rfl

private theorem captured_accepted :
    validateAllNames capturedContext.parsed capturedContext.globals capturedContext.userTypes = .ok () := by rfl

private theorem captured_unhygienic : ¬Hygienic capturedContext 10 [] := by
  intro hygienic
  have enters {id : ExprId} {around : List Binder} (part : SubExpr) (isPart : part ∈ parts capturedContext id) :
      Enters capturedContext (id, around) (part.id, part.binders ++ around) := .part isPart
  have applied : Enters capturedContext (10, []) (8, []) := enters ⟨8, []⟩ (by decide)
  have function : Enters capturedContext (8, []) (6, []) := enters ⟨6, []⟩ (by decide)
  have body : Enters capturedContext (6, []) (5, [.bound [("x", .identity)]]) :=
    enters ⟨5, [.bound [("x", .identity)]]⟩ (by decide)
  have handler : Enters capturedContext (5, [.bound [("x", .identity)]]) (4, [.missing, .bound [("x", .identity)]]) :=
    enters ⟨4, [.missing]⟩ (by decide)
  have reached := hygienic 4 _ "x" (.head applied (.head function (.head body (.single handler)))) rfl ⟨rfl, rfl⟩
  exact reached

theorem expandGlobal_lexical_capturedFile :
    Lexical capturedContext [] 10 capturedTerm ↔ Hygienic capturedContext 10 [] :=
  expandGlobal_lexical captured_accepted rfl captured_expanded

/-- The payload captures the local of the caller. -/
theorem capturedTerm_not_lexical : rejectCycles 40 capturedFile [("main", 0)] = some (.ok ()) ∧
    validateAllNames capturedFile [("main", 0)] ⟨[], [], []⟩ = .ok () ∧
      expandGlobal capturedContext 1 0 [] = .ok capturedTerm ∧ ¬Lexical capturedContext [] 10 capturedTerm := by
  refine ⟨by decide, captured_accepted, captured_expanded, fun lexical => captured_unhygienic ?_⟩
  obtain ⟨value, isValue, same⟩ := expandGlobal_agrees captured_accepted 1 0 [] capturedTerm captured_expanded
  obtain rfl : 10 = value := Option.some.inj isValue
  exact same.mp lexical

end Hygiene

end HellRs.Compiler
