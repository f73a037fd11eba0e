import HellRs.Compiler.Elaborate

/-! # Expansion of globals ends

Inference of a body expands only the globals to which the body refers, and what it infers are parts of
the body. With the graph of references free of cycles, the expansion stack holds no global twice.
-/

namespace HellRs.Compiler

open Syntax Clearing

section Results

variable {α β : Type} {guard : Prop} {result result' : Elab α}

/-- A result that is not the end of the fuel. -/
def Ends (result : Elab α) : Prop := result ≠ .error .outOfFuel

/-- Equal results; where `guard` holds they end. -/
structure Tracks (guard : Prop) (result result' : Elab α) : Prop where
  same : result = result'
  ends : guard → Ends result

theorem ends_ok (value : α) : Ends (.ok value) := nofun

theorem ends_fail (code message : String) : Ends (fail code message : Elab α) := by
  simp [Ends, fail]

theorem Ends.bind {next : α → Elab β} (first : Ends result) (rest : ∀ value, Ends (next value)) :
    Ends (result >>= next) := by
  cases result with
  | error failure =>
    intro ended
    cases ended
    exact first rfl
  | ok value => exact rest value

theorem Ends.foldlM {next : β → α → Elab β} (each : ∀ state item, Ends (next state item)) (items : List α) (state : β) :
    Ends (items.foldlM next state) := by
  induction items generalizing state with
  | nil => exact ends_ok state
  | cons item items ih => exact (each state item).bind ih

theorem Ends.tracks (ends : Ends result) : Tracks guard result result := ⟨rfl, fun _ => ends⟩

theorem tracks_ok (value : α) : Tracks guard (.ok value) (.ok value) := (ends_ok value).tracks

theorem tracks_fail (code message : String) : Tracks guard (fail code message : Elab α) (fail code message) :=
  (ends_fail code message).tracks

theorem Tracks.bind_ok {next next' : α → Elab β} (first : Tracks guard result result')
    (rest : ∀ value, result = .ok value → Tracks guard (next value) (next' value)) :
    Tracks guard (result >>= next) (result' >>= next') := by
  obtain ⟨rfl, ends⟩ := first
  cases result with
  | error failure =>
    refine ⟨rfl, fun holds ended => ?_⟩
    cases ended
    exact ends holds rfl
  | ok value => exact rest value rfl

theorem Tracks.bind {next next' : α → Elab β} (first : Tracks guard result result')
    (rest : ∀ value, Tracks guard (next value) (next' value)) :
    Tracks guard (result >>= next) (result' >>= next') :=
  first.bind_ok fun value _ => rest value

theorem Tracks.mapM {each each' : α → Elab β} {items : List α}
    (tracks : ∀ item ∈ items, Tracks guard (each item) (each' item)) :
    Tracks guard (items.mapM each) (items.mapM each') := by
  induction items with
  | nil => exact tracks_ok []
  | cons item items ih =>
    rw [List.mapM_cons, List.mapM_cons]
    refine (tracks item (List.mem_cons_self ..)).bind fun first => ?_
    exact (ih fun other member => tracks other (List.mem_cons_of_mem _ member)).bind fun rest => tracks_ok _

end Results

section Ended

theorem instantiateBuiltin_ends (name : String) : Ends (instantiateBuiltin name) := by
  rw [instantiateBuiltin]
  split
  · exact ends_fail _ _
  · exact ends_ok _

theorem inferUserConstructor_ends (userTypes : UserTypes) (owner : ConstructorOwner) :
    Ends (inferUserConstructor userTypes owner) := by
  cases owner with
  | record => exact ends_fail _ _
  | variant typeIndex constructorIndex =>
    rw [inferUserConstructor]
    split
    · split <;> exact ends_ok _
    · exact ends_fail _ _

theorem inferRecordConstruction_ends (context : InferContext) (constructor : String) (supplied : Supplied) :
    Ends (inferRecordConstruction context constructor supplied) := by
  rw [inferRecordConstruction]
  split
  · rw [inferGenericRecordConstruction]
    split
    · exact ends_fail _ _
    · dsimp only
      split
      · exact ends_fail _ _
      · exact (instantiateBuiltin_ends _).bind fun _ => ends_ok _
  · split
    · split
      · rw [inferUserRecord]
        dsimp only
        split
        · exact ends_fail _ _
        · split
          · exact ends_fail _ _
          · split
            · exact ends_fail _ _
            · exact ends_ok _
      · exact ends_fail _ _
    · exact ends_fail _ _

theorem insertWildcard_ends (wildcard : Option Prepared) (prepared : Prepared) :
    Ends (insertWildcard wildcard prepared) := by
  cases wildcard with
  | none => exact ends_ok _
  | some _ => exact ends_fail _ _

theorem selectType_ends (context : InferContext) (selected : Option ℕ) (prepared : Prepared) :
    Ends (selectType context selected prepared) := by
  rw [selectType]
  split
  · split
    · split
      · exact ends_ok _
      · exact ends_fail _ _
    · exact ends_fail _ _
  · exact ends_ok _

theorem selectedDefinition_ends (context : InferContext) (prepared : List Prepared) (selected : Option ℕ) :
    Ends (selectedDefinition context prepared selected) := by
  rw [selectedDefinition.eq_def]
  split
  · split
    · exact ends_fail _ _
    · exact ends_ok _
  · split
    · exact ends_ok _
    · exact ends_fail _ _

theorem insertUserAlternative_ends (definition : UserType) (constructors : List UserConstructor)
    (found : UserAlternatives) (prepared : Prepared) :
    Ends (insertUserAlternative definition constructors found prepared) := by
  rw [insertUserAlternative]
  split
  · split
    · exact ends_fail _ _
    · split
      · exact ends_fail _ _
      · split
        · exact ends_fail _ _
        · exact ends_ok _
  · exact (insertWildcard_ends _ _).bind fun _ => ends_ok _
  · exact ends_fail _ _

theorem coverUser_ends (definition : UserType) (constructors : List UserConstructor) (found : UserAlternatives) :
    Ends (coverUser definition constructors found) := by
  rw [coverUser]
  dsimp only
  split
  · exact ends_fail _ _
  · split
    · exact ends_fail _ _
    · exact ends_ok _

theorem insertPrimitiveAlternative_ends (found : PrimitiveAlternatives) (prepared : Prepared) :
    Ends (insertPrimitiveAlternative found prepared) := by
  rw [insertPrimitiveAlternative]
  split
  · split
    · exact ends_fail _ _
    · split
      · exact ends_fail _ _
      · split
        · exact ends_fail _ _
        · split
          · exact ends_fail _ _
          · exact ends_ok _
  · exact (insertWildcard_ends _ _).bind fun _ => ends_ok _
  · exact ends_fail _ _

end Ended

section Parts

/-- The second expression is a proper part of the first. -/
def Inside (parsed : ParsedFile) : ExprId → ExprId → Prop :=
  Relation.TransGen fun id child => child ∈ (parsed.expression id).children

variable {parsed : ParsedFile} {id part : ExprId}

theorem Inside.lt (inside : Inside parsed id part) : part < id := by
  induction inside with
  | single isChild => exact ParsedFile.child_lt isChild
  | tail _ isChild ih => exact (ParsedFile.child_lt isChild).trans ih

/-- The parts that an intrinsic has inferred. -/
def RecordIntrinsic.operands : RecordIntrinsic → List ExprId
  | get record => [record]
  | set value record => [value, record]
  | modify function record => [function, record]

/-- The parts of an application, with type arguments or not. -/
def Expr.applied : Expr → List ExprId
  | .apply function argument => [function, argument]
  | .typeApply function _ => [function]
  | _ => []

/-- The second expression is reached from the first through applications alone. -/
def Applies (parsed : ParsedFile) : ExprId → ExprId → Prop :=
  Relation.TransGen fun id child => child ∈ Expr.applied (parsed.expression id)

theorem Applies.inside (applies : Applies parsed id part) : Inside parsed id part := by
  refine Relation.TransGen.mono (fun id child isApplied => ?_) _ _ applies
  generalize parsed.expression id = expression at isApplied
  cases expression <;> simp_all [Expr.applied, Expr.children]

theorem spine_applies (fuel : ℕ) (arguments : List ExprId) (typeArguments : List TypeExprId) :
    ∀ argument ∈ (spine parsed fuel id arguments typeArguments).2.1, argument ∈ arguments ∨ Applies parsed id argument := by
  induction fuel generalizing id arguments typeArguments with
  | zero => exact fun argument member => .inl member
  | succ fuel ih =>
    intro argument member
    rw [spine] at member
    split at member
    next function argument' shape =>
      have isApplied {child : ExprId} (isPart : child = function ∨ child = argument') :
          child ∈ Expr.applied (parsed.expression id) := by
        rw [shape]
        simpa [Expr.applied] using isPart
      rcases ih _ _ argument member with isArgument | applies
      · rcases List.mem_cons.mp isArgument with rfl | old
        · exact .inr (.single (isApplied (.inr rfl)))
        · exact .inl old
      · exact .inr (.head (isApplied (.inl rfl)) applies)
    next function _ shape =>
      have isApplied : function ∈ Expr.applied (parsed.expression id) := by
        rw [shape]
        exact List.mem_singleton_self _
      exact (ih _ _ argument member).imp_right fun applies => .head isApplied applies
    next => exact .inl member

theorem dollarApplication_applies {left argument : ExprId}
    (dollar : dollarApplication parsed id = some (left, argument)) : Applies parsed id left ∧ Applies parsed id argument := by
  rw [dollarApplication] at dollar
  split at dollar
  next applied argument' shape =>
    split at dollar
    next operator left' shape' =>
      split at dollar
      · obtain ⟨rfl, rfl⟩ := Prod.mk.inj (Option.some.inj dollar)
        have isApplied : applied ∈ Expr.applied (parsed.expression id) := by simp [shape, Expr.applied]
        have isArgument : argument' ∈ Expr.applied (parsed.expression id) := by simp [shape, Expr.applied]
        have isLeft : left' ∈ Expr.applied (parsed.expression applied) := by simp [shape', Expr.applied]
        exact ⟨.head isApplied (.single isLeft), .single isArgument⟩
      · cases dollar
    next => cases dollar
  next => cases dollar

theorem intrinsicSpine_applies : ∀ argument ∈ (intrinsicSpine parsed id).2.1, Applies parsed id argument := by
  intro argument member
  rw [intrinsicSpine] at member
  split at member
  next left dollarArgument dollar =>
    obtain ⟨isLeft, isArgument⟩ := dollarApplication_applies dollar
    rcases spine_applies (left + 1) [dollarArgument] [] argument member with here | applies
    · obtain rfl := List.mem_singleton.mp here
      exact isArgument
    · exact isLeft.trans applies
  next =>
    rcases spine_applies (id + 1) [] [] argument member with here | applies
    · cases here
    · exact applies

theorem recordIntrinsic_applies {intrinsic : RecordIntrinsic} {field : TypeExprId}
    (found : recordIntrinsic parsed id = some (intrinsic, field)) :
    ∀ operand ∈ intrinsic.operands, Applies parsed id operand := by
  have applies : ∀ argument ∈ (intrinsicSpine parsed id).2.1, Applies parsed id argument := intrinsicSpine_applies
  rw [recordIntrinsic] at found
  generalize intrinsicSpine parsed id = found' at found applies
  obtain ⟨head, arguments, typeArguments⟩ := found'
  simp only at found applies
  split at found <;> cases found <;> simpa [RecordIntrinsic.operands] using applies

theorem recordIntrinsic_inside {intrinsic : RecordIntrinsic} {field : TypeExprId}
    (found : recordIntrinsic parsed id = some (intrinsic, field)) :
    ∀ operand ∈ intrinsic.operands, Inside parsed id operand := fun operand member =>
  (recordIntrinsic_applies found operand member).inside

end Parts

section Alternatives

theorem bind_ok_iff {α β : Type} {result : Elab α} {next : α → Elab β} {value : β} :
    result >>= next = .ok value ↔ ∃ middle, result = .ok middle ∧ next middle = .ok value := by
  cases result with
  | error failure =>
    constructor
    · exact nofun
    · rintro ⟨_, isOk, _⟩
      cases isOk
  | ok middle =>
    constructor
    · exact fun isOk => ⟨middle, rfl, isOk⟩
    · rintro ⟨_, isOk, isValue⟩
      cases isOk
      exact isValue

theorem mapM_ok_cons {α β : Type} {each : α → Elab β} {item : α} {items : List α} {results : List β} :
    (item :: items).mapM each = .ok results ↔
      ∃ first rest, each item = .ok first ∧ items.mapM each = .ok rest ∧ results = first :: rest := by
  rw [List.mapM_cons]
  constructor
  · intro mapped
    obtain ⟨first, isFirst, mapped⟩ := bind_ok_iff.mp mapped
    obtain ⟨rest, isRest, same⟩ := bind_ok_iff.mp mapped
    exact ⟨first, rest, isFirst, isRest, (Except.ok.inj same).symm⟩
  · rintro ⟨first, rest, isFirst, isRest, rfl⟩
    exact bind_ok_iff.mpr ⟨first, isFirst, bind_ok_iff.mpr ⟨rest, isRest, rfl⟩⟩

theorem foldlM_ok_cons {α β : Type} {next : β → α → Elab β} {item : α} {items : List α} {state last : β} :
    (item :: items).foldlM next state = .ok last ↔
      ∃ middle, next state item = .ok middle ∧ items.foldlM next middle = .ok last := by
  rw [List.foldlM_cons, bind_ok_iff]

variable {context : InferContext} {infer : ExprId → Locals → Elab CoreTerm} {locals : Locals}

/-- Each alternative is prepared, in the written order. -/
theorem prepare_alternatives {written alternatives : List CaseAlternative} {prepared : List Prepared}
    (isPrepared : (alternatives.mapM fun alternative => do
      let queue ← inferAhead context infer alternative.expression (pushLocals locals (binders alternative.pattern))
        (repeats written alternative)
      pure (⟨alternative, queue⟩ : Prepared)) = .ok prepared) : prepared.map Prepared.alternative = alternatives := by
  induction alternatives generalizing prepared with
  | nil =>
    cases isPrepared
    rfl
  | cons alternative alternatives ih =>
    obtain ⟨first, rest, isFirst, isRest, rfl⟩ := mapM_ok_cons.mp isPrepared
    obtain ⟨queue, _, same⟩ := bind_ok_iff.mp isFirst
    rw [← Except.ok.inj same, List.map_cons, ih isRest]

theorem insertWildcard_ok {wildcard inserted : Option Prepared} {prepared : Prepared}
    (isInserted : insertWildcard wildcard prepared = .ok inserted) : wildcard = none ∧ inserted = some prepared := by
  cases wildcard with
  | none => exact ⟨rfl, (Except.ok.inj isInserted).symm⟩
  | some _ => cases isInserted

/-- The alternatives of a user case are its written constructors and its wildcard. -/
structure UserAlternatives.Of (found : UserAlternatives) (prepared : List Prepared) : Prop where
  perm : (found.explicit.map Prod.snd ++ found.wildcard.toList).Perm prepared
  explicit : ∀ entry ∈ found.explicit, (userName entry.2.alternative.pattern).isSome
  wildcard : ∀ entry ∈ found.wildcard, entry.alternative.pattern = .wildcard

theorem UserAlternatives.Of.insert {found found' : UserAlternatives} {before : List Prepared} {prepared : Prepared}
    {definition : UserType} {constructors : List UserConstructor} (of : found.Of before)
    (inserted : insertUserAlternative definition constructors found prepared = .ok found') :
    found'.Of (before ++ [prepared]) := by
  rw [insertUserAlternative] at inserted
  split at inserted
  next name binder shape =>
    split at inserted
    · cases inserted
    · split at inserted
      · cases inserted
      · split at inserted
        · cases inserted
        · cases inserted
          refine ⟨?_, fun entry member => ?_, of.wildcard⟩
          · rw [List.map_append, List.append_assoc]
            refine (List.Perm.append_left _ List.perm_append_comm).trans ?_
            rw [← List.append_assoc]
            exact of.perm.append_right _
          · rcases List.mem_append.mp member with old | new
            · exact of.explicit entry old
            · obtain rfl := List.mem_singleton.mp new
              simp [shape, userName]
  next shape =>
    obtain ⟨wildcard, isWildcard, same⟩ := bind_ok_iff.mp inserted
    cases same
    obtain ⟨isNone, rfl⟩ := insertWildcard_ok isWildcard
    refine ⟨?_, of.explicit, fun entry member => ?_⟩
    · have perm := of.perm
      rw [isNone, Option.toList_none, List.append_nil] at perm
      exact perm.append_right _
    · obtain rfl := Option.some.inj member
      exact shape
  next => cases inserted

theorem userAlternatives_of {definition : UserType} {constructors : List UserConstructor} {prepared before : List Prepared}
    {found found' : UserAlternatives} (of : found.Of before)
    (inserted : prepared.foldlM (insertUserAlternative definition constructors) found = .ok found') :
    found'.Of (before ++ prepared) := by
  induction prepared generalizing found before with
  | nil =>
    cases inserted
    rwa [List.append_nil]
  | cons entry prepared ih =>
    obtain ⟨middle, first, rest⟩ := foldlM_ok_cons.mp inserted
    have later := ih (of.insert first) rest
    rwa [List.append_assoc, List.singleton_append] at later

theorem coverUser_perm {definition : UserType} {constructors : List UserConstructor} {found : UserAlternatives}
    {explicit : List (ℕ × Prepared)} (covered : coverUser definition constructors found = .ok explicit) :
    explicit.Perm found.explicit := by
  rw [coverUser] at covered
  dsimp only at covered
  split at covered
  · cases covered
  · split at covered
    · cases covered
    · cases covered
      exact List.perm_insertionSort _ _

theorem insertPrimitiveAlternative_wildcard {found found' : PrimitiveAlternatives} {prepared : Prepared}
    (inserted : insertPrimitiveAlternative found prepared = .ok found') :
    found'.wildcard = found.wildcard ∨ found'.wildcard = some prepared ∧ prepared.alternative.pattern = .wildcard := by
  rw [insertPrimitiveAlternative] at inserted
  split at inserted
  · split at inserted
    · cases inserted
    · split at inserted
      · cases inserted
      · split at inserted
        · cases inserted
        · split at inserted
          · cases inserted
          · cases inserted
            exact .inl rfl
  next shape =>
    obtain ⟨wildcard, isWildcard, same⟩ := bind_ok_iff.mp inserted
    cases same
    exact .inr ⟨(insertWildcard_ok isWildcard).2, shape⟩
  next => cases inserted

/-- The wildcard of a primitive case is one of its alternatives. -/
theorem primitiveAlternatives_wildcard {prepared : List Prepared} {found found' : PrimitiveAlternatives}
    (inserted : prepared.foldlM insertPrimitiveAlternative found = .ok found') :
    ∀ entry ∈ found'.wildcard, entry ∈ found.wildcard ∨ entry ∈ prepared ∧ entry.alternative.pattern = .wildcard := by
  induction prepared generalizing found with
  | nil =>
    cases inserted
    exact fun entry member => .inl member
  | cons first prepared ih =>
    obtain ⟨middle, isMiddle, rest⟩ := foldlM_ok_cons.mp inserted
    intro entry member
    rcases ih rest entry member with old | ⟨new, shape⟩
    · rcases insertPrimitiveAlternative_wildcard isMiddle with same | ⟨same, shape⟩
      · exact .inl (same ▸ old)
      · rw [same] at old
        obtain rfl := Option.some.inj old
        exact .inr ⟨List.mem_cons_self .., shape⟩
    · exact .inr ⟨List.mem_cons_of_mem _ new, shape⟩

end Alternatives

section Inference

variable {guard : Prop} {context : InferContext} {expand expand' : ℕ → Locals → Elab CoreTerm}
  {infer infer' : ExprId → Locals → Elab CoreTerm}

/-- The two ways of inference agree on some expressions. -/
def Alike (guard : Prop) (infer infer' : ExprId → Locals → Elab CoreTerm) (ids : List ExprId) : Prop :=
  ∀ id ∈ ids, ∀ locals, Tracks guard (infer id locals) (infer' id locals)

theorem Alike.mono {ids ids' : List ExprId} (alike : Alike guard infer infer' ids) (subset : ids' ⊆ ids) :
    Alike guard infer infer' ids' := fun id member => alike id (subset member)

theorem Alike.single {ids : List ExprId} {id : ExprId} (alike : Alike guard infer infer' ids) (member : id ∈ ids) :
    Alike guard infer infer' [id] := fun _ here => List.mem_singleton.mp here ▸ alike id member

theorem inferElements_tracks {elements : List ExprId} (alike : Alike guard infer infer' elements) (locals : Locals) :
    Tracks guard (inferElements infer elements locals) (inferElements infer' elements locals) :=
  .mapM fun element member => alike element member locals

theorem inferRecordIntrinsic_tracks {id : ExprId}
    (alike : ∀ part, Inside context.parsed id part → ∀ locals, Tracks guard (infer part locals) (infer' part locals))
    (locals : Locals) : Tracks guard (inferRecordIntrinsic context infer id locals)
      (inferRecordIntrinsic context infer' id locals) := by
  rw [inferRecordIntrinsic, inferRecordIntrinsic]
  split
  · exact tracks_ok none
  next intrinsic field found =>
    have inside := recordIntrinsic_inside found
    split
    · cases intrinsic with
      | get record =>
        exact (alike record (inside _ (by simp [RecordIntrinsic.operands])) locals).bind fun _ => tracks_ok _
      | set value record =>
        refine (alike record (inside _ (by simp [RecordIntrinsic.operands])) locals).bind fun _ => ?_
        exact (alike value (inside _ (by simp [RecordIntrinsic.operands])) locals).bind fun _ => tracks_ok _
      | modify function record =>
        refine (alike record (inside _ (by simp [RecordIntrinsic.operands])) locals).bind fun _ => ?_
        exact (alike function (inside _ (by simp [RecordIntrinsic.operands])) locals).bind fun _ => tracks_ok _
    · exact tracks_fail _ _

theorem inferRecordTree_tracks {constructor : String} {fields : List RecordFieldExpr}
    (alike : Alike guard infer infer' (fields.map RecordFieldExpr.value)) (locals : Locals) :
    Tracks guard (inferRecordTree context infer constructor fields locals)
      (inferRecordTree context infer' constructor fields locals) :=
  (inferElements_tracks alike locals).bind fun _ => (inferRecordConstruction_ends _ _ _).tracks

theorem inferDo_tracks {statements : List DoStatement}
    (alike : Alike guard infer infer' (statements.map DoStatement.expression)) (locals : Locals) :
    Tracks guard (inferDo infer statements locals) (inferDo infer' statements locals) := by
  induction statements generalizing locals with
  | nil => exact tracks_fail _ _
  | cons statement rest ih =>
    have here := alike statement.expression (List.mem_cons_self ..)
    have later := ih (alike.mono (List.subset_cons_self ..))
    cases statement with
    | action expression =>
      cases rest with
      | nil => exact here locals
      | cons next rest =>
        refine (here locals).bind fun action => (later locals).bind fun body => ?_
        exact (instantiateBuiltin_ends _).tracks.bind fun _ => tracks_ok _
    | letBind pattern expression =>
      cases rest with
      | nil => exact tracks_fail _ _
      | cons next rest => exact (here locals).bind fun value => (later _).bind fun body => tracks_ok _
    | bind pattern expression =>
      cases rest with
      | nil => exact tracks_fail _ _
      | cons next rest =>
        refine (here locals).bind fun action => (later _).bind fun body => ?_
        exact (instantiateBuiltin_ends _).tracks.bind fun _ => tracks_ok _

theorem inferAhead_tracks {id : ExprId} (alike : Alike guard infer infer' [id]) (locals : Locals) (repeats : ℕ) :
    Tracks guard (inferAhead context infer id locals repeats) (inferAhead context infer' id locals repeats) := by
  have here := alike id (List.mem_singleton_self _) locals
  induction repeats with
  | zero => exact tracks_ok []
  | succ repeats ih =>
    rw [inferAhead, inferAhead]
    split
    · exact here.bind fun first => ih.bind fun rest => tracks_ok _
    · exact here.bind fun first => tracks_ok _

/-- The expressions of the alternatives. -/
abbrev expressions (prepared : List Prepared) : List ExprId := prepared.map fun entry => entry.alternative.expression

theorem takePrepared_tracks {id : ExprId} (alike : Alike guard infer infer' [id]) (queue : List CoreTerm)
    (locals : Locals) : Tracks guard (takePrepared infer queue id locals) (takePrepared infer' queue id locals) := by
  cases queue with
  | nil => exact alike id (List.mem_singleton_self _) locals
  | cons first _ => exact tracks_ok first

theorem prepare_tracks {alternatives : List CaseAlternative}
    (alike : Alike guard infer infer' (alternatives.map CaseAlternative.expression)) (locals : Locals) :
    Tracks guard (prepare context infer alternatives locals) (prepare context infer' alternatives locals) := by
  refine .mapM fun alternative member => ?_
  have here := alike.single (List.mem_map_of_mem member)
  exact (inferAhead_tracks here _ _).bind fun queue => tracks_ok _

theorem inferUserCase_tracks {prepared : List Prepared} (alike : Alike guard infer infer' (expressions prepared))
    (scrutinee : CoreTerm) (locals : Locals) : Tracks guard (inferUserCase context infer scrutinee prepared locals)
      (inferUserCase context infer' scrutinee prepared locals) := by
  refine (Ends.foldlM (selectType_ends context) _ _).tracks.bind fun selected => ?_
  refine (selectedDefinition_ends context prepared selected).tracks.bind fun ⟨definition, constructors⟩ => ?_
  refine (Ends.foldlM (insertUserAlternative_ends definition constructors) _ _).tracks.bind_ok fun found inserted => ?_
  have empty : (⟨[], none⟩ : UserAlternatives).Of [] := ⟨.nil, by simp, by simp⟩
  have of := userAlternatives_of empty inserted
  have within (entry : Prepared) (member : entry ∈ found.explicit.map Prod.snd ++ found.wildcard.toList) :
      Alike guard infer infer' [entry.alternative.expression] :=
    alike.single (List.mem_map_of_mem (of.perm.mem_iff.mp member))
  refine (coverUser_ends definition constructors found).tracks.bind_ok fun explicit covered => ?_
  refine Tracks.bind ?_ fun branches => ?_
  · refine .mapM fun ⟨index, entry⟩ member => ?_
    have member' := (coverUser_perm covered).mem_iff.mp member
    refine (takePrepared_tracks (within entry ?_) _ _).bind fun body => tracks_ok _
    exact List.mem_append_left _ (List.mem_map_of_mem (f := Prod.snd) member')
  · refine Tracks.bind ?_ fun fallback => tracks_ok _
    rw [inferFallback.eq_def, inferFallback.eq_def]
    split
    · exact tracks_ok none
    next entry isWildcard =>
      refine (takePrepared_tracks (within entry ?_) _ _).bind fun body => tracks_ok _
      exact List.mem_append_right _ (Option.mem_toList.mpr isWildcard)

theorem inferHandlers_tracks {prepared : List Prepared} {wildcard : Option Prepared}
    (alike : Alike guard infer infer' (expressions prepared)) (isWildcard : ∀ entry ∈ wildcard, entry ∈ prepared)
    (locals : Locals) (handlers : List (ℕ × ℕ)) (queue : List CoreTerm) :
    Tracks guard (inferHandlers infer prepared wildcard locals handlers queue)
      (inferHandlers infer' prepared wildcard locals handlers queue) := by
  have within (entry : Prepared) (member : entry ∈ prepared) :
      Alike guard infer infer' [entry.alternative.expression] :=
    alike.single (List.mem_map_of_mem member)
  induction handlers generalizing queue with
  | nil => exact tracks_ok []
  | cons handler handlers ih =>
    obtain ⟨arity, index⟩ := handler
    rw [inferHandlers.eq_def, inferHandlers.eq_def]
    dsimp only
    split
    next entry isExplicit =>
      have member := List.mem_of_find?_eq_some isExplicit
      exact (takePrepared_tracks (within entry member) _ _).bind fun body => (ih queue).bind fun rest => tracks_ok _
    next =>
      split
      next entry =>
        have member := isWildcard entry rfl
        refine (takePrepared_tracks (within entry member) _ _).bind fun body => ?_
        exact (ih queue.tail).bind fun rest => tracks_ok _
      next => exact tracks_fail _ _

theorem inferPrimitiveCase_tracks {prepared : List Prepared} (alike : Alike guard infer infer' (expressions prepared))
    (scrutinee : CoreTerm) (locals : Locals) : Tracks guard (inferPrimitiveCase infer scrutinee prepared locals)
      (inferPrimitiveCase infer' scrutinee prepared locals) := by
  refine (Ends.foldlM insertPrimitiveAlternative_ends _ _).tracks.bind_ok fun found inserted => ?_
  split
  · exact tracks_fail _ _
  · split
    · exact tracks_fail _ _
    next family _ =>
      refine (instantiateBuiltin_ends _).tracks.bind fun eliminator => ?_
      refine (inferHandlers_tracks alike (fun entry member => ?_) _ _ _).bind fun handlers => tracks_ok _
      rcases primitiveAlternatives_wildcard inserted entry member with old | ⟨new, _⟩
      · cases old
      · exact new

theorem inferCaseTree_tracks {scrutinee : ExprId} {alternatives : List CaseAlternative}
    (alike : Alike guard infer infer' (scrutinee :: alternatives.map CaseAlternative.expression)) (locals : Locals) :
    Tracks guard (inferCaseTree context infer scrutinee alternatives locals)
      (inferCaseTree context infer' scrutinee alternatives locals) := by
  refine (alike scrutinee (List.mem_cons_self ..) locals).bind fun scrutinee => ?_
  replace alike := alike.mono (List.subset_cons_self ..)
  refine (prepare_tracks alike locals).bind_ok fun prepared isPrepared => ?_
  have alike' : Alike guard infer infer' (expressions prepared) := by
    have same := prepare_alternatives isPrepared
    rw [← same, List.map_map] at alike
    exact alike
  split
  · exact inferPrimitiveCase_tracks alike' scrutinee locals
  · exact inferUserCase_tracks alike' scrutinee locals

/-- Inference of an expression asks for its proper parts and for the global that it names. -/
theorem inferStep_tracks {id : ExprId}
    (parts : ∀ part, Inside context.parsed id part → ∀ locals, Tracks guard (infer part locals) (infer' part locals))
    (named : ∀ name index, context.parsed.expression id = .name name → mainGlobal context.globals name = some index →
      ∀ locals, Tracks guard (expand index locals) (expand' index locals)) (locals : Locals) :
    Tracks guard (inferStep context expand infer id locals) (inferStep context expand' infer' id locals) := by
  have children : Alike guard infer infer' (context.parsed.expression id).children := fun part isChild =>
    parts part (.single isChild)
  refine (inferRecordIntrinsic_tracks parts locals).bind fun intrinsic => ?_
  cases intrinsic with
  | some intrinsic => exact tracks_ok intrinsic
  | none =>
    cases shape : context.parsed.expression id with
    | name name =>
      simp only [inferName]
      split
      next global isMain =>
        split
        next index isGlobal => exact named name index shape (by simp [mainGlobal, isMain, isGlobal]) locals
        next =>
          split
          · exact (inferUserConstructor_ends _ _).tracks
          · exact tracks_fail _ _
      next =>
        split
        · exact (instantiateBuiltin_ends _).tracks
        · split
          · exact tracks_fail _ _
          · exact tracks_ok _
    | literal value => exact tracks_ok _
    | apply function argument =>
      rw [shape] at children
      refine (children function (by simp [Expr.children]) locals).bind fun function => ?_
      exact (children argument (by simp [Expr.children]) locals).bind fun argument => tracks_ok _
    | typeApply function _ =>
      rw [shape] at children
      exact children function (by simp [Expr.children]) locals
    | lambda parameters body =>
      rw [shape] at children
      exact (children body (by simp [Expr.children]) _).bind fun body => tracks_ok _
    | ifThenElse condition thenBranch elseBranch =>
      rw [shape] at children
      refine (children elseBranch (by simp [Expr.children]) locals).bind fun elseBranch => ?_
      refine (children thenBranch (by simp [Expr.children]) locals).bind fun thenBranch => ?_
      refine (children condition (by simp [Expr.children]) locals).bind fun condition => ?_
      exact (instantiateBuiltin_ends _).tracks.bind fun _ => tracks_ok _
    | doBlock statements =>
      rw [shape] at children
      exact inferDo_tracks children locals
    | case scrutinee alternatives =>
      rw [shape] at children
      exact inferCaseTree_tracks children locals
    | tuple elements | list elements =>
      rw [shape] at children
      exact (inferElements_tracks children locals).bind fun elements => tracks_ok _
    | recordConstruction constructor fields =>
      rw [shape] at children
      exact inferRecordTree_tracks children locals
    | annotated expression _ =>
      rw [shape] at children
      exact children expression (by simp [Expr.children]) locals

end Inference

section Expansion

variable {guard : Prop} {context : InferContext} {expand expand' : ℕ → Locals → Elab CoreTerm}

theorem Inside.refers {parsed : ParsedFile} {globals : Globals} {id part : ExprId} {index : ℕ}
    (inside : Inside parsed id part) (refers : Refers parsed globals part index) : Refers parsed globals id index := by
  obtain ⟨named, name, isPart, shape, isGlobal⟩ := refers
  exact ⟨named, name, inside.to_reflTransGen.trans isPart, shape, isGlobal⟩

/-- Inference asks only for the globals to which the expression refers, and fuel above its position is
enough. -/
theorem inferExpr_tracks {fuel fuel' : ℕ} {id : ExprId} (enough : id < fuel) (enough' : id < fuel')
    (referred : ∀ index, Refers context.parsed context.globals id index →
      ∀ locals, Tracks guard (expand index locals) (expand' index locals)) (locals : Locals) :
    Tracks guard (inferExpr context expand fuel id locals) (inferExpr context expand' fuel' id locals) := by
  induction fuel generalizing fuel' id locals with
  | zero => cases enough
  | succ fuel ih =>
    cases fuel' with
    | zero => cases enough'
    | succ fuel' =>
      refine inferStep_tracks (fun part inside => ?_) (fun name index shape isGlobal => ?_) locals
      · have before := inside.lt
        have small : part < fuel := Nat.lt_of_lt_of_le before (Nat.le_of_lt_succ enough)
        have small' : part < fuel' := Nat.lt_of_lt_of_le before (Nat.le_of_lt_succ enough')
        exact ih small small' fun index refers => referred index (inside.refers refers)
      · exact referred index ⟨id, name, .refl, shape, isGlobal⟩

/-- A name that refers to a global is expanded, whatever the locals are; no other name is. -/
theorem inferName_global {name : String} {index : ℕ} (isGlobal : mainGlobal context.globals name = some index)
    (locals : Locals) : inferName context expand name locals = expand index locals := by
  obtain ⟨global, isMain, found⟩ := Option.bind_eq_some_iff.mp isGlobal
  simp only [inferName, isMain, found]

theorem aliasOf_references {node value target : ℕ} (isValue : globalValue context.parsed node = some value)
    (isAlias : aliasOf context value = some target) : References context.parsed context.globals node target := by
  rw [aliasOf] at isAlias
  split at isAlias
  next name shape => exact ⟨value, isValue, value, name, .refl, shape, isAlias⟩
  next => cases isAlias

/-- The expansion of a global ends where its rank is below the depth. -/
theorem expandGlobal_tracks {rank : ℕ → ℕ}
    (lower : ∀ node index, References context.parsed context.globals node index → rank index < rank node)
    {depth depth' node : ℕ} (enough : rank node < depth) (enough' : rank node < depth') (locals : Locals) :
    Tracks True (expandGlobal context depth node locals) (expandGlobal context depth' node locals) := by
  induction depth generalizing depth' node locals with
  | zero => cases enough
  | succ depth ih =>
    cases depth' with
    | zero => cases enough'
    | succ depth' =>
      have below {index : ℕ} (references : References context.parsed context.globals node index) (locals : Locals) :
          Tracks True (expandGlobal context depth index locals) (expandGlobal context depth' index locals) := by
        have less := lower node index references
        exact ih (by omega) (by omega) locals
      rw [expandGlobal, expandGlobal]
      split
      · exact tracks_fail _ _
      next value isValue =>
        split
        next target isAlias => exact below (aliasOf_references isValue isAlias) locals
        next =>
          exact inferExpr_tracks (Nat.lt_succ_self value) (Nat.lt_succ_self value)
            (fun index refers => below ⟨value, isValue, refers⟩) locals

variable {parsed : ParsedFile} {userTypes : UserTypes} {globals : Globals} {fuel : ℕ}

/-- In an accepted file the globals have ranks up to the number of declarations. -/
theorem exists_rank (accepted : rejectCycles fuel parsed globals = some (.ok ())) : ∃ rank : ℕ → ℕ,
    (∀ node, rank node ≤ parsed.declarations.length) ∧
      ∀ node index, References parsed globals node index → rank index < rank node := by
  obtain ⟨order, clears, all⟩ := references_clear accepted
  obtain ⟨rank, ranked⟩ := clears.exists_rank
  have length : order.length = parsed.declarations.length := by rw [all.length_eq, List.length_range]
  refine ⟨fun node => if node ∈ order then rank node else 0, fun node => ?_, fun node index references => ?_⟩
  · beta_reduce
    split_ifs with member
    · have below := (ranked node member).1
      omega
    · exact Nat.zero_le _
  · obtain ⟨value, isValue, _⟩ := id references
    obtain ⟨declaration, declared, _⟩ := Option.bind_eq_some_iff.mp isValue
    have member := all.mem_iff.mpr (List.mem_range.mpr (List.getElem?_eq_some_iff.mp declared).1)
    obtain ⟨member', lower⟩ := (ranked node member).2 index references
    simpa only [member, member', if_true] using lower

/-- Of a file that both checks accept, no global refers to itself through others; inference of a body asks
for the globals that the check has collected from it, and for no others; the expansion of a global ends, and
its stack is never deeper than there are declarations. -/
theorem expandGlobal_ends (types : collectUserTypes parsed = .ok userTypes)
    (terms : collectGlobals parsed userTypes = .ok globals)
    (acceptedTypes : rejectTypeCycles fuel parsed userTypes = some (.ok ()))
    (accepted : rejectCycles fuel parsed globals = some (.ok ())) :
    (∀ node, ¬Relation.TransGen (References parsed globals) node node) ∧
      (∀ name index, mainGlobal globals name = some index → ∀ expand locals,
        inferName ⟨parsed, globals, userTypes⟩ expand name locals = expand index locals) ∧
      (∀ value found, collectDependencies fuel parsed globals value = some found →
        (∀ index, index ∈ found ↔ Refers parsed globals value index) ∧
          ∀ expand expand' : ℕ → Locals → Elab CoreTerm, (∀ index ∈ found, expand index = expand' index) →
            ∀ locals, inferExpr ⟨parsed, globals, userTypes⟩ expand (value + 1) value locals =
              inferExpr ⟨parsed, globals, userTypes⟩ expand' (value + 1) value locals) ∧
      (∀ depth, parsed.declarations.length < depth → ∀ node locals,
        expandGlobal ⟨parsed, globals, userTypes⟩ depth node locals ≠ .error .outOfFuel) ∧
      WellFounded fun index node => TypeReferences parsed userTypes node index := by
  refine ⟨no_cycle ((rejectCycles_iff terms accepted).mp rfl), ?_, ?_, ?_, (rejectTypeCycles_iff types acceptedTypes).mp rfl⟩
  · exact fun name index isGlobal expand locals => inferName_global isGlobal locals
  · intro value found collected
    have referred := collectDependencies_mem collected
    refine ⟨referred, fun expand expand' same locals => ?_⟩
    have tracks (index : ℕ) (refers : Refers parsed globals value index) (locals : Locals) :
        Tracks False (expand index locals) (expand' index locals) :=
      ⟨by rw [same index ((referred index).mpr refers)], False.elim⟩
    let context : InferContext := ⟨parsed, globals, userTypes⟩
    have inferred : Tracks False (inferExpr context expand (value + 1) value locals)
        (inferExpr context expand' (value + 1) value locals) :=
      inferExpr_tracks (Nat.lt_succ_self value) (Nat.lt_succ_self value) tracks locals
    exact inferred.same
  · obtain ⟨rank, bounded, lower⟩ := exists_rank accepted
    intro depth enough node locals
    have below := Nat.lt_of_le_of_lt (bounded node) enough
    let context : InferContext := ⟨parsed, globals, userTypes⟩
    have expanded : Tracks True (expandGlobal context depth node locals) (expandGlobal context depth node locals) :=
      expandGlobal_tracks lower below below locals
    exact expanded.ends trivial

/-- `main` is an alias of a text, beside two record types, one in the other. -/
def aliasFile : ParsedFile where
  declarations := [.value ⟨"main", none, 0⟩, .value ⟨"greeting", none, 1⟩, .record ⟨"Pair", "Pair", [⟨"first", 0⟩]⟩,
    .record ⟨"Outer", "Outer", [⟨"inner", 1⟩]⟩]
  expressions := [.name "Main.greeting", .literal (.text "hello")]
  types := [.name "Text", .name "Main.Pair"]
  values := by decide
  older := by decide
  olderType := by decide
  binds := by decide
  named := by decide

theorem expandGlobal_aliasFile : ¬Relation.TransGen (References aliasFile [("greeting", 1), ("main", 0)]) 0 0 := by
  have types : collectUserTypes aliasFile = .ok ⟨[⟨"Main.Pair", .record "Pair" [⟨"first", 0⟩]⟩,
    ⟨"Main.Outer", .record "Outer" [⟨"inner", 1⟩]⟩], [("Main.Outer", 1), ("Main.Pair", 0)],
    [("Outer", .record 1), ("Pair", .record 0)]⟩ := by rfl
  exact (expandGlobal_ends types (by rfl) (by decide : rejectTypeCycles 9 _ _ = _) (by decide : rejectCycles 9 _ _ = _)).1 0

end Expansion

end HellRs.Compiler
