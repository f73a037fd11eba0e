import HellRs.Core.TypePass

/-! # Accepted programs

What `verify` establishes about a program as a whole: the layouts of a nominal name agree wherever
they are named, the nodes below the root form a tree, and the root has a derivation of `IO ()`.
-/

namespace HellRs.Core

open Types Builtins Loop

variable {program : CoreProgram}

section Layouts

/-- All nodes that name a layout under one nominal name name the same layout. -/
def OneLayout {L : Type} (nodes : List CoreNode) (layoutOf : CoreKind → Option L) (name : L → String) :
    Prop :=
  ∃ table : List (String × L), ∀ node ∈ nodes, ∀ layout, layoutOf node.kind = some layout →
    table.lookup (name layout) = some layout

theorem OneLayout.unique {L : Type} {nodes : List CoreNode} {layoutOf : CoreKind → Option L}
    {name : L → String} (one : OneLayout nodes layoutOf name) {first second : CoreNode}
    (isFirst : first ∈ nodes) (isSecond : second ∈ nodes) {layout layout' : L}
    (names : layoutOf first.kind = some layout) (names' : layoutOf second.kind = some layout')
    (same : name layout = name layout') : layout = layout' := by
  obtain ⟨table, found⟩ := one
  have left := found first isFirst layout names
  have right := found second isSecond layout' names'
  rw [same, right] at left
  exact (Option.some.inj left).symm

private theorem insertLayout_ok {L : Type} [DecidableEq L] {table table' : List (String × L)}
    {name : String} {layout : L} (inserted : insertLayout table name layout = (true, table')) :
    table'.lookup name = some layout ∧
      ∀ other old, table.lookup other = some old → table'.lookup other = some old := by
  obtain ⟨agrees, rfl⟩ := Prod.mk.inj inserted
  refine ⟨by simp, fun other old found => ?_⟩
  by_cases same : other = name
  · subst same
    obtain rfl : old = layout := by simpa [found] using agrees
    simp
  · have differ : (other == name) = false := by simpa using same
    rw [List.lookup_cons, differ]
    exact found

/-- The tables keep every layout they hold. -/
structure Grows (tables tables' : LayoutTables) : Prop where
  records : ∀ name layout, tables.records.lookup name = some layout →
    tables'.records.lookup name = some layout
  variants : ∀ name layout, tables.variants.lookup name = some layout →
    tables'.variants.lookup name = some layout

private theorem scanNode_ok {tables tables' : LayoutTables} {id : CoreId} {node : CoreNode}
    (scanned : scanNode tables id node = .ok tables') :
    Grows tables tables' ∧
      (∀ layout, node.kind.recordLayout = some layout →
        tables'.records.lookup layout.typeName = some layout) ∧
      ∀ layout, node.kind.variantLayout = some layout →
        tables'.variants.lookup layout.typeName = some layout := by
  obtain ⟨ty, span, kind⟩ := node
  simp only [scanNode] at scanned
  cases records : kind.recordLayout with
  | some layout =>
    have none : kind.variantLayout = none := by cases kind <;> simp_all [CoreKind.recordLayout, CoreKind.variantLayout]
    simp only [records, none, bind, Except.bind, pure, Except.pure] at scanned
    cases result : insertLayout tables.records layout.typeName layout with
    | mk agrees table =>
      cases agrees with
      | false => simp [result] at scanned
      | true =>
        obtain ⟨inserted, kept⟩ := insertLayout_ok result
        obtain rfl : _ = tables' := by simpa [result] using scanned
        exact ⟨⟨kept, fun _ _ found => found⟩, by simpa using inserted, by simp [none]⟩
  | none =>
    cases variants : kind.variantLayout with
    | none =>
      obtain rfl : tables = tables' := by
        simpa [records, variants, bind, Except.bind, pure, Except.pure] using scanned
      exact ⟨⟨fun _ _ found => found, fun _ _ found => found⟩, by simp, by simp⟩
    | some layout =>
      simp only [records, variants, bind, Except.bind, pure, Except.pure] at scanned
      cases result : insertLayout tables.variants layout.typeName layout with
      | mk agrees table =>
        cases agrees with
        | false => simp [result] at scanned
        | true =>
          obtain ⟨inserted, kept⟩ := insertLayout_ok result
          obtain rfl : _ = tables' := by simpa [result] using scanned
          exact ⟨⟨fun _ _ found => found, kept⟩, by simp, by simpa using inserted⟩

/-- The layout scan leaves every named layout in its table. -/
private theorem scanLayouts_ok {tables tables' : LayoutTables} {id : CoreId} {nodes : List CoreNode}
    (scanned : scanLayouts tables id nodes = .ok tables') :
    Grows tables tables' ∧ ∀ node ∈ nodes,
      (∀ layout, node.kind.recordLayout = some layout →
        tables'.records.lookup layout.typeName = some layout) ∧
      ∀ layout, node.kind.variantLayout = some layout →
        tables'.variants.lookup layout.typeName = some layout := by
  induction nodes generalizing tables id with
  | nil =>
    obtain rfl := Except.ok.inj scanned
    exact ⟨⟨fun _ _ found => found, fun _ _ found => found⟩, by simp⟩
  | cons node nodes ih =>
    simp only [scanLayouts, bind, Except.bind] at scanned
    cases result : scanNode tables id node with
    | error failure => simp [result] at scanned
    | ok middle =>
      simp only [result] at scanned
      obtain ⟨growsFirst, ownRecord, ownVariant⟩ := scanNode_ok result
      obtain ⟨growsRest, rest⟩ := ih scanned
      refine ⟨⟨fun name layout found => growsRest.records _ _ (growsFirst.records _ _ found),
        fun name layout found => growsRest.variants _ _ (growsFirst.variants _ _ found)⟩, ?_⟩
      intro other member
      rcases List.mem_cons.mp member with rfl | member
      · exact ⟨fun layout names => growsRest.records _ _ (ownRecord layout names),
          fun layout names => growsRest.variants _ _ (ownVariant layout names)⟩
      · exact rest other member

end Layouts

/-- The type is `IO ()`. -/
def IsMainType (types : TypeArena) (ty : TypeId) : Prop :=
  ∃ io unit, types.get ty = some (.apply io unit) ∧ ConstructorNamed types io "IO" ∧
    ConstructorNamed types unit "()"

/-- What an accepted program satisfies. -/
structure Accepted (program : CoreProgram) : Prop where
  tree : TreeShaped program
  rootTyped : HasType program [] program.root program.mainType
  main : IsMainType program.types program.mainType
  records : OneLayout program.nodes CoreKind.recordLayout RecordLayout.typeName
  variants : OneLayout program.nodes CoreKind.variantLayout VariantLayout.typeName

private theorem checkMain_ok {fuel : ℕ} {root : CoreNode} {computed : Computed}
    (checked : checkMain fuel program root computed = some (.ok ())) :
    computed program.root = some program.mainType ∧ IsMainType program.types program.mainType := by
  simp only [checkMain] at checked
  split at checked
  next => simp [reject] at checked
  next isMain =>
    refine ⟨by simpa using isMain, ?_⟩
    simp only [Option.bind_eq_bind, Option.bind_eq_some_iff] at checked
    obtain ⟨exact, _, checked⟩ := checked
    split at checked
    next => simp [reject] at checked
    next =>
      simp only [Option.bind_eq_some_iff] at checked
      obtain ⟨shape, here, checked⟩ := checked
      cases shape with
      | apply io unit =>
        simp only [Option.bind_eq_some_iff] at checked
        obtain ⟨ioName, isIO, unitName, isUnit, checked⟩ := checked
        split at checked
        next => simp [reject] at checked
        next agrees =>
          simp only [ne_eq, not_or, not_not] at agrees
          obtain ⟨rfl, rfl⟩ := agrees
          exact ⟨io, unit, here, constructorName_named isIO, constructorName_named isUnit⟩
      | _ => simp [reject] at checked

/-- The checker accepts only programs with these properties, and returns them unchanged. -/
theorem verify_accepted {fuel : ℕ} {executable : ExecutableProgram}
    (success : verify fuel program = some (.ok executable)) :
    executable = program.seal ∧ Accepted program := by
  simp only [verify] at success
  split at success
  next => simp at success
  next root isRoot =>
    split at success
    next => simp at success
    next tables scanned =>
      obtain ⟨_, layouts⟩ := scanLayouts_ok scanned
      simp only [Option.bind_eq_bind, Option.bind_eq_some_iff] at success
      obtain ⟨graph, checkedGraph, success⟩ := success
      cases graph with
      | error failure => simp at success
      | ok _ =>
        obtain ⟨entered, explored⟩ := checkGraph_explored checkedGraph
        have tree := explored.treeShaped
        simp only [Option.bind_eq_some_iff] at success
        obtain ⟨result, checkedTypes, success⟩ := success
        cases result with
        | error failure => simp at success
        | ok computed =>
          simp only [Option.bind_eq_some_iff] at success
          obtain ⟨final, checkedMain, success⟩ := success
          cases final with
          | error failure => simp at success
          | ok _ =>
            obtain ⟨isMain, main⟩ := checkMain_ok checkedMain
            obtain ⟨locals, enclosed, typed⟩ := checkTypes_typed tree checkedTypes _ isMain
            obtain rfl := tree.enclosed_unique .root enclosed
            exact ⟨by simpa [accept, eq_comm] using success, tree, typed, main,
              ⟨tables.records, fun node member => (layouts node member).1⟩,
              ⟨tables.variants, fun node member => (layouts node member).2⟩⟩

/-- The checker is sound: in an accepted program the nodes below the root form a tree without
sharing and cycles, every enclosed node has a derivation of its stored type under its binders, every
variable is in the scope of its binders, every case covers each constructor of its scrutinee's type
exactly once, and the root has type `IO ()`. -/
theorem verify_sound {fuel : ℕ} {executable : ExecutableProgram}
    (success : verify fuel program = some (.ok executable)) :
    executable = program.seal ∧ TreeShaped program ∧
      (∀ path cycle id, follow program program.root path = some id →
        follow program id cycle = some id → cycle = []) ∧
      (∀ id locals, Enclosed program id locals →
        ∃ node, program.node id = some node ∧ HasType program locals id node.ty) ∧
      (∀ id locals node deBruijn projection, Enclosed program id locals →
        program.node id = some node → node.kind = .boundVar deBruijn projection →
          deBruijn < locals.length) ∧
      (∀ id locals node scrutinee layout branches fallback, Enclosed program id locals →
        program.node id = some node → node.kind = .case scrutinee layout branches fallback →
          (∃ ty, HasType program locals scrutinee ty ∧
            HeadNamed program.types ty layout.typeName) ∧
          (∀ other ∈ program.nodes, ∀ otherLayout, other.kind.variantLayout = some otherLayout →
            otherLayout.typeName = layout.typeName → otherLayout = layout) ∧
          CoversOnce layout branches fallback) ∧
      HasType program [] program.root program.mainType ∧
      IsMainType program.types program.mainType := by
  obtain ⟨sealed, accepted⟩ := verify_accepted success
  have typed : ∀ id locals, Enclosed program id locals →
      ∃ node, program.node id = some node ∧ HasType program locals id node.ty := by
    intro id locals enclosed
    obtain ⟨ty, typed⟩ := enclosed.hasType accepted.rootTyped
    obtain ⟨node, here, rfl⟩ := typed.stored
    exact ⟨node, here, typed⟩
  refine ⟨sealed, accepted.tree, fun path cycle id reached back => accepted.tree.acyclic reached back,
    typed, ?_, ?_, accepted.rootTyped, accepted.main⟩
  · intro id locals node deBruijn projection enclosed here kind
    obtain ⟨node', here', derivation⟩ := typed id locals enclosed
    obtain rfl := Option.some.inj (here.symm.trans here')
    exact derivation.boundVar_lt here kind
  · intro id locals node scrutinee layout branches fallback enclosed here kind
    obtain ⟨node', here', derivation⟩ := typed id locals enclosed
    obtain rfl := Option.some.inj (here.symm.trans here')
    obtain ⟨scrutineeTyped, covers⟩ := derivation.case_covers here kind
    refine ⟨scrutineeTyped, ?_, covers⟩
    intro other member otherLayout names same
    exact accepted.variants.unique member (List.mem_of_getElem? here) names
      (by simp [kind, CoreKind.variantLayout]) same

/-- `main = Text.putStrLn "hello"`. -/
def helloProgram : CoreProgram where
  root := 0
  nodes := [
    ⟨3, ⟨0, 0, 0⟩, .apply 1 2⟩,
    ⟨4, ⟨0, 0, 0⟩, .builtin 83 none⟩,
    ⟨0, ⟨0, 0, 0⟩, .constant (.text "hello")⟩]
  types := ⟨[.constructor "Text" KindArena.TYPE, .constructor "IO" 5,
    .constructor "()" KindArena.TYPE, .apply 1 2, .function 0 3]⟩
  mainType := 3
  instanceEvidence := []

theorem verify_hello : verify 20 helloProgram = some (.ok helloProgram.seal) := by
  decide

/-- The tree of the program has a derivation of `IO ()`. -/
theorem hello_sound : TreeShaped helloProgram ∧ HasType helloProgram [] 0 3 := by
  obtain ⟨_, tree, _, _, _, _, typed, _⟩ := verify_sound verify_hello
  exact ⟨tree, typed⟩

end HellRs.Core
