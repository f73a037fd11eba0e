import HellRs.Lib.Clearing
import HellRs.Lib.Traversal
import HellRs.Compiler.Declarations

/-! # Cyclic declarations

The sweep that finds the nodes of a dependency graph that cannot be resolved, and the two checks that
use it: of the top-level terms, and of the data declarations.
-/

namespace HellRs.Compiler

open Syntax Clearing Loop

section CyclicNodes

def addDependent (dependents : List (List ℕ)) : ℕ × ℕ → List (List ℕ)
  | (node, dependency) => dependents.modify dependency fun reverse => reverse ++ [node]

/-- The edges of a graph, node by node. -/
def edges (dependencies : List (List ℕ)) : List (ℕ × ℕ) :=
  dependencies.zipIdx.flatMap fun (targets, node) => targets.map fun dependency => (node, dependency)

def dependents (dependencies : List (List ℕ)) : List (List ℕ) :=
  (edges dependencies).foldl addDependent (List.replicate dependencies.length [])

/-- One dependency of the dependent is resolved. -/
def release : List ℕ × List ℕ → ℕ → List ℕ × List ℕ
  | (unresolved, ready), dependent =>
      let unresolved := unresolved.modify dependent fun count => count - 1
      if unresolved[dependent]? = some 0 then (unresolved, ready ++ [dependent]) else (unresolved, ready)

/-- Resolve ready nodes; each node is ready at most once, so that there are enough turns. -/
def sweep (dependents : List (List ℕ)) : ℕ → List ℕ × List ℕ → List ℕ
  | 0, (unresolved, _) => unresolved
  | _ + 1, (unresolved, []) => unresolved
  | fuel + 1, (unresolved, node :: ready) =>
      sweep dependents fuel ((dependents[node]?.getD []).foldl release (unresolved, ready))

def cyclicNodes (dependencies : List (List ℕ)) : List ℕ :=
  let unresolved := dependencies.map List.length
  let ready := (unresolved.zipIdx.filter fun (count, _) => count = 0).map Prod.snd
  (sweep (dependents dependencies) dependencies.length (unresolved, ready)).zipIdx.filterMap
    fun (count, node) => if 0 < count then some node else none

/-- What a node depends on. -/
def targets (dependencies : List (List ℕ)) (node : ℕ) : List ℕ := dependencies[node]?.getD []

def Depends (dependencies : List (List ℕ)) (node dependency : ℕ) : Prop := dependency ∈ targets dependencies node

variable {dependencies : List (List ℕ)} {unresolved ready done : List ℕ} {node : ℕ}

theorem count_addDependents (added : List (ℕ × ℕ)) (lists : List (List ℕ)) {dependency : ℕ}
    (inside : dependency < lists.length) :
    ((added.foldl addDependent lists)[dependency]?.getD []).count node =
      (lists[dependency]?.getD []).count node + added.count (node, dependency) := by
  induction added generalizing lists with
  | nil => simp
  | cons edge added ih =>
    obtain ⟨source, target⟩ := edge
    rw [List.foldl_cons, ih _ (by simpa [addDependent] using inside), addDependent, List.getElem?_modify,
      List.count_cons]
    by_cases same : target = dependency
    · subst same
      rw [List.getElem?_eq_getElem inside]
      by_cases isNode : source = node
      · simp [isNode]
        omega
      · simp [isNode]
    · simp [same]

theorem count_edges (dependency : ℕ) :
    (edges dependencies).count (node, dependency) = (targets dependencies node).count dependency := by
  have general (start : ℕ) : ((dependencies.zipIdx start).flatMap fun (targets, node) =>
      targets.map fun dependency => (node, dependency)).count (node, dependency) =
        if start ≤ node then (targets dependencies (node - start)).count dependency else 0 := by
    induction dependencies generalizing start with
    | nil => simp [targets]
    | cons first rest ih =>
      have here : (first.map fun dependency => (start, dependency)).count (node, dependency) =
          if start = node then first.count dependency else 0 := by
        split_ifs with same
        · rw [same, List.count_map_of_injective _ _ fun left right equal => (Prod.mk.inj equal).2]
        · exact List.count_eq_zero.mpr fun member => by
            obtain ⟨_, _, equal⟩ := List.mem_map.mp member
            exact same (Prod.mk.inj equal).1
      rw [List.zipIdx_cons, List.flatMap_cons, List.count_append, here, ih]
      rcases Nat.lt_trichotomy start node with below | rfl | above
      · rw [if_neg (by omega), if_pos (by omega), if_pos (by omega)]
        obtain ⟨offset, rfl⟩ : ∃ offset, node = start + 1 + offset := ⟨node - start - 1, by omega⟩
        have inner : start + 1 + offset - (start + 1) = offset := by omega
        have outer : start + 1 + offset - start = offset + 1 := by omega
        simp [targets, inner, outer]
      · simp [targets]
      · rw [if_neg (by omega), if_neg (by omega), if_neg (by omega)]
  simpa [edges] using general 0

theorem count_dependents {dependency : ℕ} (inside : dependency < dependencies.length) :
    ((dependents dependencies)[dependency]?.getD []).count node = (targets dependencies node).count dependency := by
  rw [dependents, count_addDependents _ _ (by simpa using inside), count_edges]
  simp [inside]

/-- Releasing dependents: their counts go down, and those whose count becomes zero are ready. -/
theorem foldl_release (released : List ℕ)
    (enough : ∀ node, released.count node ≤ unresolved[node]?.getD 0) :
    ∃ unresolved' new, released.foldl release (unresolved, ready) = (unresolved', ready ++ new) ∧
      unresolved'.length = unresolved.length ∧
      (∀ node, unresolved'[node]?.getD 0 = unresolved[node]?.getD 0 - released.count node) ∧
      new.Nodup ∧ ∀ node, node ∈ new ↔ node ∈ released ∧ unresolved'[node]?.getD 0 = 0 := by
  induction released generalizing unresolved ready with
  | nil => exact ⟨unresolved, [], by simp, rfl, by simp, .nil, by simp⟩
  | cons dependent released ih =>
    have one := enough dependent
    rw [List.count_cons_self] at one
    obtain ⟨inside, isOld⟩ : ∃ inside : dependent < unresolved.length, unresolved[dependent]?.getD 0 =
        unresolved[dependent] := by
      rcases Nat.lt_or_ge dependent unresolved.length with inside | outside
      · exact ⟨inside, by rw [List.getElem?_eq_getElem inside, Option.getD_some]⟩
      · rw [List.getElem?_eq_none outside, Option.getD_none] at one
        omega
    let lowered := unresolved.modify dependent fun count => count - 1
    have get (node : ℕ) : lowered[node]?.getD 0 =
        unresolved[node]?.getD 0 - if dependent = node then 1 else 0 := by
      rw [List.getElem?_modify]
      by_cases same : dependent = node
      · subst same
        simp [inside]
      · simp [same]
    have enough' (node : ℕ) : released.count node ≤ lowered[node]?.getD 0 := by
      have before := enough node
      rw [List.count_cons] at before
      rw [get]
      by_cases same : dependent = node
      · simp only [same, beq_self_eq_true, if_true] at before ⊢
        omega
      · simp only [same, if_false, Nat.sub_zero] at before ⊢
        simpa [same] using before
    have isLow : lowered[dependent]? = some 0 ↔ lowered[dependent]?.getD 0 = 0 := by
      simp [lowered, inside]
    by_cases isReady : lowered[dependent]?.getD 0 = 0
    · obtain ⟨unresolved', new, folded, length, counts, nodup, member⟩ := @ih lowered (ready ++ [dependent]) enough'
      have released' : dependent ∉ released := List.count_eq_zero.mp (by have := enough' dependent; omega)
      have step : release (unresolved, ready) dependent = (lowered, ready ++ [dependent]) :=
        if_pos (isLow.mpr isReady)
      refine ⟨unresolved', dependent :: new, ?_, by simpa [lowered] using length, fun node => ?_, ?_, fun node => ?_⟩
      · rw [List.foldl_cons, step, folded, List.append_assoc, List.singleton_append]
      · rw [counts, get, List.count_cons]
        by_cases same : dependent = node <;> simp [same, Nat.sub_sub, Nat.add_comm]
      · exact List.nodup_cons.mpr ⟨fun isNew => released' ((member dependent).mp isNew).1, nodup⟩
      · rw [List.mem_cons, List.mem_cons, member]
        constructor
        · rintro (rfl | ⟨isReleased, isZero⟩)
          · exact ⟨.inl rfl, by rw [counts, isReady, Nat.zero_sub]⟩
          · exact ⟨.inr isReleased, isZero⟩
        · rintro ⟨rfl | isReleased, isZero⟩
          · exact .inl rfl
          · exact .inr ⟨isReleased, isZero⟩
    · obtain ⟨unresolved', new, folded, length, counts, nodup, member⟩ := @ih lowered ready enough'
      have step : release (unresolved, ready) dependent = (lowered, ready) :=
        if_neg fun low => isReady (isLow.mp low)
      refine ⟨unresolved', new, ?_, by simpa [lowered] using length, fun node => ?_, nodup, fun node => ?_⟩
      · rw [List.foldl_cons, step, folded]
      · rw [counts, get, List.count_cons]
        by_cases same : dependent = node <;> simp [same, Nat.sub_sub, Nat.add_comm]
      · rw [member, List.mem_cons]
        constructor
        · rintro ⟨isReleased, isZero⟩
          exact ⟨.inr isReleased, isZero⟩
        · rintro ⟨rfl | isReleased, isZero⟩
          · -- Its count is zero at the end and was not before, so it is released once more.
            rw [counts] at isZero
            exact ⟨List.count_pos_iff.mp (by omega), by rw [counts, isZero]⟩
          · exact ⟨isReleased, isZero⟩

/-- The state of the sweep when it has resolved some nodes. -/
structure Swept (dependencies : List (List ℕ)) (done unresolved ready : List ℕ) : Prop where
  length : unresolved.length = dependencies.length
  counts : ∀ node, unresolved[node]?.getD 0 = (targets dependencies node).countP (· ∉ done)
  nodup : (done ++ ready).Nodup
  resolved : ∀ node, node ∈ done ++ ready ↔ node < dependencies.length ∧ unresolved[node]?.getD 0 = 0
  clears : Clears (Depends dependencies) done

theorem countP_snoc {targets : List ℕ} (isNew : node ∉ done) :
    targets.countP (· ∉ done ++ [node]) = targets.countP (· ∉ done) - targets.count node := by
  induction targets with
  | nil => rfl
  | cons target targets ih =>
    have le : targets.count node ≤ targets.countP (· ∉ done) := by
      rw [List.count]
      exact List.countP_mono_left fun other _ same => by simpa [beq_iff_eq.mp same] using isNew
    rw [List.countP_cons, List.countP_cons, List.count_cons, ih]
    by_cases same : target = node
    · subst same
      simp [isNew]
    · by_cases isDone : target ∈ done
      · simp [same, isDone]
      · simp [same, isDone] at le ⊢
        omega

theorem Swept.turn (swept : Swept dependencies done unresolved (node :: ready)) :
    ∃ unresolved' ready', ((dependents dependencies)[node]?.getD []).foldl release (unresolved, ready) =
      (unresolved', ready') ∧ Swept dependencies (done ++ [node]) unresolved' ready' := by
  obtain ⟨inside, isZero⟩ := (swept.resolved node).mp (by simp)
  have isNew : node ∉ done := fun isDone =>
    (List.nodup_append.mp swept.nodup).2.2 node isDone node (List.mem_cons_self ..) rfl
  have counted (other : ℕ) : ((dependents dependencies)[node]?.getD []).count other =
      (targets dependencies other).count node := count_dependents inside
  have enough (other : ℕ) : ((dependents dependencies)[node]?.getD []).count other ≤ unresolved[other]?.getD 0 := by
    rw [counted, swept.counts, List.count]
    exact List.countP_mono_left fun target _ same => by simpa [beq_iff_eq.mp same] using isNew
  obtain ⟨unresolved', new, folded, length, counts, nodup, member⟩ := @foldl_release unresolved ready _ enough
  refine ⟨unresolved', ready ++ new, folded, length.trans swept.length, fun other => ?_, ?_, fun other => ?_,
    swept.clears.snoc fun dependency isDependency => ?_⟩
  · rw [counts, counted, swept.counts, countP_snoc isNew]
  · have fresh : ∀ other ∈ new, other ∉ done ++ node :: ready := by
      intro other isReady resolved
      have before := ((swept.resolved other).mp resolved).2
      obtain ⟨released, _⟩ := (member other).mp isReady
      have some := List.count_pos_iff.mpr released
      have le := enough other
      omega
    have apart : (done ++ node :: ready).Disjoint new := fun other resolved isReady => fresh other isReady resolved
    simpa using swept.nodup.append nodup apart
  · have before := swept.resolved other
    have after := counts other
    have isReady := member other
    simp only [List.append_assoc, List.mem_append, List.mem_cons, List.not_mem_nil, or_false] at before ⊢
    have inside' : other ∈ (dependents dependencies)[node]?.getD [] → other < dependencies.length := by
      intro member
      have some := List.count_pos_iff.mpr member
      by_contra outside
      rw [counted, targets, List.getElem?_eq_none (by omega)] at some
      simp at some
    rw [isReady]
    have le := enough other
    constructor
    · rintro (isDone | isNode | isOld | ⟨released, isZero'⟩)
      · have resolved := before.mp (.inl isDone)
        omega
      · have resolved := before.mp (.inr (.inl isNode))
        omega
      · have resolved := before.mp (.inr (.inr isOld))
        omega
      · exact ⟨inside' released, isZero'⟩
    · rintro ⟨isInside, isZero'⟩
      rcases Nat.eq_zero_or_pos (unresolved[other]?.getD 0) with wasZero | wasPos
      · rcases before.mpr ⟨isInside, wasZero⟩ with isDone | isNode | isOld
        · exact .inl isDone
        · exact .inr (.inl isNode)
        · exact .inr (.inr (.inl isOld))
      · have isReleased : other ∈ (dependents dependencies)[node]?.getD [] := List.count_pos_iff.mp (by omega)
        exact .inr (.inr (.inr ⟨isReleased, isZero'⟩))
  · have none := swept.counts node
    rw [isZero] at none
    simpa using (List.countP_eq_zero.mp none.symm) dependency isDependency

/-- The sweep ends when no node is ready. -/
theorem Swept.sweep {fuel : ℕ} (swept : Swept dependencies done unresolved ready)
    (enough : dependencies.length ≤ done.length + fuel) : ∃ done',
      Swept dependencies done' (sweep (dependents dependencies) fuel (unresolved, ready)) [] := by
  induction fuel generalizing done unresolved ready with
  | zero =>
    -- All nodes are resolved, so none can be ready.
    have within : done ++ ready ⊆ List.range dependencies.length := fun node member =>
      List.mem_range.mpr ((swept.resolved node).mp member).1
    have le := (swept.nodup.subperm within).length_le
    rw [List.length_append, List.length_range] at le
    obtain rfl := List.eq_nil_of_length_eq_zero (by omega : ready.length = 0)
    exact ⟨done, swept⟩
  | succ fuel ih =>
    cases ready with
    | nil => exact ⟨done, swept⟩
    | cons node ready =>
      obtain ⟨unresolved', ready', released, swept'⟩ := swept.turn
      rw [Compiler.sweep, released]
      exact ih swept' (by simp; omega)

theorem swept_initial : Swept dependencies [] (dependencies.map List.length)
    (((dependencies.map List.length).zipIdx.filter fun (count, _) => count = 0).map Prod.snd) := by
  have get (node : ℕ) : (dependencies.map List.length)[node]?.getD 0 = (targets dependencies node).length := by
    cases found : dependencies[node]? <;> simp [targets, found]
  refine ⟨by simp, fun node => ?_, ?_, fun node => ?_, .nil⟩
  · rw [get]
    exact (List.countP_eq_length.mpr (by simp)).symm
  · rw [List.nil_append]
    refine List.Nodup.sublist (List.filter_sublist.map Prod.snd) ?_
    rw [List.zipIdx_map_snd]
    exact List.nodup_range'
  · simp only [List.nil_append, List.mem_map, List.mem_filter, decide_eq_true_eq, Prod.exists, exists_eq_right,
      List.mk_mem_zipIdx_iff_getElem?]
    constructor
    · intro found
      have inside := (List.getElem?_eq_some_iff.mp found).1
      rw [List.length_map] at inside
      exact ⟨inside, by rw [found, Option.getD_some]⟩
    · rintro ⟨inside, isZero⟩
      simpa [inside] using isZero

/-- What the sweep leaves unresolved. -/
private theorem exists_swept (dependencies : List (List ℕ)) : ∃ done, Swept dependencies done
    (sweep (dependents dependencies) dependencies.length (dependencies.map List.length,
      ((dependencies.map List.length).zipIdx.filter fun (count, _) => count = 0).map Prod.snd)) [] :=
  swept_initial.sweep (by simp)

/-- Without cyclic nodes all nodes can be cleared, each once. -/
theorem clears_of_cyclicNodes (none : cyclicNodes dependencies = []) : ∃ order,
    Clears (Depends dependencies) order ∧ order.Perm (List.range dependencies.length) := by
  obtain ⟨done, swept⟩ := exists_swept dependencies
  rw [cyclicNodes, List.filterMap_eq_nil_iff] at none
  have nodup := swept.nodup
  rw [List.append_nil] at nodup
  refine ⟨done, swept.clears, (List.perm_ext_iff_of_nodup nodup List.nodup_range).mpr fun node => ?_⟩
  have resolved := swept.resolved node
  rw [List.append_nil] at resolved
  rw [List.mem_range]
  refine resolved.trans (and_iff_left_of_imp fun inside => ?_)
  rw [← swept.length] at inside
  have isNone := none (_, node) (List.mk_mem_zipIdx_iff_getElem?.mpr (List.getElem?_eq_getElem inside))
  rw [List.getElem?_eq_getElem inside, Option.getD_some]
  simpa using isNone

/-- No node is cyclic exactly when the graph is well founded. -/
theorem cyclicNodes_eq_nil_iff (closed : ∀ node dependency, Depends dependencies node dependency →
    dependency < dependencies.length) :
    cyclicNodes dependencies = [] ↔ WellFounded fun dependency node => Depends dependencies node dependency := by
  constructor
  · intro none
    obtain ⟨order, clears, all⟩ := clears_of_cyclicNodes none
    refine ⟨fun node => .intro _ fun dependency isDependency => ?_⟩
    exact clears.acc dependency (all.mem_iff.mpr (List.mem_range.mpr (closed node dependency isDependency)))
  · intro wellFounded
    obtain ⟨done, swept⟩ := exists_swept dependencies
    rw [cyclicNodes, List.filterMap_eq_nil_iff]
    rintro ⟨count, node⟩ member
    have found := List.mk_mem_zipIdx_iff_getElem?.mp member
    generalize sweep _ _ _ = unresolved at swept found
    have isZero : unresolved[node]?.getD 0 = 0 := by
      by_contra nonzero
      have inside := swept.length ▸ (List.getElem?_eq_some_iff.mp found).1
      let stuck (node : ℕ) : Prop := node < dependencies.length ∧ unresolved[node]?.getD 0 ≠ 0
      have isStuck : stuck node := ⟨inside, nonzero⟩
      refine not_acc_of_stuck ?_ isStuck (wellFounded.apply node)
      rintro item ⟨_, isStuck⟩
      rw [swept.counts] at isStuck
      obtain ⟨dependency, isDependency, notDone⟩ := List.countP_pos_iff.mp (Nat.pos_of_ne_zero isStuck)
      have inside' := closed item dependency isDependency
      refine ⟨dependency, isDependency, inside', fun isZero => ?_⟩
      have resolved := (swept.resolved dependency).mpr ⟨inside', isZero⟩
      simp at notDone resolved
      exact notDone resolved
    rw [found, Option.getD_some] at isZero
    simp [isZero]

end CyclicNodes

section Each

variable {α β : Type} {each : ℕ → α → Option β}

private theorem mapM_getElem? {single : α → Option β} {items : List α} {results : List β}
    (mapped : items.mapM single = some results) (index : ℕ) : results[index]? = items[index]? >>= single := by
  induction items generalizing results index with
  | nil =>
    cases mapped
    rfl
  | cons item items ih =>
    simp only [List.mapM_cons, Option.bind_eq_bind, Option.bind_eq_some_iff, Option.pure_def] at mapped
    obtain ⟨first, isFirst, rest, isRest, same⟩ := mapped
    obtain rfl := Option.some.inj same
    cases index with
    | zero => simpa using isFirst.symm
    | succ index => simpa using ih isRest index

private theorem mapM_each {single : α → Option β} {items : List α} {results : List β}
    (mapped : items.mapM single = some results) : ∀ item ∈ items, ∃ result, single item = some result := by
  induction items generalizing results with
  | nil => simp
  | cons item items ih =>
    simp only [List.mapM_cons, Option.bind_eq_bind, Option.bind_eq_some_iff] at mapped
    obtain ⟨first, isFirst, rest, isRest, _⟩ := mapped
    intro other member
    rcases List.mem_cons.mp member with rfl | member
    · exact ⟨first, isFirst⟩
    · exact ih isRest other member

private theorem mapM_length {single : α → Option β} {items : List α} {results : List β}
    (mapped : items.mapM single = some results) : results.length = items.length := by
  induction items generalizing results with
  | nil =>
    cases mapped
    rfl
  | cons item items ih =>
    simp only [List.mapM_cons, Option.bind_eq_bind, Option.bind_eq_some_iff, Option.pure_def] at mapped
    obtain ⟨first, _, rest, isRest, same⟩ := mapped
    obtain rfl := Option.some.inj same
    rw [List.length_cons, List.length_cons, ih isRest]

private theorem mapM_more {single single' : α → Option β} {items : List α} {results : List β}
    (more : ∀ item ∈ items, ∀ result, single item = some result → single' item = some result)
    (mapped : items.mapM single = some results) : items.mapM single' = some results := by
  induction items generalizing results with
  | nil => exact mapped
  | cons item items ih =>
    simp only [List.mapM_cons, Option.bind_eq_bind, Option.bind_eq_some_iff, Option.pure_def] at mapped ⊢
    obtain ⟨first, isFirst, rest, isRest, same⟩ := mapped
    exact ⟨first, more item (List.mem_cons_self ..) first isFirst, rest,
      ih (fun other member => more other (List.mem_cons_of_mem _ member)) isRest, same⟩

/-- With enough fuel for each item there is enough for all. -/
private theorem mapM_total (total : ∀ item, ∃ fuel result, each fuel item = some result)
    (more : ∀ {fuel fuel'}, fuel ≤ fuel' → ∀ item result, each fuel item = some result → each fuel' item = some result)
    (items : List α) : ∃ fuel results, items.mapM (each fuel) = some results := by
  have together : ∃ fuel, ∀ item ∈ items, ∃ result, each fuel item = some result := by
    induction items with
    | nil => exact ⟨0, by simp⟩
    | cons item items ih =>
      obtain ⟨fuel, found⟩ := ih
      obtain ⟨fuel', result, isResult⟩ := total item
      refine ⟨max fuel fuel', fun other member => ?_⟩
      rcases List.mem_cons.mp member with rfl | member
      · exact ⟨result, more (le_max_right fuel fuel') _ _ isResult⟩
      · obtain ⟨result, isResult⟩ := found other member
        exact ⟨result, more (le_max_left fuel fuel') _ _ isResult⟩
  obtain ⟨fuel, found⟩ := together
  refine ⟨fuel, ?_⟩
  induction items with
  | nil => exact ⟨[], rfl⟩
  | cons item items ih =>
    obtain ⟨result, isResult⟩ := found item (List.mem_cons_self ..)
    obtain ⟨results, areResults⟩ := ih fun other member => found other (List.mem_cons_of_mem _ member)
    exact ⟨result :: results, by simp [List.mapM_cons, isResult, areResults]⟩

end Each

section Terms

/-- The global that a name refers to. -/
def mainGlobal (globals : Globals) (name : String) : Option ℕ := do
  let global ← stripPrefix "Main." name
  globals.lookup global

def collectDependenciesTurn (parsed : ParsedFile) (globals : Globals) :
    List ExprId × List ℕ → Option (Turn (List ExprId × List ℕ) (List ℕ))
  | ([], output) => some (.leave output)
  | (id :: work, output) =>
      match parsed.expression id with
      | .name name => some (.again (work, output ++ (mainGlobal globals name).toList))
      | .apply function argument => some (.again (function :: argument :: work, output))
      | .typeApply function _ => some (.again (function :: work, output))
      | .annotated expression _ => some (.again (expression :: work, output))
      | .lambda _ body => some (.again (body :: work, output))
      | .ifThenElse condition thenBranch elseBranch =>
          some (.again (condition :: thenBranch :: elseBranch :: work, output))
      | .doBlock statements => some (.again (statements.map DoStatement.expression ++ work, output))
      | .tuple elements => some (.again (elements ++ work, output))
      | .list elements => some (.again (elements ++ work, output))
      | .recordConstruction _ fields => some (.again (fields.map RecordFieldExpr.value ++ work, output))
      | .case scrutinee alternatives =>
          some (.again (scrutinee :: (alternatives.map CaseAlternative.expression ++ work), output))
      | .literal _ => some (.again (work, output))

def collectDependencies (fuel : ℕ) (parsed : ParsedFile) (globals : Globals) (id : ExprId) : Option (List ℕ) :=
  run (collectDependenciesTurn parsed globals) fuel ([id], [])

/-- `sort_unstable` and `dedup`. -/
def sortDedup (found : List ℕ) : List ℕ := (found.insertionSort (· ≤ ·)).dedup

def termDependencies (fuel : ℕ) (parsed : ParsedFile) (globals : Globals) : Declaration → Option (List ℕ)
  | .value declaration => (collectDependencies fuel parsed globals declaration.value).map sortDedup
  | _ => some []

def cycleNames (parsed : ParsedFile) (cycle : List ℕ) : String :=
  String.intercalate " -> " (cycle.filterMap fun index =>
    match parsed.declarations[index]? with
    | some (Declaration.value declaration) => some ("Main." ++ declaration.name)
    | _ => none)

def rejectCycles (fuel : ℕ) (parsed : ParsedFile) (globals : Globals) : Option (Except DiagnosticBundle Unit) := do
  let dependencies ← parsed.declarations.mapM (termDependencies fuel parsed globals)
  let cycle := cyclicNodes dependencies
  if cycle.isEmpty then some (.ok ())
  else
    let names := cycleNames parsed cycle
    some (.error [⟨"H0310", s!"cyclic term declarations are unsupported: {names}"⟩])

variable {parsed : ParsedFile} {globals : Globals} {fuel : ℕ}

/-- A part of the expression refers to the global. -/
def Refers (parsed : ParsedFile) (globals : Globals) (id : ExprId) (index : ℕ) : Prop :=
  ∃ part name, parsed.Contains id part ∧ parsed.expression part = .name name ∧ mainGlobal globals name = some index

/-- The body of the first global refers to the second. -/
def References (parsed : ParsedFile) (globals : Globals) (node index : ℕ) : Prop :=
  ∃ value, globalValue parsed node = some value ∧ Refers parsed globals value index

/-- The globals that an expression itself names. -/
def namedGlobals (globals : Globals) : Expr → List ℕ
  | .name name => (mainGlobal globals name).toList
  | _ => []

theorem collectDependenciesTurn_eq : collectDependenciesTurn parsed globals =
    Traversal.turn (fun id => (parsed.expression id).children) fun id => namedGlobals globals (parsed.expression id) := by
  funext ⟨work, output⟩
  cases work with
  | nil => rfl
  | cons id work =>
    simp only [collectDependenciesTurn, Traversal.turn]
    cases parsed.expression id <;> simp [Expr.children, namedGlobals]

theorem collectDependencies_total (parsed : ParsedFile) (globals : Globals) (id : ExprId) :
    ∃ found, Returns (collectDependenciesTurn parsed globals) ([id], []) found ∧
      ∀ index, index ∈ found ↔ Refers parsed globals id index := by
  rw [collectDependenciesTurn_eq]
  obtain ⟨found, returns, member⟩ := Traversal.traversal_returns
    (fun id => namedGlobals globals (parsed.expression id)) (fun _ _ => ParsedFile.child_lt) id
  refine ⟨found, returns, fun index => (member index).trans ⟨?_, ?_⟩⟩
  · rintro ⟨part, isPart, emitted⟩
    cases shape : parsed.expression part with
    | name name =>
      rw [shape] at emitted
      exact ⟨part, name, isPart, shape, Option.mem_toList.mp emitted⟩
    | _ =>
      rw [shape] at emitted
      cases emitted
  · rintro ⟨part, name, isPart, shape, isGlobal⟩
    refine ⟨part, isPart, ?_⟩
    rw [shape]
    exact Option.mem_toList.mpr isGlobal

theorem collectDependencies_mem {id : ExprId} {found : List ℕ}
    (collected : collectDependencies fuel parsed globals id = some found) (index : ℕ) :
    index ∈ found ↔ Refers parsed globals id index := by
  obtain ⟨found', returns, member⟩ := collectDependencies_total parsed globals id
  obtain rfl := returns.unique ⟨fuel, collected⟩
  exact member index

theorem mem_sortDedup {found : List ℕ} {index : ℕ} : index ∈ sortDedup found ↔ index ∈ found := by
  rw [sortDedup, List.mem_dedup, (List.perm_insertionSort _ found).mem_iff]

theorem termDependencies_mem {dependencies : List (List ℕ)}
    (collected : parsed.declarations.mapM (termDependencies fuel parsed globals) = some dependencies) (node index : ℕ) :
    Depends dependencies node index ↔ References parsed globals node index := by
  rw [Depends, targets, mapM_getElem? collected, References, globalValue]
  cases found : parsed.declarations[node]? with
  | none => simp
  | some declaration =>
    obtain ⟨result, isResult⟩ := mapM_each collected declaration (List.mem_of_getElem? found)
    rw [Option.bind_eq_bind, Option.bind_some, isResult, Option.getD_some]
    cases declaration with
    | value declaration =>
      obtain ⟨output, isOutput, rfl⟩ := Option.map_eq_some_iff.mp isResult
      simp [Declaration.value?, mem_sortDedup, collectDependencies_mem isOutput]
    | record | sum =>
      obtain rfl := Option.some.inj isResult
      simp [Declaration.value?]

theorem rejectCycles_total (parsed : ParsedFile) (globals : Globals) :
    ∃ fuel result, rejectCycles fuel parsed globals = some result := by
  have each (declaration : Declaration) : ∃ fuel result,
      termDependencies fuel parsed globals declaration = some result := by
    cases declaration with
    | value declaration =>
      obtain ⟨found, ⟨fuel, collected⟩, _⟩ := collectDependencies_total parsed globals declaration.value
      exact ⟨fuel, sortDedup found, by simp [termDependencies, collectDependencies, collected]⟩
    | record | sum => exact ⟨0, [], rfl⟩
  have more {fuel fuel' : ℕ} (le : fuel ≤ fuel') (declaration : Declaration) (result : List ℕ)
      (collected : termDependencies fuel parsed globals declaration = some result) :
      termDependencies fuel' parsed globals declaration = some result := by
    cases declaration with
    | value declaration =>
      obtain ⟨found, isFound, rfl⟩ := Option.map_eq_some_iff.mp collected
      have isFound' : collectDependencies fuel' parsed globals declaration.value = some found :=
        run_mono (fun _ _ same => same) le isFound
      simp [termDependencies, isFound']
    | record | sum => exact collected
  obtain ⟨fuel, dependencies, collected⟩ := mapM_total each more parsed.declarations
  refine ⟨fuel, ?_⟩
  rw [rejectCycles, collected]
  by_cases none : cyclicNodes dependencies = [] <;> simp [none]

private theorem references_closed {userTypes : UserTypes} (collected : collectGlobals parsed userTypes = .ok globals)
    {dependencies : List (List ℕ)}
    (isDependencies : parsed.declarations.mapM (termDependencies fuel parsed globals) = some dependencies)
    (node dependency : ℕ) (depends : Depends dependencies node dependency) : dependency < dependencies.length := by
  obtain ⟨_, _, _, name, _, _, isGlobal⟩ := (termDependencies_mem isDependencies node dependency).mp depends
  obtain ⟨global, _, isGlobal⟩ := Option.bind_eq_some_iff.mp isGlobal
  obtain ⟨value, isValue⟩ := Option.isSome_iff_exists.mp (global_declared collected isGlobal)
  obtain ⟨declaration, declared, _⟩ := Option.bind_eq_some_iff.mp isValue
  rw [mapM_length isDependencies]
  exact (List.getElem?_eq_some_iff.mp declared).1

/-- The check of the terms accepts exactly the files whose terms are well founded. -/
theorem rejectCycles_iff {userTypes : UserTypes} (collected : collectGlobals parsed userTypes = .ok globals)
    {result : Except DiagnosticBundle Unit} (checked : rejectCycles fuel parsed globals = some result) :
    result = .ok () ↔ WellFounded fun index node => References parsed globals node index := by
  obtain ⟨dependencies, isDependencies, decided⟩ := Option.bind_eq_some_iff.mp checked
  have same : (fun index node => References parsed globals node index) =
      fun index node => Depends dependencies node index := by
    funext index node
    exact propext (termDependencies_mem isDependencies node index).symm
  rw [same, ← cyclicNodes_eq_nil_iff (references_closed collected isDependencies)]
  by_cases none : cyclicNodes dependencies = []
  · simp only [none, List.isEmpty_nil, if_true, Option.some.injEq] at decided
    simp [none, ← decided]
  · simp only [List.isEmpty_iff, none, if_false, Option.some.injEq] at decided
    simp [none, ← decided]

/-- The declarations of an accepted file can be ordered with each after those to which it refers. -/
theorem references_clear (accepted : rejectCycles fuel parsed globals = some (.ok ())) : ∃ order : List ℕ,
    Clears (References parsed globals) order ∧ order.Perm (List.range parsed.declarations.length) := by
  obtain ⟨dependencies, isDependencies, decided⟩ := Option.bind_eq_some_iff.mp accepted
  have none : cyclicNodes dependencies = [] := by
    by_contra some
    simp [some] at decided
  have same : References parsed globals = Depends dependencies := by
    funext node index
    exact propext (termDependencies_mem isDependencies node index).symm
  rw [same, ← mapM_length isDependencies]
  exact clears_of_cyclicNodes none

end Terms

section Types

def collectTypesTurn (parsed : ParsedFile) (userTypes : UserTypes) :
    List TypeExprId × List ℕ → Option (Turn (List TypeExprId × List ℕ) (List ℕ))
  | ([], output) => some (.leave output)
  | (id :: work, output) =>
      match parsed.type id with
      | .name name => some (.again (work, output ++ (userTypes.byName.lookup name).toList))
      | .list item => some (.again (item :: work, output))
      | .tuple items => some (.again (items ++ work, output))
      | .function argument result => some (.again (argument :: result :: work, output))
      | .apply callee argument => some (.again (callee :: argument :: work, output))
      | .unit => some (.again (work, output))
      | .promoted _ => some (.again (work, output))

def collectTypes (fuel : ℕ) (parsed : ParsedFile) (userTypes : UserTypes) (id : TypeExprId) : Option (List ℕ) :=
  run (collectTypesTurn parsed userTypes) fuel ([id], [])

/-- The types of the fields or of the payloads. -/
def UserTypeShape.types : UserTypeShape → List TypeExprId
  | .record _ fields => fields.map UserField.ty
  | .variant constructors => constructors.filterMap UserConstructor.payload

def typeDependencies (fuel : ℕ) (parsed : ParsedFile) (userTypes : UserTypes) (definition : UserType) :
    Option (List ℕ) := do
  let found ← definition.shape.types.mapM (collectTypes fuel parsed userTypes)
  some (sortDedup found.flatten)

def rejectTypeCycles (fuel : ℕ) (parsed : ParsedFile) (userTypes : UserTypes) :
    Option (Except DiagnosticBundle Unit) := do
  let dependencies ← userTypes.definitions.mapM (typeDependencies fuel parsed userTypes)
  match cyclicNodes dependencies with
  | [] => some (.ok ())
  | cycle :: _ =>
      let name := (userTypes.definitions[cycle]?.map UserType.qualifiedName).getD ""
      some (.error [⟨"H0311", s!"cyclic user type declaration involving `{name}`"⟩])

variable {parsed : ParsedFile} {userTypes : UserTypes} {fuel : ℕ}

/-- A part of the type expression refers to the definition. -/
def RefersToType (parsed : ParsedFile) (userTypes : UserTypes) (id : TypeExprId) (index : ℕ) : Prop :=
  ∃ part name, parsed.ContainsType id part ∧ parsed.type part = .name name ∧
    userTypes.byName.lookup name = some index

/-- A field or payload of the first definition refers to the second. -/
def TypeReferences (parsed : ParsedFile) (userTypes : UserTypes) (node index : ℕ) : Prop :=
  ∃ definition, userTypes.definitions[node]? = some definition ∧
    ∃ id ∈ definition.shape.types, RefersToType parsed userTypes id index

/-- The definitions that a type expression itself names. -/
def namedTypes (userTypes : UserTypes) : TypeExpr → List ℕ
  | .name name => (userTypes.byName.lookup name).toList
  | _ => []

theorem collectTypesTurn_eq : collectTypesTurn parsed userTypes =
    Traversal.turn (fun id => (parsed.type id).children) fun id => namedTypes userTypes (parsed.type id) := by
  funext ⟨work, output⟩
  cases work with
  | nil => rfl
  | cons id work =>
    simp only [collectTypesTurn, Traversal.turn]
    cases parsed.type id <;> simp [TypeExpr.children, namedTypes]

theorem collectTypes_total (parsed : ParsedFile) (userTypes : UserTypes) (id : TypeExprId) :
    ∃ found, Returns (collectTypesTurn parsed userTypes) ([id], []) found ∧
      ∀ index, index ∈ found ↔ RefersToType parsed userTypes id index := by
  rw [collectTypesTurn_eq]
  obtain ⟨found, returns, member⟩ := Traversal.traversal_returns
    (fun id => namedTypes userTypes (parsed.type id)) (fun _ _ => ParsedFile.childType_lt) id
  refine ⟨found, returns, fun index => (member index).trans ⟨?_, ?_⟩⟩
  · rintro ⟨part, isPart, emitted⟩
    cases shape : parsed.type part with
    | name name =>
      rw [shape] at emitted
      exact ⟨part, name, isPart, shape, Option.mem_toList.mp emitted⟩
    | _ =>
      rw [shape] at emitted
      cases emitted
  · rintro ⟨part, name, isPart, shape, isType⟩
    refine ⟨part, isPart, ?_⟩
    rw [shape]
    exact Option.mem_toList.mpr isType

theorem collectTypes_mem {id : TypeExprId} {found : List ℕ}
    (collected : collectTypes fuel parsed userTypes id = some found) (index : ℕ) :
    index ∈ found ↔ RefersToType parsed userTypes id index := by
  obtain ⟨found', returns, member⟩ := collectTypes_total parsed userTypes id
  obtain rfl := returns.unique ⟨fuel, collected⟩
  exact member index

theorem typeDependencies_mem {dependencies : List (List ℕ)}
    (collected : userTypes.definitions.mapM (typeDependencies fuel parsed userTypes) = some dependencies)
    (node index : ℕ) : Depends dependencies node index ↔ TypeReferences parsed userTypes node index := by
  rw [Depends, targets, mapM_getElem? collected, TypeReferences]
  cases found : userTypes.definitions[node]? with
  | none => simp
  | some definition =>
    obtain ⟨result, isResult⟩ := mapM_each collected definition (List.mem_of_getElem? found)
    rw [Option.bind_eq_bind, Option.bind_some, isResult, Option.getD_some]
    obtain ⟨lists, areLists, same⟩ := Option.bind_eq_some_iff.mp isResult
    obtain rfl := Option.some.inj same
    simp only [mem_sortDedup, List.mem_flatten, Option.some.injEq, exists_eq_left']
    constructor
    · rintro ⟨list, member, isIn⟩
      obtain ⟨position, inside, rfl⟩ := List.mem_iff_getElem.mp member
      have here := mapM_getElem? areLists position
      rw [List.getElem?_eq_getElem inside] at here
      obtain ⟨id, isId, isList⟩ := Option.bind_eq_some_iff.mp here.symm
      exact ⟨id, List.mem_of_getElem? isId, (collectTypes_mem isList index).mp isIn⟩
    · rintro ⟨id, isId, refers⟩
      obtain ⟨position, inside, rfl⟩ := List.mem_iff_getElem.mp isId
      obtain ⟨list, isList⟩ := mapM_each areLists _ isId
      have here := mapM_getElem? areLists position
      rw [List.getElem?_eq_getElem inside, Option.bind_eq_bind, Option.bind_some, isList] at here
      exact ⟨list, List.mem_of_getElem? here, (collectTypes_mem isList index).mpr refers⟩

theorem rejectTypeCycles_total (parsed : ParsedFile) (userTypes : UserTypes) :
    ∃ fuel result, rejectTypeCycles fuel parsed userTypes = some result := by
  have more {fuel fuel' : ℕ} (le : fuel ≤ fuel') (id : TypeExprId) (found : List ℕ)
      (collected : collectTypes fuel parsed userTypes id = some found) :
      collectTypes fuel' parsed userTypes id = some found := run_mono (fun _ _ same => same) le collected
  have total (id : TypeExprId) : ∃ fuel found, collectTypes fuel parsed userTypes id = some found := by
    obtain ⟨found, ⟨fuel, collected⟩, _⟩ := collectTypes_total parsed userTypes id
    exact ⟨fuel, found, collected⟩
  have each (definition : UserType) : ∃ fuel result,
      typeDependencies fuel parsed userTypes definition = some result := by
    obtain ⟨fuel, found, collected⟩ := mapM_total total more definition.shape.types
    exact ⟨fuel, sortDedup found.flatten, by simp [typeDependencies, collected]⟩
  have moreEach {fuel fuel' : ℕ} (le : fuel ≤ fuel') (definition : UserType) (result : List ℕ)
      (collected : typeDependencies fuel parsed userTypes definition = some result) :
      typeDependencies fuel' parsed userTypes definition = some result := by
    obtain ⟨found, isFound, same⟩ := Option.bind_eq_some_iff.mp collected
    exact Option.bind_eq_some_iff.mpr ⟨found, mapM_more (fun id _ => more le id) isFound, same⟩
  obtain ⟨fuel, dependencies, collected⟩ := mapM_total each moreEach userTypes.definitions
  refine ⟨fuel, ?_⟩
  rw [rejectTypeCycles, collected]
  cases cycle : cyclicNodes dependencies <;> simp [cycle]

/-- The check of the data declarations accepts exactly the files whose data types are well founded. -/
theorem rejectTypeCycles_iff (collected : collectUserTypes parsed = .ok userTypes)
    {result : Except DiagnosticBundle Unit} (checked : rejectTypeCycles fuel parsed userTypes = some result) :
    result = .ok () ↔ WellFounded fun index node => TypeReferences parsed userTypes node index := by
  obtain ⟨dependencies, isDependencies, decided⟩ := Option.bind_eq_some_iff.mp checked
  have same : (fun index node => TypeReferences parsed userTypes node index) =
      fun index node => Depends dependencies node index := by
    funext index node
    exact propext (typeDependencies_mem isDependencies node index).symm
  have closed (node dependency : ℕ) (depends : Depends dependencies node dependency) :
      dependency < dependencies.length := by
    obtain ⟨_, _, _, _, _, name, _, _, isType⟩ := (typeDependencies_mem isDependencies node dependency).mp depends
    rw [mapM_length isDependencies]
    exact type_declared collected isType
  rw [same, ← cyclicNodes_eq_nil_iff closed]
  cases cycle : cyclicNodes dependencies with
  | nil =>
    rw [cycle] at decided
    simp [← Option.some.inj decided]
  | cons node rest =>
    rw [cycle] at decided
    simp [← Option.some.inj decided]

end Types

end HellRs.Compiler
