import HellRs.Lib.StableSort
import HellRs.Lists.Sort
import HellRs.Collections.Algebra

/-! # What the list sorts return

Whatever the comparator answers, a merge returns a permutation of its runs, and a round leaves fewer runs. If the
comparator answers like a lawful order, the runs stay such that merging neighbours makes the stable sort. Each topology
merges neighbours only, until one run is left.
-/

namespace HellRs.Lists

open Fallible Collections Std

variable {T κ σ ε : Type} {sorter : Sorter T σ ε} {cmp : κ → κ → Ordering} {key : T → κ}

/-- The answers that are given are those of a lawful order on the keys. -/
def Sorter.Compares (sorter : Sorter T σ ε) (cmp : κ → κ → Ordering) (key : T → κ) : Prop :=
  ∀ left right state answer state', sorter.greaterThan left right state = .ok (answer, state') →
    answer = (cmp (key left) (key right) == .gt)

/-- Merging two neighbouring runs keeps the invariant of the runs. -/
def Merges (sorter : Sorter T σ ε) (Inv : List (List T) → Prop) : Prop :=
  ∀ before left right after, Inv (before ++ left :: right :: after) →
    Ensures (mergeRuns sorter left right) fun merged => Inv (before ++ merged :: after)

section Merge

theorem mergeRuns_perm (sorter : Sorter T σ ε) (left right : List T) :
    Ensures (mergeRuns sorter left right) fun merged => merged.Perm (left ++ right) := by
  fun_induction mergeRuns sorter left right with
  | case1 right => exact .pure (.refl _)
  | case2 left => exact .pure (by rw [List.append_nil])
  | case3 leftItem left rightItem right ihRight ihLeft =>
    refine .bind_ask fun _ => .bind_ask fun greater => ?_
    cases greater with
    | true =>
      refine .bind ihRight fun merged perm => .pure ?_
      exact (perm.cons rightItem).trans List.perm_middle.symm
    | false => exact .bind ihLeft fun merged perm => .pure (perm.cons leftItem)

theorem mergeRuns_merge (compares : sorter.Compares cmp key) (left right : List T) :
    Ensures (mergeRuns sorter left right)
      (· = left.merge right fun item item' => (cmp (key item) (key item')).isLE) := by
  fun_induction mergeRuns sorter left right with
  | case1 right => exact .pure (by simp)
  | case2 left => exact .pure (by simp)
  | case3 leftItem left rightItem right ihRight ihLeft =>
    refine .bind_ask fun _ => .bind (.ask (compares leftItem rightItem)) fun greater answered => ?_
    rw [List.cons_merge_cons]
    cases order : cmp (key leftItem) (key rightItem) <;> rw [order] at answered <;> subst answered
    · exact .bind ihLeft fun merged same => .pure (by rw [same]; rfl)
    · exact .bind ihLeft fun merged same => .pure (by rw [same]; rfl)
    · exact .bind ihRight fun merged same => .pure (by rw [same]; rfl)

theorem merges_perm (sorter : Sorter T σ ε) (items : List T) : Merges sorter fun runs => runs.flatten.Perm items := by
  intro before left right after perm
  refine (mergeRuns_perm sorter left right).mono fun merged merge => .trans ?_ perm
  simp only [List.flatten_append, List.flatten_cons]
  rw [← List.append_assoc left]
  exact (merge.append_right _).append_left _

theorem merges_stable [TransCmp cmp] (compares : sorter.Compares cmp key) (items : List T) :
    Merges sorter (StableRuns cmp key items) := by
  intro before left right after stable
  exact (mergeRuns_merge compares left right).mono fun merged same => same ▸ stable.merge

end Merge

section Rounds

variable {Inv : List (List T) → Prop} (merges : Merges sorter Inv)
include merges

theorem mergeThree_keeps {before after : List (List T)} {first second third : List T}
    (holds : Inv (before ++ first :: second :: third :: after)) :
    Ensures (mergeThreeBase421 sorter first second third) fun merged => Inv (before ++ merged :: after) :=
  .bind (merges before first second (third :: after) holds) fun firstTwo holds =>
    merges before firstTwo third after holds

theorem mergeFour_keeps {before after : List (List T)} {first second third fourth : List T}
    (holds : Inv (before ++ first :: second :: third :: fourth :: after)) :
    Ensures (mergeFourBase421 sorter first second third fourth) fun merged => Inv (before ++ merged :: after) := by
  refine .bind (merges before first second _ holds) fun firstTwo holds => ?_
  rw [List.append_cons] at holds
  refine .bind (merges (before ++ [firstTwo]) third fourth after holds) fun secondTwo holds => ?_
  rw [← List.append_cons] at holds
  exact merges before firstTwo secondTwo after holds

/-- A round keeps the invariant and leaves at most half of the runs, rounded up, but some. -/
structure Round (Inv : List (List T) → Prop) (before runs reduced : List (List T)) : Prop where
  keeps : Inv (before ++ reduced)
  shorter : 2 * reduced.length ≤ runs.length + 1
  some : runs ≠ [] → reduced ≠ []

theorem reduceBase421Once_round {runs before : List (List T)} (holds : Inv (before ++ runs)) :
    Ensures (reduceBase421Once sorter runs) (Round Inv before runs) := by
  fun_induction reduceBase421Once sorter runs generalizing before with
  | case1 => exact .pure ⟨holds, by simp, by simp⟩
  | case2 first => exact .pure ⟨holds, by simp, by simp⟩
  | case3 first second =>
    exact .bind (merges before first second [] holds) fun merged holds => .pure ⟨holds, by simp, by simp⟩
  | case4 first second third =>
    exact .bind (mergeThree_keeps merges holds) fun merged holds => .pure ⟨holds, by simp, by simp⟩
  | case5 first second third fourth fifth =>
    refine .bind (merges before first second _ holds) fun front holds => ?_
    rw [List.append_cons] at holds
    refine .bind (mergeThree_keeps merges holds) fun back holds => .pure ⟨?_, by simp, by simp⟩
    rwa [← List.append_cons] at holds
  | case6 first second third fourth fifth sixth =>
    refine .bind (mergeThree_keeps merges holds) fun front holds => ?_
    rw [List.append_cons] at holds
    refine .bind (mergeThree_keeps merges holds) fun back holds => .pure ⟨?_, by simp, by simp⟩
    rwa [← List.append_cons] at holds
  | case7 first second third fourth runs _ _ ih =>
    refine .bind (mergeFour_keeps merges holds) fun front holds => ?_
    rw [List.append_cons] at holds
    refine .bind (ih holds) fun reduced round => .pure ⟨?_, ?_, by simp⟩
    · rw [List.append_cons]
      exact round.keeps
    · have shorter := round.shorter
      simp only [List.length_cons]
      omega

theorem mergePairs_round {runs before : List (List T)} (holds : Inv (before ++ runs)) :
    Ensures (mergePairs sorter runs) (Round Inv before runs) := by
  fun_induction mergePairs sorter runs generalizing before with
  | case1 => exact .pure ⟨holds, by simp, by simp⟩
  | case2 left => exact .pure ⟨holds, by simp, by simp⟩
  | case3 left right runs ih =>
    refine .bind (merges before left right runs holds) fun merged holds => ?_
    rw [List.append_cons] at holds
    refine .bind (ih holds) fun reduced round => .pure ⟨?_, ?_, by simp⟩
    · rw [List.append_cons]
      exact round.keeps
    · have shorter := round.shorter
      simp only [List.length_cons]
      omega

omit merges

/-- The rounds end with a single run, or with none if there was none, and the bound suffices. -/
theorem rounds_ensures {round : List (List T) → Fallible σ ε (List (List T))}
    (keeps : ∀ runs, Inv runs → Ensures (round runs) (Round Inv [] runs)) {bound : ℕ} {runs : List (List T)}
    (holds : Inv runs) (enough : runs.length < bound) :
    Ensures (rounds sorter round bound runs) fun reduced => Inv reduced ∧ reduced.length ≤ 1 ∧ (runs ≠ [] → reduced ≠ []) := by
  induction bound generalizing runs with
  | zero => omega
  | succ bound ih =>
    unfold rounds
    split
    next many =>
      refine .bind_ask fun _ => .bind (keeps runs holds) fun reduced round => ?_
      have shorter := round.shorter
      have holds : Inv reduced := round.keeps
      exact (ih holds (by omega)).mono fun last ⟨holds, single, left⟩ => ⟨holds, single, fun nonempty => left (round.some nonempty)⟩
    next few => exact .pure ⟨holds, by omega, id⟩

end Rounds

section Runs

/-- The items of a run that is not finished compare with their successors as the run says. -/
def Directed (cmp : κ → κ → Ordering) (key : T → κ) (descending : Bool) (run : List T) : Prop :=
  if descending then Decreasing cmp key run else NonDecreasing cmp key run

theorem finishRun_perm (descending : Bool) (run : List T) : (finishRun descending run).Perm run := by
  cases descending with
  | true => exact List.reverse_perm run
  | false => exact .refl run

theorem Directed.finish [TransCmp cmp] {descending : Bool} {run : List T} (directed : Directed cmp key descending run) :
    StableSort cmp key run (finishRun descending run) := by
  refine ⟨finishRun_perm descending run, ?_, fun bound => ?_⟩
  · cases descending with
    | true => exact nonDecreasing_reverse directed
    | false => exact directed
  · cases descending with
    | true => exact alike_reverse directed
    | false => rfl

theorem Directed.single (descending : Bool) (item : T) : Directed cmp key descending [item] := by
  cases descending <;> exact List.pairwise_singleton _ _

/-- A run goes on with an item that compares with its last item as the run says. -/
theorem Directed.append [TransCmp cmp] {descending : Bool} {run : List T} {current next : T}
    (directed : Directed cmp key descending (run ++ [current]))
    (same : (cmp (key current) (key next) == .gt) = descending) : Directed cmp key descending (run ++ [current] ++ [next]) := by
  cases descending with
  | true =>
    have greater : cmp (key current) (key next) = .gt := by simpa using same
    refine List.pairwise_append.mpr ⟨directed, List.pairwise_singleton _ _, fun item member _ last => ?_⟩
    obtain rfl := List.mem_singleton.mp last
    rcases List.mem_append.mp member with inRun | isCurrent
    · exact TransCmp.gt_trans ((List.pairwise_append.mp directed).2.2 item inRun current (List.mem_singleton_self _)) greater
    · rwa [List.mem_singleton.mp isCurrent]
  | false =>
    have notGreater : (cmp (key current) (key next)).isLE = true := by
      cases order : cmp (key current) (key next) <;> simp_all
    refine List.pairwise_append.mpr ⟨directed, List.pairwise_singleton _ _, fun item member _ last => ?_⟩
    obtain rfl := List.mem_singleton.mp last
    rcases List.mem_append.mp member with inRun | isCurrent
    · exact TransCmp.isLE_trans ((List.pairwise_append.mp directed).2.2 item inRun current (List.mem_singleton_self _)) notGreater
    · rwa [List.mem_singleton.mp isCurrent]

/-- What the runs of a list are: its items, and from a lawful comparator runs that make its stable sort. -/
structure RunsOf (lawful : Prop) (cmp : κ → κ → Ordering) (key : T → κ) (items : List T) (runs : List (List T)) : Prop where
  perm : runs.flatten.Perm items
  stable : lawful → StableRuns cmp key items runs
  some : items ≠ [] → runs ≠ []

variable [TransCmp cmp] {lawful : Prop} (compares : lawful → sorter.Compares cmp key)

theorem RunsOf.finish {descending : Bool} {run : List T} (directed : lawful → Directed cmp key descending run)
    {items : List T} {runs : List (List T)} (rest : RunsOf lawful cmp key items runs) :
    RunsOf lawful cmp key (run ++ items) (finishRun descending run :: runs) where
  perm := (finishRun_perm descending run).append rest.perm
  stable law := (directed law).finish.cons (rest.stable law)
  some _ := List.cons_ne_nil _ _

theorem RunsOf.nil : RunsOf lawful cmp key [] [] where
  perm := .refl []
  stable _ := ⟨.refl [], nofun, fun _ => rfl⟩
  some nonempty := absurd rfl nonempty

include compares

/-- The runs from the start of a run on, and those from inside one on. -/
theorem startRun_runs (remaining : List T) :
    (∀ first, Ensures (startRun sorter first remaining) (RunsOf lawful cmp key (first :: remaining))) ∧
      ∀ descending run current, (lawful → Directed cmp key descending (run ++ [current])) →
        Ensures (extendRun sorter descending run current remaining)
          (RunsOf lawful cmp key (run ++ [current] ++ remaining)) := by
  induction remaining with
  | nil =>
    refine ⟨fun first => ?_, fun descending run current directed => ?_⟩
    · have single : RunsOf lawful cmp key ([first] ++ []) (finishRun false [first] :: []) :=
        RunsOf.nil.finish fun _ => Directed.single false first
      rw [startRun]
      exact .pure single
    · rw [extendRun]
      exact .pure (RunsOf.nil.finish directed)
  | cons next remaining ih =>
    obtain ⟨starts, extends_⟩ := ih
    refine ⟨fun first => ?_, fun descending run current directed => ?_⟩
    · rw [startRun]
      refine .bind (.ask fun state answer state' answered law => compares law first next state answer state' answered)
        fun descending answered => ?_
      refine extends_ descending [first] next fun law => ?_
      have single : Directed cmp key descending ([] ++ [first]) := Directed.single descending first
      exact single.append (answered law).symm
    · rw [extendRun]
      refine .bind (.ask fun state answer state' answered law => compares law current next state answer state' answered)
        fun greater answered => ?_
      by_cases same : greater = descending
      · subst same
        rw [if_neg (by simp)]
        have longer := extends_ greater (run ++ [current]) next fun law => (directed law).append (answered law).symm
        rwa [List.append_assoc _ [next]] at longer
      · rw [if_pos (by simpa using same)]
        exact .bind (starts next) fun runs rest => .pure (rest.finish directed)

theorem naturalRuns_runs (items : List T) : Ensures (naturalRuns sorter items) (RunsOf lawful cmp key items) := by
  cases items with
  | nil => exact .pure .nil
  | cons first remaining => exact (startRun_runs compares remaining).1 first

end Runs

section Sorts

variable [TransCmp cmp] {lawful : Prop} {items : List T}

/-- The invariant of the rounds. -/
def Kept (lawful : Prop) (cmp : κ → κ → Ordering) (key : T → κ) (items : List T) (runs : List (List T)) : Prop :=
  runs.flatten.Perm items ∧ (lawful → StableRuns cmp key items runs)

/-- A permutation of the items, and from a lawful comparator their stable sort. -/
def Sorted (lawful : Prop) (cmp : κ → κ → Ordering) (key : T → κ) (items output : List T) : Prop :=
  output.Perm items ∧ (lawful → StableSort cmp key items output)

theorem Kept.single {output : List T} (kept : Kept lawful cmp key items [output]) : Sorted lawful cmp key items output :=
  ⟨by simpa using kept.1, fun law => (kept.2 law).single⟩

theorem kept_singletons (lawful : Prop) (items : List T) : Kept lawful cmp key items (items.map fun item => [item]) := by
  have flat : (items.map fun item => [item]).flatten = items := by
    induction items with
    | nil => rfl
    | cons item items ih => rw [List.map_cons, List.flatten_cons, ih, List.singleton_append]
  refine ⟨.of_eq flat, fun _ => ⟨.of_eq flat, fun run member => ?_, fun bound => by rw [flat]⟩⟩
  obtain ⟨item, -, rfl⟩ := List.mem_map.mp member
  exact List.pairwise_singleton _ _

variable (compares : lawful → sorter.Compares cmp key)
include compares

theorem merges_kept (items : List T) : Merges sorter (Kept lawful cmp key items) := by
  intro before left right after ⟨perm, stable⟩
  by_cases law : lawful
  · refine ((merges_perm sorter items before left right after perm).and
      (merges_stable (compares law) items before left right after (stable law))).mono fun merged ⟨perm, stable⟩ => ?_
    exact ⟨perm, fun _ => stable⟩
  · exact (merges_perm sorter items before left right after perm).mono fun merged perm => ⟨perm, fun law' => absurd law' law⟩

theorem base421Sort_sorts (items : List T) : Ensures (base421Sort sorter items) (Sorted lawful cmp key items) := by
  have merges := merges_kept compares items
  have start : Kept lawful cmp key items (items.map fun item => [item]) := kept_singletons lawful items
  unfold base421Sort
  split
  next => exact .pure ⟨.refl _, fun _ => ⟨.refl _, .nil, fun _ => rfl⟩⟩
  next first => exact .pure start.single
  next first second => exact (merges [] [first] [second] [] start).mono fun _ kept => kept.single
  next first second third => exact (@mergeThree_keeps _ _ _ _ _ merges [] _ _ _ _ start).mono fun _ kept => kept.single
  next first second third fourth => exact (@mergeFour_keeps _ _ _ _ _ merges [] _ _ _ _ _ start).mono fun _ kept => kept.single
  next nonempty _ _ _ _ =>
    refine .bind (naturalRuns_runs compares items) fun runs found => ?_
    have kept : Kept lawful cmp key items runs := ⟨found.perm, found.stable⟩
    refine .bind (rounds_ensures (fun runs holds => @reduceBase421Once_round _ _ _ _ _ merges runs [] holds) kept
      (Nat.lt_succ_self _)) fun reduced ⟨kept, few, left⟩ => ?_
    have left := left (found.some nonempty)
    match reduced with
    | [] => exact absurd rfl left
    | [output] => exact .expect rfl kept.single
    | _ :: _ :: _ => simp at few

theorem naturalMergeSort_sorts (items : List T) :
    Ensures (naturalMergeSort sorter items) (Sorted lawful cmp key items) := by
  have merges := merges_kept compares items
  refine .bind (naturalRuns_runs compares items) fun runs found => ?_
  have kept : Kept lawful cmp key items runs := ⟨found.perm, found.stable⟩
  refine .bind (rounds_ensures (fun runs holds => @mergePairs_round _ _ _ _ _ merges runs [] holds) kept
    (Nat.lt_succ_self _)) fun reduced ⟨kept, few, _⟩ => .pure ?_
  match reduced with
  | [] =>
    obtain rfl : items = [] := List.nil_perm.mp kept.1
    exact ⟨.refl _, fun _ => ⟨.refl _, .nil, fun _ => rfl⟩⟩
  | [output] => exact kept.single
  | _ :: _ :: _ => simp at few

end Sorts

section Total

/-- The evaluator answers whatever the sort asks. -/
structure Sorter.Total (sorter : Sorter T σ ε) : Prop where
  ensureNotCancelled (state : σ) (error : ε) : sorter.ensureNotCancelled state ≠ .error error
  greaterThan (left right : T) (state : σ) (error : ε) : sorter.greaterThan left right state ≠ .error error

variable (total : sorter.Total)
include total

theorem mergeRuns_total (left right : List T) : NeverFails (mergeRuns sorter left right) := by
  fun_induction mergeRuns sorter left right with
  | case1 right => exact .pure _
  | case2 left => exact .pure _
  | case3 leftItem left rightItem right ihRight ihLeft =>
    refine .bind (.ask total.ensureNotCancelled) fun _ => .bind (.ask (total.greaterThan leftItem rightItem)) fun greater => ?_
    cases greater with
    | true => exact .bind ihRight fun _ => .pure _
    | false => exact .bind ihLeft fun _ => .pure _

theorem mergeThree_total (first second third : List T) : NeverFails (mergeThreeBase421 sorter first second third) :=
  .bind (mergeRuns_total total first second) fun firstTwo => mergeRuns_total total firstTwo third

theorem mergeFour_total (first second third fourth : List T) :
    NeverFails (mergeFourBase421 sorter first second third fourth) :=
  .bind (mergeRuns_total total first second) fun firstTwo => .bind (mergeRuns_total total third fourth) fun secondTwo =>
    mergeRuns_total total firstTwo secondTwo

theorem startRun_total (remaining : List T) : (∀ first, NeverFails (startRun sorter first remaining)) ∧
    ∀ descending run current, NeverFails (extendRun sorter descending run current remaining) := by
  induction remaining with
  | nil =>
    refine ⟨fun first => ?_, fun descending run current => ?_⟩
    · rw [startRun]
      exact .pure _
    · rw [extendRun]
      exact .pure _
  | cons next remaining ih =>
    obtain ⟨starts, extends_⟩ := ih
    refine ⟨fun first => ?_, fun descending run current => ?_⟩
    · rw [startRun]
      exact .bind (.ask (total.greaterThan first next)) fun descending => extends_ descending [first] next
    · rw [extendRun]
      refine .bind (.ask (total.greaterThan current next)) fun greater => ?_
      split
      next => exact .bind (starts next) fun _ => .pure _
      next => exact extends_ descending (run ++ [current]) next

theorem naturalRuns_total (items : List T) : NeverFails (naturalRuns sorter items) := by
  cases items with
  | nil => exact .pure _
  | cons first remaining => exact (startRun_total total remaining).1 first

theorem reduceBase421Once_total (runs : List (List T)) : NeverFails (reduceBase421Once sorter runs) := by
  fun_induction reduceBase421Once sorter runs with
  | case1 => exact .pure _
  | case2 first => exact .pure _
  | case3 first second => exact .bind (mergeRuns_total total first second) fun _ => .pure _
  | case4 first second third => exact .bind (mergeThree_total total first second third) fun _ => .pure _
  | case5 first second third fourth fifth =>
    exact .bind (mergeRuns_total total first second) fun _ =>
      .bind (mergeThree_total total third fourth fifth) fun _ => .pure _
  | case6 first second third fourth fifth sixth =>
    exact .bind (mergeThree_total total first second third) fun _ =>
      .bind (mergeThree_total total fourth fifth sixth) fun _ => .pure _
  | case7 first second third fourth runs _ _ ih =>
    exact .bind (mergeFour_total total first second third fourth) fun _ => .bind ih fun _ => .pure _

theorem mergePairs_total (runs : List (List T)) : NeverFails (mergePairs sorter runs) := by
  fun_induction mergePairs sorter runs with
  | case1 => exact .pure _
  | case2 left => exact .pure _
  | case3 left right runs ih => exact .bind (mergeRuns_total total left right) fun _ => .bind ih fun _ => .pure _

theorem rounds_total {round : List (List T) → Fallible σ ε (List (List T))} (never : ∀ runs, NeverFails (round runs))
    (bound : ℕ) (runs : List (List T)) : NeverFails (rounds sorter round bound runs) := by
  induction bound generalizing runs with
  | zero => nofun
  | succ bound ih =>
    unfold rounds
    split
    next => exact .bind (.ask total.ensureNotCancelled) fun _ => .bind (never runs) fun reduced => ih reduced
    next => exact .pure _

theorem base421Sort_total (items : List T) : NeverFails (base421Sort sorter items) := by
  unfold base421Sort
  split
  next => exact .pure _
  next first => exact .pure _
  next first second => exact mergeRuns_total total _ _
  next first second third => exact mergeThree_total total _ _ _
  next first second third fourth => exact mergeFour_total total _ _ _ _
  next =>
    exact .bind (naturalRuns_total total items) fun runs =>
      .bind (rounds_total total (reduceBase421Once_total total) _ runs) fun reduced => .expect _

theorem naturalMergeSort_total (items : List T) : NeverFails (naturalMergeSort sorter items) :=
  .bind (naturalRuns_total total items) fun runs =>
    .bind (rounds_total total (mergePairs_total total) _ runs) fun _ => .pure _

end Total

/-- What the computation returns is of the kind, and it returns if all is answered. -/
def Gives (total : Prop) (computation : Fallible σ ε (List T)) (post : List T → Prop) : Prop :=
  Ensures computation post ∧ (total → Succeeds computation post)

theorem Gives.of_ensures {total : Prop} {computation : Fallible σ ε (List T)} {post : List T → Prop}
    (ensures : Ensures computation post) (never : total → NeverFails computation) : Gives total computation post :=
  ⟨ensures, fun all => ensures.succeeds (never all)⟩

namespace Evaluator

variable {evaluator : Evaluator κ σ ε}

/-- The evaluator answers whatever a sort asks. -/
structure Total (evaluator : Evaluator κ σ ε) : Prop where
  ensureNotCancelled (state : σ) (error : ε) : evaluator.ensureNotCancelled state ≠ .error error
  answers : evaluator.answers.Total

theorem compareGreaterThan_answer (lawful : evaluator.answers.Lawful cmp) {left right : κ} {state state' : σ} {answer : Bool}
    (answered : evaluator.compareGreaterThan left right state = .ok (answer, state')) :
    answer = (cmp left right == .gt) := by
  obtain ⟨equal, state₁, equalAnswer, rest⟩ := bind_eq_ok_iff.mp answered
  have isEqual := lawful.equalValues equalAnswer
  cases equal with
  | true =>
    cases rest
    rw [eq_of_beq isEqual.symm]
    rfl
  | false =>
    obtain ⟨less, state₂, lessAnswer, rest⟩ := bind_eq_ok_iff.mp rest
    have isLess := lawful.less lessAnswer
    cases rest
    cases order : cmp left right
    · rw [isLess, order]
      rfl
    · rw [order] at isEqual
      cases isEqual
    · rw [isLess, order]
      rfl

theorem compareGreaterThan_total (total : evaluator.answers.Total) (left right : κ) (state : σ) (error : ε) :
    evaluator.compareGreaterThan left right state ≠ .error error := by
  refine bind_ne_error (total.equalValues left right) (fun equal => ?_) state error
  cases equal with
  | true => exact fun _ _ => nofun
  | false => exact bind_ne_error (total.less left right) fun _ _ _ => nofun

theorem reviewedSortGreaterThan_total (total : evaluator.answers.Total) (oracle : NativeOracleListSort) (left right : κ)
    (state : σ) (error : ε) : evaluator.reviewedSortGreaterThan oracle left right state ≠ .error error := by
  unfold reviewedSortGreaterThan
  split
  next => exact total.less right left state error
  next => exact compareGreaterThan_total total left right state error

theorem reviewedSortGreaterThan_answer [TransCmp cmp] (lawful : evaluator.answers.Lawful cmp) {oracle : NativeOracleListSort}
    {left right : κ} {state state' : σ} {answer : Bool}
    (answered : evaluator.reviewedSortGreaterThan oracle left right state = .ok (answer, state')) :
    answer = (cmp left right == .gt) := by
  unfold reviewedSortGreaterThan at answered
  split at answered
  next =>
    rw [lawful.less answered, @OrientedCmp.eq_swap _ cmp _ right]
    cases cmp left right <;> rfl
  next => exact compareGreaterThan_answer lawful answered

section Sorts

variable [TransCmp cmp] {oracle : NativeOracleListSort}

theorem sortWith_sorts {greaterThan : T → T → StateT σ (Except ε) Bool}
    (compares : Sorter.Compares ⟨evaluator.ensureNotCancelled, greaterThan⟩ cmp key) (items : List T) :
    Ensures (evaluator.sortWith oracle greaterThan items) (StableSort cmp key items) := by
  unfold sortWith
  split
  next => exact (base421Sort_sorts (fun _ : True => compares) items).mono fun _ sorted => sorted.2 trivial
  next => exact (naturalMergeSort_sorts (fun _ : True => compares) items).mono fun _ sorted => sorted.2 trivial

omit [TransCmp cmp] in
theorem sortWith_total {greaterThan : T → T → StateT σ (Except ε) Bool}
    (total : Sorter.Total ⟨evaluator.ensureNotCancelled, greaterThan⟩) (items : List T) :
    NeverFails (evaluator.sortWith oracle greaterThan items) := by
  unfold sortWith
  split
  next => exact base421Sort_total total items
  next => exact naturalMergeSort_total total items

theorem decorate_ensures (key : T → κ) (values : List T) :
    Ensures (evaluator.decorate key values) (· = values.map fun value => (key value, value)) := by
  induction values with
  | nil => exact .pure rfl
  | cons value values ih => exact .bind_ask fun _ => .bind ih fun _ same => .pure (by rw [same]; rfl)

theorem decorate_total (total : evaluator.Total) (key : T → κ) (values : List T) : NeverFails (evaluator.decorate key values) := by
  induction values with
  | nil => exact .pure _
  | cons value values ih => exact .bind (.ask total.ensureNotCancelled) fun _ => .bind ih fun _ => .pure _

theorem sortListOn_sorts (lawful : evaluator.answers.Lawful cmp) (key : T → κ) (values : List T) :
    Ensures (evaluator.sortListOn oracle key values) (StableSort cmp key values) := by
  refine .bind (decorate_ensures key values) fun decorated same => ?_
  subst same
  refine .bind (sortWith_sorts (fun _ _ _ _ _ answered => compareGreaterThan_answer lawful answered) _) fun sorted stable =>
    .pure ?_
  -- the pairs are in the order of their values
  have values' := stableSort_mergeSort cmp key values
  rw [stable.unique (values'.map fun _ => rfl), List.map_map]
  exact (List.map_id _).symm ▸ values'

theorem sort_sorts (lawful : evaluator.answers.Lawful cmp) (items : List κ) :
    Ensures (evaluator.sort oracle items) (StableSort cmp id items) :=
  sortWith_sorts (fun _ _ _ _ _ answered => reviewedSortGreaterThan_answer lawful answered) items

theorem sortListOn_total (total : evaluator.Total) (key : T → κ) (values : List T) :
    NeverFails (evaluator.sortListOn oracle key values) :=
  .bind (decorate_total total key values) fun decorated =>
    .bind (sortWith_total ⟨total.ensureNotCancelled, fun _ _ => compareGreaterThan_total total.answers _ _⟩ decorated) fun _ => .pure _

theorem sort_total (total : evaluator.Total) (items : List κ) : NeverFails (evaluator.sort oracle items) :=
  sortWith_total ⟨total.ensureNotCancelled, reviewedSortGreaterThan_total total.answers oracle⟩ items

end Sorts

end Evaluator

/-- Whatever the comparator answers, the four-way sort returns a permutation of the items. For a lawful order there is one
list, the stable sort, that both topologies return, and so do the sort by a key and the sort of the keys themselves. -/
theorem sorting [TransCmp cmp] {evaluator : Evaluator κ σ ε} (lawful : evaluator.answers.Lawful cmp) (key : T → κ)
    (items : List T) :
    (∀ sorter : Sorter T σ ε, Gives sorter.Total (base421Sort sorter items) fun sorted => sorted.Perm items) ∧
      ∃ sorted, StableSort cmp key items sorted ∧
        (∀ sorter : Sorter T σ ε, sorter.Compares cmp key → Gives sorter.Total (base421Sort sorter items) (· = sorted) ∧
          Gives sorter.Total (naturalMergeSort sorter items) (· = sorted)) ∧
        ∀ oracle, Gives evaluator.Total (evaluator.sortListOn oracle key items) (· = sorted) ∧
          Gives evaluator.Total (evaluator.sort oracle (items.map key)) (· = sorted.map key) := by
  refine ⟨fun sorter => ?_, _, stableSort_mergeSort cmp key items, fun sorter compares => ⟨?_, ?_⟩, fun oracle => ⟨?_, ?_⟩⟩
  · have sorts : Ensures (base421Sort sorter items) (Sorted False cmp key items) := base421Sort_sorts nofun items
    exact .of_ensures (sorts.mono fun _ sorted => sorted.1) fun total => base421Sort_total total items
  · have sorts := base421Sort_sorts (fun _ : True => compares) items
    exact .of_ensures (sorts.mono fun _ sorted => (sorted.2 trivial).unique (stableSort_mergeSort cmp key items))
      fun total => base421Sort_total total items
  · have sorts := naturalMergeSort_sorts (fun _ : True => compares) items
    exact .of_ensures (sorts.mono fun _ sorted => (sorted.2 trivial).unique (stableSort_mergeSort cmp key items))
      fun total => naturalMergeSort_total total items
  · exact .of_ensures ((Evaluator.sortListOn_sorts lawful key items).mono fun _ stable =>
      stable.unique (stableSort_mergeSort cmp key items)) fun total => Evaluator.sortListOn_total total key items
  · exact .of_ensures ((Evaluator.sort_sorts lawful (items.map key)).mono fun _ stable =>
      stable.unique ((stableSort_mergeSort cmp key items).map fun _ => rfl)) fun total => Evaluator.sort_total total _

def numberEvaluator : Evaluator ℕ Unit Unit := ⟨pure (), numberAnswers⟩

theorem sorting_numbers : Succeeds (numberEvaluator.sort .Ghc912Base421FourWay [3, 1, 2, 3, 5, 4]) (·.Perm [3, 1, 2, 3, 5, 4]) := by
  obtain ⟨-, sorted, stable, -, sorts⟩ :=
    @sorting ℕ ℕ Unit Unit compare inferInstance numberEvaluator numberAnswers_lawful id [3, 1, 2, 3, 5, 4]
  have total : numberEvaluator.Total := ⟨fun _ _ => nofun, numberAnswers_total⟩
  intro state
  obtain ⟨value, state', returned, rfl⟩ := (sorts .Ghc912Base421FourWay).2.2 total state
  exact ⟨_, state', returned, (List.map_id sorted).symm ▸ stable.perm⟩

end HellRs.Lists
