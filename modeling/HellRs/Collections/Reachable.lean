import HellRs.Collections.Maps
import HellRs.Collections.Sets

/-! # Every tree a program can make

A program makes trees by calls on trees it has made. Each call starts from a state of its own, so the comparisons
may answer one thing in one call and another thing in the next.
-/

namespace HellRs.Collections

open Ordnode Fallible Std

variable {T κ α σ ε : Type}

/-- The calls that maps and sets share, of which `link`, `glue` and the rest are made by others only. -/
inductive TreeCall (T κ : Type) where
  | fromSorted (items : List T)
  | singleton (item : T)
  | insert (item : T) (tree : Tree T)
  | remove (bound : κ) (tree : Tree T)
  | splitLower (bound : κ) (tree : Tree T)
  | splitUpper (bound : κ) (tree : Tree T)
  | link (item : T) (left right : Tree T)
  | glue (left right : Tree T)
  | mergeNodes (left right : Tree T)

inductive MapCall (κ α σ ε : Type) where
  | tree (call : TreeCall (κ × α) κ)
  | fromList (entries : List (κ × α))
  | insertWith (function : α → α → α) (key : κ) (item : α) (map : Tree (κ × α))
  | adjust (function : α → α) (key : κ) (map : Tree (κ × α))
  | unionWith (function : α → α → α) (left right : Tree (κ × α))
  | filter (predicate : κ → α → StateT σ (Except ε) Bool) (map : Tree (κ × α))
  | values (function : α → α) (map : Tree (κ × α))

inductive SetCall (κ : Type) where
  | tree (call : TreeCall κ κ)
  | fromList (input : List κ)
  | insert (element : κ) (set : Tree κ)
  | union (left right : Tree κ)
  | difference (left right : Tree κ)
  | intersection (left right : Tree κ)

section Calls

def TreeCall.operands : TreeCall T κ → List (Tree T)
  | .fromSorted _ | .singleton _ => []
  | .insert _ tree | .remove _ tree | .splitLower _ tree | .splitUpper _ tree => [tree]
  | .link _ left right | .glue left right | .mergeNodes left right => [left, right]

/-- What the callers of a builder promise: the items come in an accepted order, and two trees are glued only when a
node could hold them. -/
def TreeCall.Allowed (accepted : List T → Prop) : TreeCall T κ → Prop
  | .fromSorted items => accepted items
  | .link item left right => accepted (left.toList ++ item :: right.toList)
  | .glue left right => BalancedSz left.size right.size ∧ accepted (left.toList ++ right.toList)
  | .mergeNodes left right => accepted (left.toList ++ right.toList)
  | _ => True

def TreeCall.run (answers : Answers κ σ ε) (key : T → κ) : TreeCall T κ → Fallible σ ε (Tree T)
  | .fromSorted items => return Collections.fromSorted items
  | .singleton item => return TreeNode.new item .nil .nil
  | .insert item tree => Collections.insert (fun left right => compareKeysWithOrdAdapters answers (key left) (key right)) item tree
  | .remove bound tree => Collections.remove (fun item => compareKeysWithOrdAdapters answers bound (key item)) tree
  | .splitLower bound tree => do
    let (lower, _, _) ← splitLookup (fun item => compareKeysWithOrdAdapters answers bound (key item)) tree
    return lower
  | .splitUpper bound tree => do
    let (_, _, upper) ← splitLookup (fun item => compareKeysWithOrdAdapters answers bound (key item)) tree
    return upper
  | .link item left right => expect (Collections.link item left right)
  | .glue left right => expect (Collections.glue left right)
  | .mergeNodes left right => expect (Collections.mergeNodes left right)

def MapCall.operands : MapCall κ α σ ε → List (Tree (κ × α))
  | .tree call => call.operands
  | .fromList _ => []
  | .insertWith _ _ _ map | .adjust _ _ map | .filter _ map | .values _ map => [map]
  | .unionWith _ left right => [left, right]

def MapCall.Allowed (accepted : List (κ × α) → Prop) : MapCall κ α σ ε → Prop
  | .tree call => call.Allowed accepted
  | _ => True

def MapCall.run (answers : Answers κ σ ε) : MapCall κ α σ ε → Fallible σ ε (Tree (κ × α))
  | .tree call => call.run answers Prod.fst
  | .fromList entries => mapFromEntries answers entries
  | .insertWith function key item map => mapInsertWith answers function key item map
  | .adjust function key map => mapAdjust answers function key map
  | .unionWith function left right => mapUnionEntries answers function left right
  | .filter predicate map => mapFilter predicate map
  | .values function map => return mapValues function map

def SetCall.operands : SetCall κ → List (Tree κ)
  | .tree call => call.operands
  | .fromList _ => []
  | .insert _ set => [set]
  | .union left right | .difference left right | .intersection left right => [left, right]

def SetCall.Allowed (accepted : List κ → Prop) : SetCall κ → Prop
  | .tree call => call.Allowed accepted
  | _ => True

def SetCall.run [DecidableEq κ] (answers : Answers κ σ ε) : SetCall κ → Fallible σ ε (Tree κ)
  | .tree call => call.run answers id
  | .fromList input => setTreeFromList answers input
  | .insert element set => setInsertReplacing answers element set
  | .union left right => setUnionTree answers left right
  | .difference left right => setDifferenceTree answers left right
  | .intersection left right => setIntersectionTree answers left right

end Calls

/-- The trees made by calls on trees that have been made. -/
inductive Made {Call : Type} (operands : Call → List (Tree T)) (allowed : Call → Prop)
    (run : Call → Fallible σ ε (Tree T)) : Tree T → Prop
  | call (call : Call) (isAllowed : allowed call) (made : ∀ tree ∈ operands call, Made operands allowed run tree)
      (state state' : σ) (tree : Tree T) (returned : run call state = .ok (tree, state')) :
      Made operands allowed run tree

abbrev MapMade (answers : Answers κ σ ε) (accepted : List (κ × α) → Prop) : Tree (κ × α) → Prop :=
  Made MapCall.operands (MapCall.Allowed accepted) (MapCall.run answers)

abbrev SetMade [DecidableEq κ] (answers : Answers κ σ ε) (accepted : List κ → Prop) : Tree κ → Prop :=
  Made SetCall.operands (SetCall.Allowed accepted) (SetCall.run answers)

theorem Made.invariant {Call : Type} {operands : Call → List (Tree T)} {allowed : Call → Prop}
    {run : Call → Fallible σ ε (Tree T)} {holds : Tree T → Prop}
    (keeps : ∀ call, allowed call → (∀ tree ∈ operands call, holds tree) → Ensures (run call) holds)
    {tree : Tree T} (made : Made operands allowed run tree) : holds tree := by
  induction made with
  | call call isAllowed _ _ _ _ returned ih => exact (keeps call isAllowed ih).of_ok returned

section Invariant

variable {cmp : κ → κ → Ordering} [TransCmp cmp] {lawful : Prop} {answers : Answers κ σ ε}

omit [TransCmp cmp] in
theorem inOrder_of_builds {key : T → κ} {accepted : List T → Prop} {result : Option (Tree T)} {items : List T}
    (increasing : lawful → ∀ items, accepted items → Increasing cmp key items) (builds : Builds result items)
    (isAccepted : accepted items) : Ensures (expect result : Fallible σ ε (Tree T)) (InOrder cmp key lawful) := by
  obtain ⟨tree, built, balanced, rfl⟩ := builds
  exact .expect built ⟨balanced, fun law => increasing law _ isAccepted, by simp⟩

theorem TreeCall.run_inOrder (isLawful : lawful → answers.Lawful cmp) {key : T → κ} {accepted : List T → Prop}
    (increasing : lawful → ∀ items, accepted items → Increasing cmp key items) (call : TreeCall T κ)
    (allowed : call.Allowed accepted) (operands : ∀ tree ∈ call.operands, InOrder cmp key lawful tree) :
    Ensures (call.run answers key) (InOrder cmp key lawful) := by
  have compares (bound : κ) := compareKeysWithOrdAdapters_compares isLawful bound key
  cases call with
  | fromSorted items => exact .pure (.of_sorted (fun law => increasing law items allowed) (by simp))
  | singleton item => exact .pure (.singleton fun _ => trivial)
  | insert item tree =>
    exact insertNode_arranged (compares (key item)) (fun _ _ => .pure (by simp)) (fun _ => .pure (.inl rfl))
      (operands tree (List.mem_singleton_self _)) fun _ => trivial
  | remove bound tree => exact remove_arranged (compares bound) (operands tree (List.mem_singleton_self _))
  | splitLower bound tree =>
    exact .bind (splitLookup_arranged (compares bound) (operands tree (List.mem_singleton_self _)))
      fun (_, _, _) ⟨lower, _⟩ => .pure (lower.mono fun _ _ => trivial)
  | splitUpper bound tree =>
    exact .bind (splitLookup_arranged (compares bound) (operands tree (List.mem_singleton_self _)))
      fun (_, _, _) ⟨_, upper⟩ => .pure (upper.mono fun _ _ => trivial)
  | link item left right =>
    exact inOrder_of_builds increasing (link_builds item left right (operands left (by simp [TreeCall.operands])).balanced
      (operands right (by simp [TreeCall.operands])).balanced) allowed
  | glue left right =>
    exact inOrder_of_builds increasing (glue_builds (operands left (by simp [TreeCall.operands])).balanced
      (operands right (by simp [TreeCall.operands])).balanced allowed.1) allowed.2
  | mergeNodes left right =>
    exact inOrder_of_builds increasing (mergeNodes_builds left right (operands left (by simp [TreeCall.operands])).balanced
      (operands right (by simp [TreeCall.operands])).balanced) allowed

theorem MapCall.run_inOrder (isLawful : lawful → answers.Lawful cmp) {accepted : List (κ × α) → Prop}
    (increasing : lawful → ∀ items, accepted items → Increasing cmp Prod.fst items) (call : MapCall κ α σ ε)
    (allowed : call.Allowed accepted) (operands : ∀ tree ∈ call.operands, InOrder cmp Prod.fst lawful tree) :
    Ensures (call.run answers) (InOrder cmp Prod.fst lawful) := by
  cases call with
  | tree call => exact call.run_inOrder isLawful increasing allowed operands
  | fromList entries => exact mapFromEntries_inOrder isLawful entries
  | insertWith function key item map =>
    exact mapInsertWith_arranged isLawful function key item (operands map (List.mem_singleton_self _)) fun _ => trivial
  | adjust function key map =>
    have inOrder := operands map (List.mem_singleton_self _)
    refine (mapAdjust_ensures function key map inOrder.balanced).mono fun map' ⟨balanced, keys⟩ =>
      ⟨balanced, fun law => ?_, by simp⟩
    rw [increasing_iff_keys, keys, ← increasing_iff_keys]
    exact inOrder.increasing law
  | unionWith function left right =>
    exact mapUnionEntries_arranged isLawful function left right (operands left (by simp [MapCall.operands]))
      (operands right (by simp [MapCall.operands]))
  | filter predicate map => exact mapFilter_arranged predicate (operands map (List.mem_singleton_self _))
  | values function map => exact .pure (mapValues_arranged function (operands map (List.mem_singleton_self _)))

theorem SetCall.run_inOrder [DecidableEq κ] (isLawful : lawful → answers.Lawful cmp) {accepted : List κ → Prop}
    (increasing : lawful → ∀ items, accepted items → Increasing cmp id items) (call : SetCall κ)
    (allowed : call.Allowed accepted) (operands : ∀ tree ∈ call.operands, InOrder cmp id lawful tree) :
    Ensures (call.run answers) (InOrder cmp id lawful) := by
  cases call with
  | tree call => exact call.run_inOrder isLawful increasing allowed operands
  | fromList input => exact setTreeFromList_inOrder isLawful input
  | insert element set =>
    exact setInsertReplacing_arranged isLawful element (operands set (List.mem_singleton_self _)) fun _ => trivial
  | union left right =>
    exact setUnionTree_arranged isLawful left right (operands left (by simp [SetCall.operands]))
      (operands right (by simp [SetCall.operands]))
  | difference left right =>
    exact setDifferenceTree_arranged isLawful left right (operands left (by simp [SetCall.operands]))
  | intersection left right =>
    exact setIntersectionTree_arranged isLawful left right (operands left (by simp [SetCall.operands]))
      (operands right (by simp [SetCall.operands]))

/-- Nothing is asked of the comparisons where the order need not be lawful. -/
def noOrder (_ _ : κ) : Ordering := .eq

instance noOrder_transCmp : TransCmp (noOrder : κ → κ → Ordering) where
  eq_swap := rfl
  isLE_trans _ _ := rfl

end Invariant

section Results

variable [DecidableEq κ] {answers : Answers κ σ ε} {accepted : List (κ × α) → Prop} {accepted' : List κ → Prop}

omit [DecidableEq κ] in
theorem MapMade.inOrder (cmp : κ → κ → Ordering) [TransCmp cmp] (lawful : Prop)
    (isLawful : lawful → answers.Lawful cmp)
    (increasing : lawful → ∀ entries, accepted entries → Increasing cmp Prod.fst entries) {map : Tree (κ × α)}
    (made : MapMade answers accepted map) : InOrder cmp Prod.fst lawful map :=
  Made.invariant (MapCall.run_inOrder isLawful increasing) made

theorem SetMade.inOrder (cmp : κ → κ → Ordering) [TransCmp cmp] (lawful : Prop)
    (isLawful : lawful → answers.Lawful cmp)
    (increasing : lawful → ∀ elements, accepted' elements → Increasing cmp id elements) {set : Tree κ}
    (made : SetMade answers accepted' set) : InOrder cmp id lawful set :=
  Made.invariant (SetCall.run_inOrder isLawful increasing) made

/-- Whatever the comparisons answer, trees are balanced and no `expect` fails; if they answer lawfully, keys
increase. -/
theorem made_trees (answers : Answers κ σ ε) (accepted : List (κ × α) → Prop) (accepted' : List κ → Prop) :
    ((∀ map, MapMade answers accepted map → WeightBalanced map) ∧
      (∀ set, SetMade answers accepted' set → WeightBalanced set)) ∧
    ((∀ call : MapCall κ α σ ε, call.Allowed accepted → (∀ map ∈ call.operands, MapMade answers accepted map) →
        ∀ state, call.run answers state ≠ .error .panic) ∧
      (∀ call : SetCall κ, call.Allowed accepted' → (∀ set ∈ call.operands, SetMade answers accepted' set) →
        ∀ state, call.run answers state ≠ .error .panic)) ∧
    ∀ cmp : κ → κ → Ordering, TransCmp cmp → answers.Lawful cmp →
      ((∀ entries, accepted entries → Increasing cmp Prod.fst entries) →
        ∀ map, MapMade answers accepted map → Increasing cmp Prod.fst map.toList) ∧
      ((∀ elements, accepted' elements → Increasing cmp id elements) →
        ∀ set, SetMade answers accepted' set → Increasing cmp id set.toList) := by
  have anyMap (map : Tree (κ × α)) (made : MapMade answers accepted map) : InOrder noOrder Prod.fst False map :=
    MapMade.inOrder noOrder False (by simp) (by simp) made
  have anySet (set : Tree κ) (made : SetMade answers accepted' set) : InOrder noOrder id False set :=
    SetMade.inOrder noOrder False (by simp) (by simp) made
  refine ⟨⟨fun map made => (anyMap map made).balanced, fun set made => (anySet set made).balanced⟩,
    ⟨fun call allowed made => ?_, fun call allowed made => ?_⟩, fun cmp _ lawful => ⟨?_, ?_⟩⟩
  · have keeps : Ensures (call.run answers) (InOrder noOrder Prod.fst False) :=
      call.run_inOrder (by simp) (by simp) allowed fun map member => anyMap map (made map member)
    exact keeps.no_panic
  · have keeps : Ensures (call.run answers) (InOrder noOrder id False) :=
      call.run_inOrder (by simp) (by simp) allowed fun set member => anySet set (made set member)
    exact keeps.no_panic
  · exact fun increasing map made =>
      (MapMade.inOrder cmp True (fun _ => lawful) (fun _ => increasing) made).increasing trivial
  · exact fun increasing set made =>
      (SetMade.inOrder cmp True (fun _ => lawful) (fun _ => increasing) made).increasing trivial

def numberAnswers : Answers ℕ Unit Unit where
  equalValues left right := pure (left == right)
  less left right := pure (left < right)
  greater left right := pure (right < left)
  ptrEq := pure true

theorem numberAnswers_lawful : numberAnswers.Lawful compare where
  equalValues answered := by
    cases answered
    simp [Bool.beq_eq_decide_eq]
  less answered := by
    cases answered
    simp [compare_lt_iff_lt, Bool.beq_eq_decide_eq]
  greater answered := by
    cases answered
    simp [compare_gt_iff_gt, Bool.beq_eq_decide_eq]

theorem made_trees_numbers : Increasing compare id
    (TreeNode.new 2 (TreeNode.new 1 .nil .nil) .nil : Tree ℕ).toList := by
  have one : SetMade numberAnswers (fun _ => False) (TreeNode.new 2 .nil .nil) :=
    .call (.tree (.singleton 2)) trivial (by simp [SetCall.operands, TreeCall.operands]) () () _ rfl
  have both : SetMade numberAnswers (fun _ => False) (TreeNode.new 2 (TreeNode.new 1 .nil .nil) .nil) :=
    .call (.insert 1 (TreeNode.new 2 .nil .nil)) trivial (by simpa [SetCall.operands] using one) () () _ rfl
  exact ((@made_trees ℕ Unit Unit Unit _ numberAnswers (fun _ => False) (fun _ => False)).2.2 compare inferInstance
    numberAnswers_lawful).2 (by simp) _ both

end Results

end HellRs.Collections
