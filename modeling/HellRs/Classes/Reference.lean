import HellRs.Classes.Adapters

/-! # The adapters and the reference instances

The primitives are those of the monads of lists, `Maybe`, `Either` and trees, and the loops of the traversals are `mapM`.
-/

namespace HellRs.Classes

open RoseTree (node)

variable {ε α β γ : Type}

instance Carrier.instMonad (ε : Type) : (target : Target) → Monad (Carrier ε target)
  | .list => inferInstanceAs (Monad List)
  | .maybe => inferInstanceAs (Monad Option)
  | .either => inferInstanceAs (Monad (Except ε))
  | .tree => inferInstanceAs (Monad RoseTree)

instance Carrier.instLawfulMonad (ε : Type) : (target : Target) → LawfulMonad (Carrier ε target)
  | .list => inferInstanceAs (LawfulMonad List)
  | .maybe => inferInstanceAs (LawfulMonad Option)
  | .either => inferInstanceAs (LawfulMonad (Except ε))
  | .tree => inferInstanceAs (LawfulMonad RoseTree)

/-- The reference of `mapM_` and `forM_`. -/
def discardM {m : Type → Type} [Monad m] (action : α → m β) (items : List α) : m Unit :=
  items.foldr (fun item rest => action item >>= fun _ => rest) (pure ())

/-! ## Functor -/

theorem mapList_eq (function : α → β) (items : List α) : mapList function items = items.map function := by
  induction items with
  | nil => rfl
  | cons head tail ih => rw [mapList, ih, List.map_cons]

theorem mapTreeChildren_eq (function : α → β) (children : List (RoseTree α)) :
    mapTreeChildren function children = children.map (mapTree function) := by
  induction children with
  | nil => rfl
  | cons child children ih => rw [mapTreeChildren, ih, List.map_cons]

theorem mapTree_eq (function : α → β) (tree : RoseTree α) : mapTree function tree = RoseTree.map function tree := by
  induction tree using RoseTree.induction with
  | node root children ih => rw [mapTree, mapTreeChildren_eq, RoseTree.map_node, List.map_congr_left ih]

theorem mapValue_eq (target : Target) (function : α → β) (container : Carrier ε target α) :
    mapValue target function container = function <$> container := by
  cases target with
  | list => exact mapList_eq function container
  | maybe => cases container <;> rfl
  | either => cases container <;> rfl
  | tree => exact (mapTree_eq function container).trans (RoseTree.map_eq function container).symm

/-! ## Monad -/

theorem bindList_eq (continuation : α → List β) (items : List α) : bindList continuation items = items.flatMap continuation := by
  induction items with
  | nil => rfl
  | cons head tail ih => rw [bindList, ih, List.flatMap_cons]

theorem bindTreeChildren_eq (continuation : α → RoseTree β) (rest : List (RoseTree α)) (children : List (RoseTree β)) :
    bindTreeChildren continuation rest children = children ++ rest.map (bindTree continuation) := by
  induction rest generalizing children with
  | nil => rw [bindTreeChildren, List.map_nil, List.append_nil]
  | cons child rest ih => rw [bindTreeChildren, ih, List.map_cons, List.append_assoc, List.singleton_append]

theorem bindTree_eq (continuation : α → RoseTree β) (tree : RoseTree α) :
    bindTree continuation tree = RoseTree.bind continuation tree := by
  induction tree using RoseTree.induction with
  | node root children ih => rw [bindTree, bindTreeChildren_eq, RoseTree.bind_node, List.map_congr_left ih]

theorem bindValue_eq (target : Target) (monad : Carrier ε target α) (continuation : α → Carrier ε target β) :
    bindValue target monad continuation = monad >>= continuation := by
  cases target with
  | list => exact bindList_eq continuation monad
  | maybe => cases monad <;> rfl
  | either => cases monad <;> rfl
  | tree => exact bindTree_eq continuation monad

theorem thenList_eq (second : List β) (items : List α) : thenList second items = items.flatMap fun _ => second := by
  induction items with
  | nil => rfl
  | cons head tail ih => rw [thenList, ih, List.flatMap_cons]

theorem thenTreeChildren_eq (second : RoseTree β) (rest : List (RoseTree α)) (children : List (RoseTree β)) :
    thenTreeChildren second rest children = children ++ rest.map (thenTree second) := by
  induction rest generalizing children with
  | nil => rw [thenTreeChildren, List.map_nil, List.append_nil]
  | cons child rest ih => rw [thenTreeChildren, ih, List.map_cons, List.append_assoc, List.singleton_append]

theorem thenTree_eq (second : RoseTree β) (tree : RoseTree α) : thenTree second tree = RoseTree.bind (fun _ => second) tree := by
  induction tree using RoseTree.induction with
  | node root children ih => rw [thenTree, thenTreeChildren_eq, RoseTree.bind_node, List.map_congr_left ih]

theorem thenValue_eq (target : Target) (first : Carrier ε target α) (second : Carrier ε target β) :
    thenValue target first second = first >>= fun _ => second := by
  cases target with
  | list => exact thenList_eq second first
  | maybe => cases first <;> rfl
  | either => cases first <;> rfl
  | tree => exact thenTree_eq second first

/-! ## Applicative -/

theorem applyList_eq (functions : List (α → β)) (items : List α) :
    applyList false functions items = functions.flatMap fun function => items.map function := by
  cases functions with
  | nil => rfl
  | cons function functions => simp [applyList, List.map_flatMap, Function.comp_def]

theorem applyList_flipped (functions : List (α → β)) (items : List α) :
    applyList true functions items = items.flatMap fun item => functions.map fun function => function item := by
  cases items with
  | nil => rfl
  | cons item items => simp [applyList, List.map_flatMap, Function.comp_def]

theorem applyTreeChildren_eq (items : RoseTree α) (rest : List (RoseTree (α → β))) (children : List (RoseTree β)) :
    applyTreeChildren items rest children = children ++ rest.map (applyTree items) := by
  induction rest generalizing children with
  | nil => rw [applyTreeChildren, List.map_nil, List.append_nil]
  | cons child rest ih => rw [applyTreeChildren, ih, List.map_cons, List.append_assoc, List.singleton_append]

theorem applyTree_eq (items : RoseTree α) (functions : RoseTree (α → β)) :
    applyTree items functions = RoseTree.bind (fun function => RoseTree.map function items) functions := by
  induction functions using RoseTree.induction with
  | node function children ih => rw [applyTree, applyTreeChildren_eq, RoseTree.bind_node, mapTree_eq, List.map_congr_left ih]

theorem applyValueToFunctionTrees_eq (value : α) (children : List (RoseTree (α → β))) :
    applyValueToFunctionTrees value children = children.map (applyValueToFunctionTree value) := by
  induction children with
  | nil => rfl
  | cons child children ih => rw [applyValueToFunctionTrees, ih, List.map_cons]

theorem applyValueToFunctionTree_eq (value : α) (functions : RoseTree (α → β)) :
    applyValueToFunctionTree value functions = RoseTree.map (fun function => function value) functions := by
  induction functions using RoseTree.induction with
  | node function children ih =>
    rw [applyValueToFunctionTree, applyValueToFunctionTrees_eq, RoseTree.map_node, List.map_congr_left ih]

theorem applyTreeFlippedChildren_eq (functions : RoseTree (α → β)) (rest : List (RoseTree α)) (children : List (RoseTree β)) :
    applyTreeFlippedChildren functions rest children = children ++ rest.map (applyTreeFlipped functions) := by
  induction rest generalizing children with
  | nil => rw [applyTreeFlippedChildren, List.map_nil, List.append_nil]
  | cons child rest ih => rw [applyTreeFlippedChildren, ih, List.map_cons, List.append_assoc, List.singleton_append]

theorem applyTreeFlipped_eq (functions : RoseTree (α → β)) (items : RoseTree α) :
    applyTreeFlipped functions items = RoseTree.bind (fun value => RoseTree.map (fun function => function value) functions) items := by
  induction items using RoseTree.induction with
  | node value children ih =>
    rw [applyTreeFlipped, applyTreeFlippedChildren_eq, RoseTree.bind_node, applyValueToFunctionTree_eq, List.map_congr_left ih]

theorem applyValue_eq (target : Target) (functions : Carrier ε target (α → β)) (items : Carrier ε target α) :
    applyValue false target functions items = functions <*> items := by
  rw [seq_eq_bind_map]
  cases target with
  | list => exact applyList_eq functions items
  | maybe => cases functions <;> cases items <;> rfl
  | either => cases functions <;> cases items <;> rfl
  | tree =>
    refine (applyTree_eq items functions).trans (congrArg (RoseTree.bind · functions) (funext fun function => ?_))
    exact (RoseTree.map_eq function items).symm

theorem applyValue_flipped (target : Target) (functions : Carrier ε target (α → β)) (items : Carrier ε target α) :
    applyValue true target functions items = (fun value function => function value) <$> items <*> functions := by
  rw [seq_eq_bind_map, map_eq_pure_bind, bind_assoc]
  simp only [pure_bind]
  cases target with
  | list => exact applyList_flipped functions items
  | maybe => cases functions <;> cases items <;> rfl
  | either => cases functions <;> cases items <;> rfl
  | tree =>
    refine (applyTreeFlipped_eq functions items).trans (congrArg (RoseTree.bind · items) (funext fun value => ?_))
    exact (RoseTree.map_eq _ functions).symm

/-! ## Traversals -/

/-- A loop that appends each result to those it has is `mapM`. -/
theorem foldl_bind_eq {m : Type → Type} [Monad m] [LawfulMonad m] (action : α → m β) (items : List α) (accumulated : m (List β)) :
    items.foldl (fun accumulated item => accumulated >>= fun values => action item >>= fun value => pure (values ++ [value]))
      accumulated = accumulated >>= fun values => (values ++ ·) <$> items.mapM' action := by
  induction items generalizing accumulated with
  | nil => simp
  | cons item items ih =>
    rw [List.foldl_cons, ih, bind_assoc]
    refine bind_congr fun values => ?_
    rw [bind_assoc, List.mapM'_cons, map_bind]
    refine bind_congr fun value => ?_
    rw [pure_bind, bind_pure_comp, Functor.map_map]
    simp only [List.append_assoc, List.singleton_append]

theorem traverseMaybe_eq (action : α → Option β) (items : List α) (results : List β) :
    traverseMaybe action items results = (results ++ ·) <$> items.mapM' action := by
  induction items generalizing results with
  | nil => simp [traverseMaybe]
  | cons item items ih =>
    rw [traverseMaybe, List.mapM'_cons]
    cases action item with
    | none => rfl
    | some value =>
      simp only [ih, Option.bind_eq_bind, Option.bind_some]
      cases items.mapM' action with
      | none => rfl
      | some values => simp

theorem traverseEither_eq (action : α → Except ε β) (items : List α) (results : List β) :
    traverseEither action items results = (results ++ ·) <$> items.mapM' action := by
  induction items generalizing results with
  | nil => simp [traverseEither, pure, Except.pure]
  | cons item items ih =>
    rw [traverseEither, List.mapM'_cons]
    cases action item with
    | error => rfl
    | ok value =>
      change traverseEither action items (results ++ [value]) = (results ++ ·) <$> ((value :: ·) <$> items.mapM' action)
      rw [ih]
      simp

theorem traverseList_eq (action : α → List β) (items : List α) : traverseList action items = items.mapM' action := by
  have loop := foldl_bind_eq action items ([[]] : List (List β))
  have body : (fun (combinations : List (List β)) item => combinations.flatMap fun combination =>
      (action item).map fun alternative => combination ++ [alternative]) =
      fun combinations item => combinations >>= fun values => action item >>= fun value => pure (values ++ [value]) := by
    funext combinations item
    exact congrArg (combinations.flatMap ·) (funext fun values => List.map_eq_flatMap)
  rw [traverseList, body, loop]
  simp

theorem traverseTree_eq (action : α → RoseTree β) (items : List α) : traverseTree action items = items.mapM' action := by
  have loop := foldl_bind_eq action items (node [] [])
  have body : (fun (accumulated : RoseTree (List β)) item =>
      bindTree (fun values => bindTree (fun value => node (values ++ [value]) []) (action item)) accumulated) =
      fun accumulated item => accumulated >>= fun values => action item >>= fun value => pure (values ++ [value]) := by
    funext accumulated item
    simp only [bindTree_eq]
    rfl
  rw [traverseTree, body, loop, ← RoseTree.pure_eq, pure_bind]
  exact id_map _

theorem traverseValue_eq (target : Target) (action : α → Carrier ε target β) (items : List α) :
    traverseValue target action items = items.mapM' action := by
  cases target with
  | list => exact traverseList_eq action items
  | maybe => exact (traverseMaybe_eq action items []).trans (id_map _)
  | either => exact (traverseEither_eq action items []).trans (id_map _)
  | tree => exact traverseTree_eq action items

theorem discardM_eq {m : Type → Type} [Monad m] [LawfulMonad m] (action : α → m β) (items : List α) :
    (fun _ => ()) <$> items.mapM' action = discardM action items := by
  induction items with
  | nil => simp [discardM]
  | cons item items ih =>
    have rest : discardM action (item :: items) = action item >>= fun _ => discardM action items := rfl
    rw [rest, ← ih]
    simp

theorem traverseDiscard_eq (target : Target) (action : α → Carrier ε target β) (items : List α) :
    traverseDiscard target action items = discardM action items := by
  have same : traverseDiscard target action items = (fun _ => ()) <$> traverseValue target action items := by
    cases target with
    | list => rfl
    | maybe => rfl
    | either => rfl
    | tree => exact (mapTree_eq _ _).trans (RoseTree.map_eq _ _).symm
  rw [same, traverseValue_eq, discardM_eq]

/-- The combinations of alternatives in order are in lexicographic order. -/
theorem mapM'_ordered {order : β → β → Prop} {action : α → List β} {items : List α}
    (ordered : ∀ item ∈ items, (action item).Pairwise order) : (items.mapM' action).Pairwise (List.Lex order) := by
  induction items with
  | nil => exact List.pairwise_singleton _ _
  | cons item items ih =>
    rw [List.forall_mem_cons] at ordered
    change ((action item).flatMap fun first => (items.mapM' action).flatMap fun rest => [first :: rest]).Pairwise _
    rw [List.pairwise_flatMap]
    refine ⟨fun first _ => ?_, ordered.1.imp fun before => ?_⟩
    · rw [← List.map_eq_flatMap, List.pairwise_map]
      exact (ih ordered.2).imp fun later => .cons later
    · rintro _ member _ member'
      obtain ⟨_, -, here⟩ := List.mem_flatMap.mp member
      obtain ⟨_, -, here'⟩ := List.mem_flatMap.mp member'
      rw [List.mem_singleton.mp here, List.mem_singleton.mp here']
      exact .rel before

/-! ## Nodes of trees -/

theorem collectChildren_eq {children : List (RoseTree α)}
    (each : ∀ child ∈ children, ∀ output, collect child output = output ++ child.preorder) (output : List α) :
    collectChildren children output = output ++ children.flatMap RoseTree.preorder := by
  induction children generalizing output with
  | nil => rw [collectChildren, List.flatMap_nil, List.append_nil]
  | cons child children ih =>
    rw [List.forall_mem_cons] at each
    rw [collectChildren, ih each.2, each.1, List.flatMap_cons, List.append_assoc]

theorem collect_eq (tree : RoseTree α) (output : List α) : collect tree output = output ++ tree.preorder := by
  induction tree using RoseTree.induction generalizing output with
  | node root children ih =>
    rw [collect, collectChildren_eq ih, RoseTree.preorder_eq, RoseTree.root_node, RoseTree.children_node, List.append_assoc,
      List.singleton_append]

theorem flattenTree_eq (tree : RoseTree α) : flattenTree tree = tree.preorder := collect_eq tree []

theorem levelsLoop_eq (current : List (RoseTree α)) : levelsLoop current =
    if current = [] then [] else current.map RoseTree.root :: levelsLoop (nextLevel current) := by
  rw [levelsLoop]
  split <;> rfl

/-- Each level has the nodes of one depth. -/
theorem levelsLoop_atDepth (current : List (RoseTree α)) (depth : ℕ) :
    (levelsLoop current)[depth]?.getD [] = current.flatMap (RoseTree.atDepth depth) := by
  induction depth generalizing current with
  | zero =>
    rw [levelsLoop_eq]
    by_cases empty : current = []
    · rw [if_pos empty, empty]
      rfl
    · rw [if_neg empty, List.map_eq_flatMap]
      rfl
  | succ depth ih =>
    rw [levelsLoop_eq]
    by_cases empty : current = []
    · rw [if_pos empty, empty]
      rfl
    · rw [if_neg empty, List.getElem?_cons_succ, ih, nextLevel, List.flatMap_assoc]
      rfl

theorem levelsLoop_nonempty (current : List (RoseTree α)) : [] ∉ levelsLoop current := by
  induction current using levelsLoop.induct with
  | case1 =>
    rw [levelsLoop_eq, if_pos rfl]
    exact List.not_mem_nil
  | case2 current nonempty ih =>
    rw [levelsLoop_eq, if_neg nonempty, List.mem_cons, not_or]
    exact ⟨fun same => nonempty (List.map_eq_nil_iff.mp same.symm), ih⟩

/-- The levels have every node once. -/
theorem levelsLoop_perm (current : List (RoseTree α)) :
    (levelsLoop current).flatten.Perm (current.flatMap RoseTree.preorder) := by
  induction current using levelsLoop.induct with
  | case1 =>
    rw [levelsLoop_eq, if_pos rfl]
    exact List.Perm.nil
  | case2 current nonempty ih =>
    rw [levelsLoop_eq, if_neg nonempty, List.flatten_cons]
    have split : current.flatMap RoseTree.preorder =
        current.flatMap fun tree => [tree.root] ++ tree.children.flatMap RoseTree.preorder :=
      congrArg (current.flatMap ·) (funext RoseTree.preorder_eq)
    rw [split]
    refine List.Perm.trans ?_ (List.flatMap_append_perm ..)
    rw [List.map_eq_flatMap, ← List.flatMap_assoc]
    exact ih.append_left _

/-- Every node is listed once: flat in preorder, and in levels by depth, from left to right. -/
structure Listed (tree : RoseTree α) : Prop where
  flat : flattenTree tree = tree.preorder
  level (depth : ℕ) : (treeLevels tree)[depth]?.getD [] = tree.atDepth depth
  nonempty : [] ∉ treeLevels tree
  once : (treeLevels tree).flatten.Perm tree.preorder

theorem listed (tree : RoseTree α) : Listed tree where
  flat := flattenTree_eq tree
  level depth := by rw [treeLevels, levelsLoop_atDepth, List.flatMap_singleton]
  nonempty := levelsLoop_nonempty [tree]
  once := by
    have all := levelsLoop_perm [tree]
    rwa [List.flatMap_singleton] at all

/-! ## All of it -/

/-- The primitives of a target are those of its reference instance, and keep the laws. -/
structure Agrees (ε : Type) (target : Target) : Prop where
  unit {α : Type} (value : α) : (pureValue target value : Carrier ε target α) = pure value
  map {α β : Type} (function : α → β) (container : Carrier ε target α) : mapValue target function container = function <$> container
  apply {α β : Type} (functions : Carrier ε target (α → β)) (items : Carrier ε target α) :
    applyValue false target functions items = functions <*> items
  flipped {α β : Type} (functions : Carrier ε target (α → β)) (items : Carrier ε target α) :
    applyValue true target functions items = (fun value function => function value) <$> items <*> functions
  bind {α β : Type} (monad : Carrier ε target α) (continuation : α → Carrier ε target β) :
    bindValue target monad continuation = monad >>= continuation
  andThen {α β : Type} (first : Carrier ε target α) (second : Carrier ε target β) :
    thenValue target first second = first >>= fun _ => second
  traverse {α β : Type} (action : α → Carrier ε target β) (items : List α) :
    traverseValue target action items = items.mapM' action
  discard {α β : Type} (action : α → Carrier ε target β) (items : List α) :
    traverseDiscard target action items = discardM action items
  leftUnit {α β : Type} (value : α) (continuation : α → Carrier ε target β) :
    bindValue target (pureValue target value) continuation = continuation value
  rightUnit {α : Type} (monad : Carrier ε target α) : bindValue target monad (pureValue target) = monad
  assoc {α β γ : Type} (monad : Carrier ε target α) (first : α → Carrier ε target β) (second : β → Carrier ε target γ) :
    bindValue target (bindValue target monad first) second =
      bindValue target monad fun value => bindValue target (first value) second

theorem pureValue_eq (target : Target) (value : α) : (pureValue target value : Carrier ε target α) = pure value := by
  cases target <;> rfl

theorem agrees (ε : Type) (target : Target) : Agrees ε target where
  unit := pureValue_eq target
  map := mapValue_eq target
  apply := applyValue_eq target
  flipped := applyValue_flipped target
  bind := bindValue_eq target
  andThen := thenValue_eq target
  traverse := traverseValue_eq target
  discard := traverseDiscard_eq target
  leftUnit value continuation := by rw [bindValue_eq, pureValue_eq, pure_bind]
  rightUnit monad := by
    rw [bindValue_eq]
    exact (congrArg (monad >>= ·) (funext (pureValue_eq target))).trans (bind_pure monad)
  assoc monad first second := by
    rw [bindValue_eq, bindValue_eq, bindValue_eq, bind_assoc]
    exact bind_congr fun value => (bindValue_eq target (first value) second).symm

/-- What the adapters return for finite structures. -/
structure References (ε : Type) : Prop where
  agrees (target : Target) : Agrees ε target
  lexicographic {α β : Type} (order : β → β → Prop) (action : α → List β) (items : List α) :
    (∀ item ∈ items, (action item).Pairwise order) → (traverseList action items).Pairwise (List.Lex order)
  ownFirst {α β : Type} (continuation : α → RoseTree β) (root : α) (children : List (RoseTree α)) :
    bindTree continuation (node root children) =
      node (continuation root).root ((continuation root).children ++ children.map (bindTree continuation))
  listed {α : Type} (tree : RoseTree α) : Listed tree

end HellRs.Classes
