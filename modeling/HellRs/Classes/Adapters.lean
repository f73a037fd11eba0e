import HellRs.Lib.RoseTree

/-! # Adapters of the type classes

The functor, applicative, monad and traversal primitives for lists, `Maybe`, `Either` and trees. A thunk is the value that it
evaluates to, and `Either` is `Except`: its left side ends a computation. Types exclude the value mismatches of the source.
-/

namespace HellRs.Classes

open RoseTree (node)

/-- The targets of the instances. -/
inductive Target where
  | list
  | maybe
  | either
  | tree

/-- The values of a target, with the left side of `Either`. -/
abbrev Carrier (ε : Type) : Target → Type → Type
  | .list, α => List α
  | .maybe, α => Option α
  | .either, α => Except ε α
  | .tree, α => RoseTree α

variable {ε α β γ : Type}

def pureValue : (target : Target) → α → Carrier ε target α
  | .list, argument => ([argument] : List α)
  | .maybe, argument => some argument
  | .either, argument => Except.ok argument
  | .tree, argument => node argument []

/-! ## Functor -/

/-- `Suspension::ListMap`. -/
def mapList (function : α → β) : List α → List β
  | [] => []
  | head :: tail => function head :: mapList function tail

def mapMaybe (function : α → β) : Option α → Option β
  | none => none
  | some value => some (function value)

def mapEither (function : α → β) : Except ε α → Except ε β
  | .error value => .error value
  | .ok payload => .ok (function payload)

mutual

def mapTree (function : α → β) : RoseTree α → RoseTree β
  | node root children => node (function root) (mapTreeChildren function children)

def mapTreeChildren (function : α → β) : List (RoseTree α) → List (RoseTree β)
  | [] => []
  | child :: children => mapTree function child :: mapTreeChildren function children

end

def mapValue : (target : Target) → (α → β) → Carrier ε target α → Carrier ε target β
  | .list, function, container => mapList function container
  | .maybe, function, container => mapMaybe function container
  | .either, function, container => mapEither function container
  | .tree, function, container => mapTree function container

/-! ## Applicative -/

def applyMaybe (flipped : Bool) (functions : Option (α → β)) (arguments : Option α) : Option β :=
  if flipped then
    match arguments with
    | none => none
    | some argument =>
        match functions with
        | none => none
        | some function => some (function argument)
  else
    match functions with
    | none => none
    | some function =>
        match arguments with
        | none => none
        | some argument => some (function argument)

def applyEither (flipped : Bool) (functions : Except ε (α → β)) (arguments : Except ε α) : Except ε β :=
  if flipped then
    match arguments with
    | .error value => .error value
    | .ok argument =>
        match functions with
        | .error value => .error value
        | .ok function => .ok (function argument)
  else
    match functions with
    | .error value => .error value
    | .ok function =>
        match arguments with
        | .error value => .error value
        | .ok argument => .ok (function argument)

def applyList (flipped : Bool) (functions : List (α → β)) (arguments : List α) : List β :=
  let pairs :=
    if flipped then
      if arguments.isEmpty then [] else arguments.flatMap fun argument => functions.map fun function => (function, argument)
    else
      if functions.isEmpty then [] else functions.flatMap fun function => arguments.map fun argument => (function, argument)
  pairs.map fun (function, argument) => function argument

mutual

def applyTree (arguments : RoseTree α) : RoseTree (α → β) → RoseTree β
  | node function functionChildren =>
      let mapped := mapTree function arguments
      node mapped.root (applyTreeChildren arguments functionChildren mapped.children)

/-- The loop over the children of the functions. -/
def applyTreeChildren (arguments : RoseTree α) : List (RoseTree (α → β)) → List (RoseTree β) → List (RoseTree β)
  | [], children => children
  | functionChild :: functionChildren, children =>
      applyTreeChildren arguments functionChildren (children ++ [applyTree arguments functionChild])

end

mutual

def applyValueToFunctionTree (value : α) : RoseTree (α → β) → RoseTree β
  | node function functionChildren => node (function value) (applyValueToFunctionTrees value functionChildren)

def applyValueToFunctionTrees (value : α) : List (RoseTree (α → β)) → List (RoseTree β)
  | [] => []
  | functionChild :: functionChildren => applyValueToFunctionTree value functionChild :: applyValueToFunctionTrees value functionChildren

end

mutual

def applyTreeFlipped (functions : RoseTree (α → β)) : RoseTree α → RoseTree β
  | node value valueChildren =>
      let mapped := applyValueToFunctionTree value functions
      node mapped.root (applyTreeFlippedChildren functions valueChildren mapped.children)

/-- The loop over the children of the values. -/
def applyTreeFlippedChildren (functions : RoseTree (α → β)) : List (RoseTree α) → List (RoseTree β) → List (RoseTree β)
  | [], children => children
  | valueChild :: valueChildren, children =>
      applyTreeFlippedChildren functions valueChildren (children ++ [applyTreeFlipped functions valueChild])

end

def applyValue (flipped : Bool) : (target : Target) → Carrier ε target (α → β) → Carrier ε target α → Carrier ε target β
  | .list, functions, arguments => applyList flipped functions arguments
  | .maybe, functions, arguments => applyMaybe flipped functions arguments
  | .either, functions, arguments => applyEither flipped functions arguments
  | .tree, functions, arguments => if flipped then applyTreeFlipped functions arguments else applyTree arguments functions

/-! ## Monad -/

def bindMaybe (monad : Option α) (continuation : α → Option β) : Option β :=
  match monad with
  | none => none
  | some value => continuation value

def bindEither (monad : Except ε α) (continuation : α → Except ε β) : Except ε β :=
  match monad with
  | .error value => .error value
  | .ok value => continuation value

def bindList (continuation : α → List β) : List α → List β
  | [] => []
  | head :: tail => continuation head ++ bindList continuation tail

mutual

/-- `bind_tree_inner`. -/
def bindTree (continuation : α → RoseTree β) : RoseTree α → RoseTree β
  | node root rootChildren =>
      let applied := continuation root
      node applied.root (bindTreeChildren continuation rootChildren applied.children)

/-- The loop over the children of the tree. -/
def bindTreeChildren (continuation : α → RoseTree β) : List (RoseTree α) → List (RoseTree β) → List (RoseTree β)
  | [], children => children
  | child :: rest, children => bindTreeChildren continuation rest (children ++ [bindTree continuation child])

end

def bindValue : (target : Target) → Carrier ε target α → (α → Carrier ε target β) → Carrier ε target β
  | .list, monad, continuation => bindList continuation monad
  | .maybe, monad, continuation => bindMaybe monad continuation
  | .either, monad, continuation => bindEither monad continuation
  | .tree, monad, continuation => bindTree continuation monad

def thenMaybe (first : Option α) (second : Option β) : Option β :=
  match first with
  | none => none
  | some _ => second

def thenEither (first : Except ε α) (second : Except ε β) : Except ε β :=
  match first with
  | .error value => .error value
  | .ok _ => second

def thenList (second : List β) : List α → List β
  | [] => []
  | _ :: tail => second ++ thenList second tail

mutual

def thenTree (second : RoseTree β) : RoseTree α → RoseTree β
  | node _ firstChildren => node second.root (thenTreeChildren second firstChildren second.children)

/-- The loop over the children of the first tree. -/
def thenTreeChildren (second : RoseTree β) : List (RoseTree α) → List (RoseTree β) → List (RoseTree β)
  | [], children => children
  | child :: rest, children => thenTreeChildren second rest (children ++ [thenTree second child])

end

def thenValue : (target : Target) → Carrier ε target α → Carrier ε target β → Carrier ε target β
  | .list, first, second => thenList second first
  | .maybe, first, second => thenMaybe first second
  | .either, first, second => thenEither first second
  | .tree, first, second => thenTree second first

/-! ## Traversals -/

/-- The loop of `traverse_value` for `Maybe`, up to the results. -/
def traverseMaybe (action : α → Option β) : List α → List β → Option (List β)
  | [], results => some results
  | item :: items, results =>
      match action item with
      | none => none
      | some value => traverseMaybe action items (results ++ [value])

/-- The loop of `traverse_value` for `Either`, up to the results. -/
def traverseEither (action : α → Except ε β) : List α → List β → Except ε (List β)
  | [], results => .ok results
  | item :: items, results =>
      match action item with
      | .error value => .error value
      | .ok value => traverseEither action items (results ++ [value])

/-- The loop of `traverse_value` for lists, up to the combinations. -/
def traverseList (action : α → List β) (items : List α) : List (List β) :=
  items.foldl (fun combinations item => combinations.flatMap fun combination => (action item).map fun alternative => combination ++ [alternative])
    [[]]

/-- The loop of `traverse_tree`. -/
def traverseTree (action : α → RoseTree β) (items : List α) : RoseTree (List β) :=
  items.foldl (fun accumulated item =>
    bindTree (fun values => bindTree (fun value => node (values ++ [value]) []) (action item)) accumulated) (node [] [])

/-- `traverse_value` without `discard`: `mapM` and `forM`, and `sequence` with the items as their own actions. -/
def traverseValue : (target : Target) → (α → Carrier ε target β) → List α → Carrier ε target (List β)
  | .list, action, items => traverseList action items
  | .maybe, action, items => traverseMaybe action items []
  | .either, action, items => traverseEither action items []
  | .tree, action, items => traverseTree action items

/-- `traverse_value` with `discard`, where the unit value takes the place of the results. -/
def traverseDiscard : (target : Target) → (α → Carrier ε target β) → List α → Carrier ε target Unit
  | .list, action, items => (traverseList action items).map fun _ => ()
  | .maybe, action, items => (traverseMaybe action items []).map fun _ => ()
  | .either, action, items => (traverseEither action items []).map fun _ => ()
  | .tree, action, items => mapTree (fun _ => ()) (traverseTree action items)

/-! ## Nodes of trees -/

mutual

/-- The inner function of `flatten_tree`. -/
def collect : RoseTree α → List α → List α
  | node root children, output => collectChildren children (output ++ [root])

def collectChildren : List (RoseTree α) → List α → List α
  | [], output => output
  | child :: children, output => collectChildren children (collect child output)

end

def flattenTree (tree : RoseTree α) : List α := collect tree []

/-- The trees that the inner loop of `tree_levels` collects. -/
def nextLevel (current : List (RoseTree α)) : List (RoseTree α) := current.flatMap RoseTree.children

/-- The loop of `tree_levels`. -/
def levelsLoop (current : List (RoseTree α)) : List (List α) :=
  if empty : current = [] then [] else current.map RoseTree.root :: levelsLoop (nextLevel current)
termination_by (current.map RoseTree.size).sum
decreasing_by
  have total := RoseTree.sum_size_children current
  have positive : 0 < current.length := List.length_pos_iff.mpr empty
  change ((current.flatMap RoseTree.children).map RoseTree.size).sum < _
  omega

def treeLevels (tree : RoseTree α) : List (List α) := levelsLoop [tree]

end HellRs.Classes
