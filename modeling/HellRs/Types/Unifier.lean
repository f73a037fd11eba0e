import HellRs.Types.Arena

/-! # The unifier

Metavariables with their bindings, and the operations `fresh`, `prune`, `occurs`, `unify`, `bind`
and `zonk` with their explicit work lists. `prune` compresses paths, so every operation that prunes
returns the unifier it leaves behind, an error included. The hash sets and the `zonked` map of the
source are lists that are searched.
-/

namespace HellRs.Types

open Loop

structure MetaVar where
  kind : KindId
  binding : Option TypeId
deriving DecidableEq, Repr

structure Unifier where
  metas : List MetaVar
  zonked : List (TypeId × TypeId)
deriving DecidableEq, Repr

namespace Unifier

/-- `Unifier::default`. -/
def default : Unifier := ⟨[], []⟩

def fresh (unifier : Unifier) (arena : TypeArena) (kind : KindId) :
    Option (TypeId × Unifier × TypeArena) :=
  if unifier.metas.length < idLimit then do
    let (ty, arena) ← arena.intern (.metavar unifier.metas.length)
    some (ty, ⟨unifier.metas ++ [⟨kind, none⟩], []⟩, arena)
  else none

def metaKind (unifier : Unifier) (id : MetaId) : Option KindId :=
  unifier.metas[id]?.map MetaVar.kind

/-- `self.metas[id].binding`, `none` for an index out of bounds. -/
def binding (unifier : Unifier) (id : MetaId) : Option (Option TypeId) :=
  unifier.metas[id]?.map MetaVar.binding

/-- `self.metas[id].binding = Some(ty)`. -/
def setBinding (unifier : Unifier) (id : MetaId) (ty : TypeId) : Unifier :=
  { unifier with metas := unifier.metas.modify id fun entry => { entry with binding := some ty } }

def clearZonked (unifier : Unifier) : Unifier := { unifier with zonked := [] }

/-- One step along a chain of bound metavariables, which `path` collects. -/
def pruneTurn (arena : TypeArena) (unifier : Unifier) :
    TypeId × List MetaId → Option (Turn (TypeId × List MetaId) (TypeId × List MetaId))
  | (current, path) => do
      match ← arena.get current with
      | .metavar id => do
          match ← unifier.binding id with
          | none => some (.leave (current, path))
          | some bound => some (.again (bound, path ++ [id]))
      | _ => some (.leave (current, path))

def prune (fuel : ℕ) (unifier : Unifier) (arena : TypeArena) (ty : TypeId) :
    Option (TypeId × Unifier) := do
  let (current, path) ← run (pruneTurn arena unifier) fuel (ty, [])
  some (current, path.foldl (fun unifier id => unifier.setBinding id current) unifier)

/-- One turn of `occurs`: the unifier, the work list and the visited set. -/
def occursTurn (fuel : ℕ) (arena : TypeArena) (needle : MetaId) :
    Unifier × List TypeId × List TypeId →
      Option (Turn (Unifier × List TypeId × List TypeId) (Bool × Unifier))
  | (unifier, [], _) => some (.leave (false, unifier))
  | (unifier, ty :: work, visited) => do
      let (ty, unifier) ← unifier.prune fuel arena ty
      if ty ∈ visited then some (.again (unifier, work, visited))
      else do
        match ← arena.get ty with
        | .metavar id =>
            if id = needle then some (.leave (true, unifier))
            else some (.again (unifier, work, ty :: visited))
        | .apply left right => some (.again (unifier, left :: right :: work, ty :: visited))
        | .function left right => some (.again (unifier, left :: right :: work, ty :: visited))
        | .rowCons _ field tail => some (.again (unifier, field :: tail :: work, ty :: visited))
        | _ => some (.again (unifier, work, ty :: visited))

def occurs (fuel : ℕ) (unifier : Unifier) (arena : TypeArena) (needle : MetaId) (ty : TypeId) :
    Option (Bool × Unifier) :=
  run (occursTurn fuel arena needle) fuel (unifier, [ty], [])

def bind (fuel : ℕ) (unifier : Unifier) (arena : TypeArena) (kinds : KindArena) (id : MetaId)
    (ty : TypeId) : Option (Except TypeError Unit × Unifier) := do
  let (found, unifier) ← unifier.occurs fuel arena id ty
  if found then some (.error (.occurs id ty), unifier)
  else do
    let expected ← unifier.metaKind id
    match ← arena.kindOf fuel kinds unifier.metaKind ty with
    | .error failure => some (.error failure, unifier)
    | .ok actual =>
        if expected ≠ actual then some (.error (.kindMismatch expected actual), unifier)
        else some (.ok (), unifier.clearZonked.setBinding id ty)

/-- What one pair of different pruned types asks for. -/
inductive PairStep where
  | bind (id : MetaId) (ty : TypeId)
  | split (first second : TypeId × TypeId)
  | skip
  | clash
deriving DecidableEq, Repr

/-- The `match` of `unify` on the two nodes. -/
def pairStep (left right : TypeId) : TypeNode → TypeNode → PairStep
  | .metavar id, _ => .bind id right
  | _, .metavar id => .bind id left
  | .function a₁ b₁, .function a₂ b₂ => .split (a₁, a₂) (b₁, b₂)
  | .apply a₁ b₁, .apply a₂ b₂ => .split (a₁, a₂) (b₁, b₂)
  | .rowCons l₁ f₁ t₁, .rowCons l₂ f₂ t₂ =>
      -- Rows with different labels fall through to the comparison of the nodes, which differ.
      if l₁ = l₂ then .split (f₁, f₂) (t₁, t₂) else .clash
  | leftNode, rightNode => if leftNode = rightNode then .skip else .clash

/-- One turn of the work list of `unify`. -/
def unifyTurn (fuel : ℕ) (arena : TypeArena) (kinds : KindArena) :
    Unifier × List (TypeId × TypeId) →
      Option (Turn (Unifier × List (TypeId × TypeId)) (Except TypeError Unit × Unifier))
  | (unifier, []) => some (.leave (.ok (), unifier))
  | (unifier, (left, right) :: work) => do
      let (left, unifier) ← unifier.prune fuel arena left
      let (right, unifier) ← unifier.prune fuel arena right
      if left = right then some (.again (unifier, work))
      else do
        match pairStep left right (← arena.get left) (← arena.get right) with
        | .bind id ty => do
            match ← unifier.bind fuel arena kinds id ty with
            | (.error failure, unifier) => some (.leave (.error failure, unifier))
            | (.ok (), unifier) => some (.again (unifier, work))
        | .split first second => some (.again (unifier, first :: second :: work))
        | .skip => some (.again (unifier, work))
        | .clash => some (.leave (.error (.mismatch left right), unifier))

def unify (fuel : ℕ) (unifier : Unifier) (arena : TypeArena) (kinds : KindArena)
    (left right : TypeId) : Option (Except TypeError Unit × Unifier) :=
  run (unifyTurn fuel arena kinds) fuel (unifier, [(left, right)])

/-- Pending work of `zonk`. -/
inductive ZonkWork where
  | visit (ty : TypeId)
  | apply (original : TypeId)
  | function (original : TypeId)
  | row (original : TypeId) (label : String)
deriving DecidableEq, Repr

/-- The state of the work list of `zonk`. -/
structure ZonkState where
  unifier : Unifier
  arena : TypeArena
  work : List ZonkWork
  results : List TypeId
  visiting : List TypeId
deriving Repr

/-- What `zonk` returns: a type or an error, and the unifier and arena it leaves behind. -/
abbrev ZonkResult := Except TypeError TypeId × Unifier × TypeArena

/-- The end of an `Apply`, `Function` or `Row` entry: intern the node built from the two topmost
results and remember it for the original. -/
def rebuild (state : ZonkState) (work : List ZonkWork) (original : TypeId)
    (node : TypeId → TypeId → TypeNode) : Option (Turn ZonkState ZonkResult) :=
  match state.results with
  | right :: left :: results => do
      let (zonked, arena) ← state.arena.intern (node left right)
      some (.again {
        unifier := { state.unifier with zonked := (original, zonked) :: state.unifier.zonked }
        arena, work, results := zonked :: results
        visiting := state.visiting.erase original })
  | _ => none

/-- A `Visit` entry of the work list of `zonk`. -/
def zonkVisit (fuel : ℕ) (state : ZonkState) (work : List ZonkWork) (ty : TypeId) :
    Option (Turn ZonkState ZonkResult) := do
  let (ty, unifier) ← state.unifier.prune fuel state.arena ty
  let state := { state with unifier, work }
  match unifier.zonked.lookup ty with
  | some zonked => some (.again { state with results := zonked :: state.results })
  | none =>
      if ty ∈ state.visiting then some (.again { state with results := ty :: state.results })
      else do
        let entered := { state with visiting := ty :: state.visiting }
        match ← state.arena.get ty with
        | .metavar id => some (.leave (.error (.ambiguous id), unifier, state.arena))
        | .bound _ =>
            some (.leave (.error (.internal "bound type escaped scheme instantiation"),
              unifier, state.arena))
        | .apply left right =>
            some (.again { entered with work := .visit left :: .visit right :: .apply ty :: work })
        | .function left right =>
            some (.again { entered with work := .visit left :: .visit right :: .function ty :: work })
        | .rowCons label field tail =>
            some (.again { entered with work := .visit field :: .visit tail :: .row ty label :: work })
        | _ => some (.again { state with
            unifier := { unifier with zonked := (ty, ty) :: unifier.zonked }
            results := ty :: state.results })

/-- One turn of the work list of `zonk`. -/
def zonkTurn (fuel : ℕ) (state : ZonkState) : Option (Turn ZonkState ZonkResult) :=
  match state.work with
  | [] => do
      let closed ← state.results.head?
      some (.leave (.ok closed, state.unifier, state.arena))
  | .visit ty :: work => zonkVisit fuel state work ty
  | .apply original :: work => rebuild state work original .apply
  | .function original :: work => rebuild state work original .function
  | .row original label :: work => rebuild state work original (.rowCons label)

def zonk (fuel : ℕ) (unifier : Unifier) (arena : TypeArena) (ty : TypeId) : Option ZonkResult :=
  run (zonkTurn fuel) fuel ⟨unifier, arena, [.visit ty], [], []⟩

end Unifier

end HellRs.Types
