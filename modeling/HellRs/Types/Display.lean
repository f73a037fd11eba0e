import HellRs.Types.Arena

/-! # Rendering types

The work list of `TypeArena::display`. The precedence says when a function or an application is put
in parentheses.
-/

namespace HellRs.Types.TypeArena

open Loop

/-- Pending work of `display`. -/
inductive DisplayWork where
  | visit (ty : TypeId) (precedence : ℕ)
  | text (text : String)
deriving DecidableEq, Repr

/-- Wraps work in parentheses when the precedence asks for it: what is written now, and the work. -/
def parenthesize (parenthesized : Bool) (inner rest : List DisplayWork) : String × List DisplayWork :=
  if parenthesized then ("(", inner ++ .text ")" :: rest) else ("", inner ++ rest)

/-- What visiting a type writes, and the work it leaves. -/
def displayVisit (arena : TypeArena) (ty : TypeId) (precedence : ℕ) (work : List DisplayWork) :
    Option (String × List DisplayWork) := do
  match ← arena.get ty with
  | .metavar id => some ("t" ++ toString id, work)
  | .bound index => some ("a" ++ toString index, work)
  | .constructor name _ => some (name, work)
  | .symbol text => some ("\"" ++ text ++ "\"", work)
  | .rowNil => some ("\x7b\x7d", work)
  | .rowCons label field tail => do
      let more := if (← arena.get tail) = .rowNil then [] else [.text ", .."]
      some ("\x7b" ++ label ++ " :: ", .visit field 0 :: more ++ .text "\x7d" :: work)
  | .function argument result =>
      some (parenthesize (0 < precedence) [.visit argument 1, .text " -> ", .visit result 0] work)
  | .apply head argument => do
      match ← arena.get head with
      | .constructor "[]" _ => some ("[", .visit argument 0 :: .text "]" :: work)
      | _ => some (parenthesize (1 < precedence) [.visit head 1, .text " ", .visit argument 2] work)

def displayTurn (arena : TypeArena) :
    List DisplayWork × String → Option (Turn (List DisplayWork × String) String)
  | ([], result) => some (.leave result)
  | (.text text :: work, result) => some (.again (work, result ++ text))
  | (.visit ty precedence :: work, result) => do
      let (written, work) ← arena.displayVisit ty precedence work
      some (.again (work, result ++ written))

def display (fuel : ℕ) (arena : TypeArena) (ty : TypeId) : Option String :=
  run arena.displayTurn fuel ([.visit ty 0], "")

end HellRs.Types.TypeArena
