import HellRs.Syntax.Lexer

/-! # Layout

`insertLayout` adds virtual braces and semicolons to the tokens of the lexer. The head of the list of contexts is the
innermost block.
-/

namespace HellRs.Syntax

inductive LayoutContext where
  | explicit
  | implicit (column : ℕ) (first : Bool)
deriving DecidableEq, Repr

/-- The state of the loop of `insert_layout`. -/
structure Layout where
  output : List Token
  contexts : List LayoutContext
  pendingLayout : Bool
deriving DecidableEq, Repr

namespace Layout

/-- Close all implicit blocks on top, at the end of the file. -/
def closeImplicit (token : Token) : List LayoutContext → List Token
  | .implicit _ _ :: contexts => { token with kind := .virtualRBrace } :: closeImplicit token contexts
  | _ => []

/-- The virtual token before a token. -/
def virtualToken (kind : TokenKind) (token : Token) (startsLine : Bool) : Token :=
  ⟨kind, .empty token.span.start, startsLine, token.column⟩

/-- The block that a `do` or `of` before this token opens. -/
def openPending (layout : Layout) (token : Token) : Layout :=
  if layout.pendingLayout then
    if token.kind = .lBrace then { layout with pendingLayout := false }
    else {
      output := layout.output ++ [virtualToken .virtualLBrace token token.startsLine]
      contexts := .implicit token.column true :: layout.contexts
      pendingLayout := false }
  else layout

/-- Number of implicit blocks on top that are indented further than the column. -/
def deeper (column : ℕ) : List LayoutContext → ℕ
  | .implicit limit _ :: contexts => if column < limit then deeper column contexts + 1 else 0
  | _ => 0

/-- Close the blocks that a token at the start of a line leaves. -/
def closeDeeper (layout : Layout) (token : Token) : Layout :=
  let count := deeper token.column layout.contexts
  { layout with
    output := layout.output ++ List.replicate count (virtualToken .virtualRBrace token true)
    contexts := layout.contexts.drop count }

/-- The separator before a token at the start of a line. -/
def separate (layout : Layout) (token : Token) : Layout :=
  match layout.contexts with
  | .implicit column first :: contexts =>
      if token.column = column then
        if first then { layout with contexts := .implicit column false :: contexts }
        else { layout with output := layout.output ++ [virtualToken .virtualSemicolon token true] }
      else layout
  | _ => layout

/-- A token in the middle of a line is no first token of its block any more. -/
def within (layout : Layout) : Layout :=
  match layout.contexts with
  | .implicit column _ :: contexts => { layout with contexts := .implicit column false :: contexts }
  | _ => layout

/-- Pop the contexts up to the innermost explicit one. -/
def popExplicit : List LayoutContext → List LayoutContext
  | [] => []
  | .explicit :: contexts => contexts
  | .implicit _ _ :: contexts => popExplicit contexts

/-- What the token itself does to the contexts. -/
def enter (layout : Layout) (token : Token) : Layout :=
  let layout :=
    match token.kind with
    | .lBrace => { layout with contexts := .explicit :: layout.contexts }
    | .rBrace => { layout with contexts := popExplicit layout.contexts }
    | .kwDo | .kwOf => { layout with pendingLayout := true }
    | _ => layout
  { layout with output := layout.output ++ [token] }

/-- One token that is not the end of the file. -/
def step (layout : Layout) (token : Token) : Layout :=
  let layout := layout.openPending token
  let layout := if token.startsLine then (layout.closeDeeper token).separate token else layout.within
  layout.enter token

/-- The loop of `insert_layout`. -/
def insert (layout : Layout) : List Token → List Token
  | [] => layout.output
  | token :: tokens =>
      if token.kind = .eof then layout.output ++ closeImplicit token layout.contexts ++ [token]
      else (layout.step token).insert tokens

end Layout

def insertLayout (source : SourceFile) (physical : List Token) : List Token :=
  let rootSpan := match physical.head? with
    | some token => .empty token.span.start
    | none => source.eofSpan
  Layout.insert {
    output := [⟨.virtualLBrace, rootSpan, true, 1⟩]
    contexts := [.implicit ((physical.head?.map Token.column).getD 1) true]
    pendingLayout := false } physical

/-- `lex`. -/
def lex (isUppercase : Char → Bool) (source : SourceFile) : Except (List SyntaxError) (List Token) :=
  let lexer := Lexer.new source
  let (tokens, lexer) := lexer.tokensTurns isUppercase (lexer.rest.length + 1) []
  if lexer.errors = [] then .ok (insertLayout source tokens) else .error lexer.errors

end HellRs.Syntax
