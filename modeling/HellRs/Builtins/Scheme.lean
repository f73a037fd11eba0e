import HellRs.Builtins.Registry

/-! # Scheme texts

The registry gives the type scheme of a builtin as text. Here the text is read back: an optional
`forall` with its binders, an optional class constraint, and a type of arrows, applications, lists,
tuples and names. A name that starts with a lower-case letter and has no module qualifier is a type
variable.
-/

namespace HellRs.Builtins

/-- Types of scheme texts. -/
inductive SchemeType where
  | var (name : List Char)
  | con (name : List Char)
  | app (head argument : SchemeType)
  | arrow (argument result : SchemeType)
deriving DecidableEq, Repr

namespace SchemeType

/-- Number of arguments before the result. -/
def arrows : SchemeType → ℕ
  | arrow _ result => result.arrows + 1
  | _ => 0

/-- The name at the head of a chain of applications. -/
def headName : SchemeType → Option (List Char)
  | con name => some name
  | app head _ => head.headName
  | _ => none

/-- The tuple of some types. -/
def tuple (items : List SchemeType) : SchemeType :=
  items.foldl app (con ('(' :: List.replicate (items.length - 1) ',' ++ [')']))

end SchemeType

/-- Words and brackets of a scheme text. -/
inductive SchemeToken where
  | word (text : List Char)
  | arrow
  | constraint
  | opening
  | closing
  | openingList
  | closingList
  | comma
deriving DecidableEq, Repr

/-- The token of a nonempty word. -/
def wordToken (word : List Char) : List SchemeToken :=
  if word = [] then []
  else if word = ['-', '>'] then [.arrow]
  else if word = ['=', '>'] then [.constraint]
  else [.word word]

def schemeTokens : List Char → List Char → List SchemeToken
  | word, [] => wordToken word
  | word, c :: rest =>
      if c = ' ' then wordToken word ++ schemeTokens [] rest
      else if c = '(' then wordToken word ++ .opening :: schemeTokens [] rest
      else if c = ')' then wordToken word ++ .closing :: schemeTokens [] rest
      else if c = '[' then wordToken word ++ .openingList :: schemeTokens [] rest
      else if c = ']' then wordToken word ++ .closingList :: schemeTokens [] rest
      else if c = ',' then wordToken word ++ .comma :: schemeTokens [] rest
      else schemeTokens (word ++ [c]) rest

/-- A type variable, or a type constructor. -/
def schemeName (word : List Char) : SchemeType :=
  if (word.head?.map Char.isLower).getD false ∧ '.' ∉ word then .var word else .con word

mutual

/-- A type up to the next closing bracket or comma. -/
def parseSchemeType : ℕ → List SchemeToken → Option (SchemeType × List SchemeToken)
  | 0, _ => none
  | fuel + 1, tokens => do
      let (head, tokens) ← parseSchemeAtom fuel tokens
      let (left, tokens) ← parseSchemeArguments fuel head tokens
      match tokens with
      | .arrow :: tokens => do
          let (right, tokens) ← parseSchemeType fuel tokens
          some (.arrow left right, tokens)
      | tokens => some (left, tokens)

/-- The arguments of an application. -/
def parseSchemeArguments : ℕ → SchemeType → List SchemeToken → Option (SchemeType × List SchemeToken)
  | 0, _, _ => none
  | fuel + 1, head, tokens =>
      match tokens with
      | [] => some (head, [])
      | token :: _ =>
          if token ∈ [.arrow, .closing, .closingList, .comma] then some (head, tokens)
          else do
            let (argument, tokens) ← parseSchemeAtom fuel tokens
            parseSchemeArguments fuel (.app head argument) tokens

/-- A name, a list, a tuple or a type in parentheses. -/
def parseSchemeAtom : ℕ → List SchemeToken → Option (SchemeType × List SchemeToken)
  | 0, _ => none
  | fuel + 1, tokens =>
      match tokens with
      | .opening :: .closing :: tokens => some (.con ['(', ')'], tokens)
      | .opening :: tokens => do
          let (items, tokens) ← parseSchemeItems fuel tokens
          match items with
          | [item] => some (item, tokens)
          | items => some (.tuple items, tokens)
      | .openingList :: tokens => do
          match ← parseSchemeType fuel tokens with
          | (item, .closingList :: tokens) => some (.app (.con ['[', ']']) item, tokens)
          | _ => none
      | .word word :: tokens => some (schemeName word, tokens)
      | _ => none

/-- Types separated by commas, up to the closing parenthesis. -/
def parseSchemeItems : ℕ → List SchemeToken → Option (List SchemeType × List SchemeToken)
  | 0, _ => none
  | fuel + 1, tokens => do
      match ← parseSchemeType fuel tokens with
      | (item, .comma :: tokens) => do
          let (items, tokens) ← parseSchemeItems fuel tokens
          some (item :: items, tokens)
      | (item, .closing :: tokens) => some ([item], tokens)
      | _ => none

end

/-- The word ends with a period, so it is the last binder of a `forall`. -/
def SchemeToken.closesBinders : SchemeToken → Bool
  | .word text => text.getLast? = some '.'
  | _ => false

/-- What follows the binders of a `forall`. -/
def dropForall (tokens : List SchemeToken) : List SchemeToken :=
  if tokens.head? = some (.word ['f', 'o', 'r', 'a', 'l', 'l']) then
    (tokens.dropWhile fun token => !token.closesBinders).drop 1
  else tokens

/-- What follows a class constraint. -/
def dropConstraint (tokens : List SchemeToken) : List SchemeToken :=
  if .constraint ∈ tokens then (tokens.dropWhile fun token => token ≠ .constraint).drop 1 else tokens

/-- The type of the characters of a scheme text. -/
def parseSchemeChars (chars : List Char) : Option SchemeType :=
  match parseSchemeType 100 (dropConstraint (dropForall (schemeTokens [] chars))) with
  | some (ty, []) => some ty
  | _ => none

/-- The type of a scheme text. -/
def parseScheme (text : String) : Option SchemeType := parseSchemeChars text.toList

theorem parseScheme_ofList (chars : List Char) :
    parseScheme (String.ofList chars) = parseSchemeChars chars := by
  rw [parseScheme, String.toList_ofList]

/-- `source_annotation_scheme`: the monadic traversals hold a marker in the registry. -/
def BuiltinSpec.annotation (spec : BuiltinSpec) : String :=
  if spec.name = "Monad.mapM" then "forall m a b. Monad m => (a -> m b) -> [a] -> m [b]"
  else if spec.name = "Monad.mapM_" then "forall m a. Monad m => (a -> m ()) -> [a] -> m ()"
  else if spec.name = "Monad.forM" then "forall m a b. Monad m => [a] -> (a -> m b) -> m [b]"
  else if spec.name = "Monad.forM_" then "forall m a. Monad m => [a] -> (a -> m ()) -> m ()"
  else if spec.name = "Monad.sequence" then "forall m a. Monad m => [m a] -> m [a]"
  else spec.scheme

/-- The type scheme that the registry gives a builtin. -/
def BuiltinSpec.schemeType (spec : BuiltinSpec) : Option SchemeType := parseScheme spec.annotation

end HellRs.Builtins
