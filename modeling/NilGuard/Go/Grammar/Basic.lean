import NilGuard.Go.Surface
import NilGuard.Reader

/-!
Reading tokens.

A newline ends a statement, a declaration or a field, and means nothing inside brackets or in the
header of a statement. A reader of something that can stand in both kinds of place takes a
`Context`.
-/

namespace NilGuard.Go.Surface.Grammar

open NilGuard.Reader

abbrev Reader := NilGuard.Reader Token

/-- Where an expression or a type stands. -/
structure Context where
  /-- A newline ends it. -/
  lines : Bool
  /-- It is in the header of a statement, where a brace after a name opens the body. -/
  header : Bool

/-- Between brackets. -/
def Context.inner : Context := ⟨false, false⟩

/-- In a statement. -/
def Context.outer : Context := ⟨true, false⟩

/-- In the header of a statement. -/
def Context.heading : Context := ⟨false, true⟩

/-- Takes the given keyword, operator or mark. -/
def expect (text : String) : Reader Token := do
  let t ← next
  guard (t.is text)
  return t

/-- Takes a name. -/
def name : Reader Name := do
  let t ← next
  t.name?

/-- The next token, which stays. -/
def peek : Reader (Option Token) := do
  return (← get).head?

/-- The next token, unless a newline in front of it ends what is being read. -/
def ahead (cx : Context) : Reader (Option Token) := do
  let ts ← get
  return ts.head?.filter fun t => !(cx.lines && t.fresh)

/-- Whether the tokens in front are the given ones. -/
def follows (texts : List String) : Reader Bool := do
  let ts ← get
  return (ts.take texts.length).length == texts.length
    && (List.zipWith Token.is ts texts).all id

/-- Whether the next token is the given one and no newline ends what is being read. -/
def isAhead (cx : Context) (text : String) : Reader Bool := do
  return (← ahead cx).any (·.is text)

/-- Takes the given token if it comes next. -/
def accept (cx : Context) (text : String) : Reader (Option Token) := do
  if ← isAhead cx text then return some (← expect text) else return none

/-- One or more items with commas between them. -/
def commaList (cx : Context) (item : Reader α) : Reader (List α) := do
  let first ← item
  let rest ← many do
    match ← accept cx "," with
    | some _ => return some (← item)
    | none => return none
  return first :: rest

/-- What ends an item between brackets: a comma, or the closing bracket, which stays. -/
def separator (closing : String) : Reader Unit := do
  match ← accept .inner "," with
  | some _ => return
  | none => guard (← isAhead .inner closing)

/-- Items between brackets, with commas between them and perhaps one at the end. Gives the closing
bracket too. -/
def enclosed (opening closing : String) (item : Reader α) : Reader (Span × List α × Span) := do
  let first ← expect opening
  let items ← many do
    if ← isAhead .inner closing then return none
    let a ← item
    separator closing
    return some a
  let last ← expect closing
  return (first.span, items, last.span)

/-- The end of a statement, declaration or field: a newline, a semicolon, the end of the source, or
one of the tokens that close the list it is in. -/
def endOfItem (closers : List String) : Reader Unit := do
  match ← peek with
  | none => return
  | some t =>
    if t.fresh then return
    else if t.is ";" then discard next
    else guard (closers.any t.is)

/-- Items that each end as `endOfItem` says, up to one of the closing tokens. -/
def itemList (closers : List String) (item : Reader α) : Reader (List α) :=
  many do
    match ← peek with
    | none => return none
    | some t =>
      if closers.any t.is then return none
      let a ← item
      endOfItem closers
      return some a

/-- The readers for what is nested inside something else. -/
structure Rules where
  type : Context → Reader Expr
  expr : Context → Reader Expr
  /-- The braces of a composite literal. -/
  elements : Reader Expr
  stmt : Reader Stmt
  block : Reader Block

end NilGuard.Go.Surface.Grammar
