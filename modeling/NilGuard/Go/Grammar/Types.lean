import NilGuard.Go.Grammar.Basic

/-!
Types and signatures. A type is read as an expression: a type name and a whole struct, interface or
function type is literal text, any other type is the group of its parts.
-/

namespace NilGuard.Go.Surface.Grammar

open NilGuard.Reader

/-- Whether a type comes next. -/
def typeAhead (cx : Context) : Reader Bool := do
  match ← ahead cx with
  | none => return false
  | some t =>
    if t.is "<-" then follows ["<-", "chan"]
    else return t.kind == .name
      || ["*", "[", "(", "map", "chan", "func", "struct", "interface", "~"].any t.is

/-- The span of the last of several expressions. -/
def lastSpan (first : Span) (es : List Expr) : Span :=
  (es.getLast?.map Expr.span).getD first

/-- Types joined by bars, as they bound a type parameter. -/
def typeUnion (g : Rules) (cx : Context) : Reader Expr := do
  let first ← g.type cx
  let rest ← many do
    match ← accept cx "|" with
    | some _ => return some (← g.type cx)
    | none => return none
  return .group (first.span.upTo (lastSpan first.span rest)) (first :: rest)

/-- Type arguments in square brackets. -/
def typeArgs (g : Rules) : Reader Expr := do
  let (first, args, last) ← enclosed "[" "]" (typeUnion g .inner)
  guard (!args.isEmpty)
  return .group (first.upTo last) args

/-- A type name, perhaps qualified. -/
def qualifiedName (cx : Context) : Reader Expr := do
  let n ← name
  match ← accept cx "." with
  | some _ =>
    let field ← name
    return .group (n.span.upTo field.span) [.literal n.span, .literal field.span]
  | none => return .literal n.span

/-- A type name, perhaps with type arguments. -/
def typeName (g : Rules) (cx : Context) : Reader Expr := do
  let base ← qualifiedName cx
  if ← isAhead cx "[" then
    match ← attempt (typeArgs g) with
    | some args => return .group (base.span.upTo args.span) [base, args]
    | none => return base
  else return base

/-! ### Parameters -/

/-- An entry of a parameter list, before it is known which entries are names. -/
inductive Param where
  /-- A name alone: a parameter name if the type comes in a later entry, else a type. -/
  | bare (name : Name)
  | typed (name : Name)
  | variadic (name : Option Name)
  | type

/-- The names that a parameter list declares. Names that stand alone belong to the next entry with a
name and a type, if only such names are in between. -/
def Param.names : List Name → List Param → List Name
  | _, [] => []
  | waiting, .bare name :: ps => names (waiting ++ [name]) ps
  | waiting, .typed name :: ps => waiting ++ name :: names [] ps
  | _, .variadic name :: ps => name.toList ++ names [] ps
  | _, .type :: ps => names [] ps

def paramEnds : Reader Unit := do
  guard ((← isAhead .inner ",") || (← isAhead .inner ")"))

def param (g : Rules) : Reader Param :=
  (do let n ← attempt name
      let _ ← expect "..."
      let _ ← g.type .inner
      return .variadic n)
  <|> (do let n ← name
          let _ ← g.type .inner
          paramEnds
          return .typed n)
  <|> (do let n ← name
          paramEnds
          return .bare n)
  <|> (do let _ ← g.type .inner
          return .type)

/-- A parameter list: the names it declares and the span of the list. -/
def params (g : Rules) : Reader (List Name × Span) := do
  let (first, ps, last) ← enclosed "(" ")" (param g)
  return (Param.names [] ps, first.upTo last)

/-- Parameters and results: the names they declare and the span of both. -/
def signature (g : Rules) (cx : Context) : Reader (List Name × Span) := do
  let (names, span) ← params g
  if ← isAhead cx "(" then
    let (results, last) ← params g
    return (names ++ results, span.upTo last)
  else if ← typeAhead cx then
    let result ← g.type cx
    return (names, span.upTo result.span)
  else return (names, span)

/-- Type parameters in square brackets. -/
def typeParams (g : Rules) : Reader Unit := do
  let (_, ps, _) ← enclosed "[" "]" do
    let _ ← commaList .inner name
    let _ ← typeUnion g .inner
  guard (!ps.isEmpty)

/-! ### Structs and interfaces -/

/-- A token that stands on the line of the one before it. -/
def sameLine : Reader Unit := do
  guard (← ahead .outer).isSome

def field (g : Rules) : Reader Unit := do
  (do let _ ← commaList .outer name
      sameLine
      discard (g.type .outer))
  <|> (do let _ ← accept .inner "*"
          discard (typeName g .outer))
  if (← ahead .outer).any (·.kind == .string) then discard next

def element (g : Rules) : Reader Unit :=
  (do let _ ← name
      discard (signature g .outer))
  <|> discard (typeUnion g .outer)

/-- Braces around fields or interface elements. Gives the closing brace. -/
def members (item : Reader Unit) : Reader Span := do
  let _ ← expect "\x7b"
  let _ ← itemList ["\x7d"] item
  let last ← expect "\x7d"
  return last.span

/-! ### Types -/

/-- The type behind a closing bracket, where a newline would end what is being read. -/
def elementType (g : Rules) (cx : Context) : Reader Expr := do
  guard (← ahead cx).isSome
  g.type cx

/-- A type of a struct, interface, function or channel, or a map. -/
def keywordType (g : Rules) (cx : Context) : Reader Expr := do
  let t ← next
  if t.is "struct" then
    return .literal (t.span.upTo (← members (field g)))
  else if t.is "interface" then
    return .literal (t.span.upTo (← members (element g)))
  else if t.is "func" then
    let (_, span) ← signature g cx
    return .literal (t.span.upTo span)
  else if t.is "map" then
    let _ ← expect "["
    let key ← g.type .inner
    let _ ← expect "]"
    let value ← elementType g cx
    return .group (t.span.upTo value.span) [key, value]
  else if t.is "chan" then
    let _ ← accept .inner "<-"
    let value ← g.type cx
    return .group (t.span.upTo value.span) [value]
  else if t.is "<-" then
    let _ ← expect "chan"
    let value ← g.type cx
    return .group (t.span.upTo value.span) [value]
  else failure

/-- A slice or array type. In front of a composite literal the length may be left open. -/
def bracketType (g : Rules) (cx : Context) (openLength : Bool) : Reader Expr := do
  let first ← expect "["
  if (← accept .inner "]").isSome then
    let item ← elementType g cx
    return .group (first.span.upTo item.span) [item]
  else if openLength && (← follows ["...", "]"]) then
    let _ ← next
    let _ ← next
    let item ← elementType g cx
    return .group (first.span.upTo item.span) [item]
  else
    let length ← g.expr .inner
    let _ ← expect "]"
    let item ← elementType g cx
    return .group (first.span.upTo item.span) [length, item]

/-- Any type. -/
def type (g : Rules) (cx : Context) : Reader Expr := do
  let some t ← peek | failure
  if t.kind == .name then typeName g cx
  else if t.is "[" then bracketType g cx false
  else if t.is "*" || t.is "~" then
    let first ← next
    let inner ← g.type cx
    return .group (first.span.upTo inner.span) [inner]
  else if t.is "(" then
    let first ← next
    let inner ← g.type .inner
    let last ← expect ")"
    return .group (first.span.upTo last.span) [inner]
  else keywordType g cx

end NilGuard.Go.Surface.Grammar
