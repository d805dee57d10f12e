import NilGuard.Go.Grammar.Stmts
import NilGuard.Go.Word

/-!
Whole files. Everything nested is read by `rules`, which are indexed by how deep nesting may go; a
file cannot nest deeper than it has tokens. A file may hold statements between its declarations.
-/

namespace NilGuard.Go.Surface.Grammar

open NilGuard.Reader

/-- The readers for what is nested at most `n` levels deep. -/
def rules : Nat → Rules
  | 0 => ⟨fun _ => failure, fun _ => failure, failure, failure, failure⟩
  | n + 1 =>
    let g := rules n
    ⟨type g, expr g, elements g, stmt g, block g⟩

/-! ### Imports -/

def importSpec : Reader Unit := do
  let t ← next
  if t.is "." || t.kind == .name then
    let path ← next
    guard (path.kind == .string)
  else guard (t.kind == .string)

def importDecl : Reader Unit := do
  let _ ← expect "import"
  discard (declared do
    importSpec
    return ((), (default : Span)))

/-! ### Functions -/

/-- The rest of a function or method behind its name. -/
def funcRest (g : Rules) (first : Span) (method : Bool) (receiver : List Name) (name : Name) :
    Reader Decl := do
  let (names, span) ← signature g .outer
  if ← isAhead .outer "\x7b" then
    let body ← block g
    return .func (first.upTo body.span) method name (receiver ++ names) (some body)
  else return .func (first.upTo span) method name (receiver ++ names) none

/-- Type parameters behind a name, if there are any. -/
def typeParamsHere (g : Rules) : Reader Unit := do
  if ← isAhead .outer "[" then typeParams g else return ()

def func (g : Rules) : Reader Decl := do
  let first ← expect "func"
  if ← isAhead .inner "(" then
    let (receiver, _) ← params g
    let n ← name
    funcRest g first.span true receiver n
  else
    let n ← name
    typeParamsHere g
    funcRest g first.span false [] n

/-! ### Files -/

/-- An item of a file, unless it is a package clause or an import. -/
def item (g : Rules) : Reader (Option Item) := do
  let some t ← peek | failure
  if t.is "package" then
    let _ ← next
    let _ ← name
    return none
  else if t.is "import" then
    importDecl
    return none
  else if t.is "func" then
    some <$> (Item.decl <$> func g <|> Item.stmt <$> stmt g)
  else if t.is "var" || t.is "const" then
    let (span, kind, specs) ← vars g
    return some (.decl (.vars span kind specs))
  else return some (.stmt (← stmt g))

def file (g : Rules) : Reader (List Item) := do
  let items ← itemList [] (item g)
  atEnd
  return items.reduceOption

end NilGuard.Go.Surface.Grammar

namespace NilGuard.Go

/-- The declarations of a source text, if it is well formed. -/
def Surface.Decl.ofSource? (source : List Char) : Option (List Surface.Decl) := do
  let ts ← tokens source
  let (items, _) ← (Grammar.file (Grammar.rules (ts.length + 1))).run ts
  guard (items.all Item.sound)
  return items.filterMap Item.decl?

end NilGuard.Go
