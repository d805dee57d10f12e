import NilGuard.Go.Grammar.Exprs

/-!
Statements and the declarations that may stand among them.
-/

namespace NilGuard.Go.Surface.Grammar

open NilGuard.Reader

/-- The span of several expressions. -/
def listSpan (es : List Expr) : Span :=
  (((es.head?.map Expr.span).getD default).upTo (lastSpan default es))

def exprList (g : Rules) (cx : Context) : Reader (List Expr) :=
  commaList cx (expr g cx)

/-! ### Simple statements -/

/-- The rest of a simple statement behind its first expressions. -/
def simpleRest (g : Rules) (cx : Context) (targets : List Expr) : Reader Stmt := do
  let t ← ahead cx
  match t.bind fun t => if t.kind == .operator then AssignOp.ofToken? t.text else none with
  | some op =>
    let _ ← next
    let values ← exprList g cx
    return .assign ((listSpan targets).upTo (lastSpan default values)) op targets values
  | none =>
    let [e] := targets | failure
    let some t := t | return .expr e
    if t.is "++" || t.is "--" then
      let _ ← next
      return .step (e.span.upTo t.span) e (t.is "++")
    else if t.is "<-" then
      let _ ← next
      let value ← expr g cx
      return .send (e.span.upTo value.span) e value
    else return .expr e

def simple (g : Rules) (cx : Context) : Reader Stmt := do
  simpleRest g cx (← exprList g cx)

/-! ### Declarations -/

/-- A declaration in one piece or as a list in parentheses: its items, and the span of its last
token. An item gives the span of its own last token. -/
def declared (item : Reader (α × Span)) : Reader (List α × Span) := do
  if ← isAhead .inner "(" then
    let _ ← next
    let items ← itemList [")"] item
    let last ← expect ")"
    return (items.map (·.1), last.span)
  else
    let (a, last) ← item
    return ([a], last)

/-- A comma and a name behind it, if there is one. The commas count as names of a constant
declaration. -/
def laterName (kind : BindingKind) : Reader (Option (List Name)) := do
  match ← accept .outer "," with
  | some comma =>
    let n ← name
    return some (if kind == .const then [⟨comma.text, comma.span⟩, n] else [n])
  | none => return none

/-- Names with commas between them. -/
def specNames (kind : BindingKind) : Reader (List Name) := do
  let first ← name
  let rest ← many (laterName kind)
  return first :: rest.flatten

/-- A type on the same line, if there is one. -/
def typeHere (g : Rules) : Reader (Option Expr) := do
  if ← typeAhead .outer then some <$> type g .outer
  else return none

/-- One line of a variable or constant declaration. A variable needs a type or a value; the type of
a constant needs a value. -/
def spec (g : Rules) (kind : BindingKind) : Reader (Spec × Span) := do
  let names ← specNames kind
  let type ← typeHere g
  match ← accept .outer "=" with
  | some _ =>
    let values ← exprList g .outer
    return (.mk names values, lastSpan default values)
  | none =>
    match kind, type with
    | .const, none => return (.mk names [], (names.getLast?.map Name.span).getD default)
    | .const, some _ => failure
    | _, some t => return (.mk names [], t.span)
    | _, none => failure

/-- A variable or constant declaration: its span, what it declares, and its lines. -/
def vars (g : Rules) : Reader (Span × BindingKind × List Spec) := do
  let t ← next
  guard (t.is "var" || t.is "const")
  let kind := if t.is "const" then .const else .var
  let (specs, last) ← declared (spec g kind)
  return (t.span.upTo last, kind, specs)

/-- What a type is declared to be. -/
def typeDefinition (g : Rules) : Reader Expr := do
  let _ ← accept .outer "="
  type g .outer

/-- One line of a type declaration. -/
def typeSpec (g : Rules) : Reader (Unit × Span) := do
  let _ ← name
  let body ← (do typeParams g; typeDefinition g) <|> typeDefinition g
  return ((), body.span)

/-- A type declaration. Gives its span. -/
def typeDecl (g : Rules) : Reader Span := do
  let t ← expect "type"
  let (_, last) ← declared (typeSpec g)
  return t.span.upTo last

/-! ### Compound statements -/

def stmtClosers : List String := ["\x7d", "case", "default"]

/-- The header of a conditional or of a switch: a statement, and a second one behind a semicolon.
The second is missing when the body or nothing follows. -/
def headerPair (g : Rules) : Reader (Stmt × Option (Option Stmt)) := do
  let first ← simple g .heading
  match ← accept .heading ";" with
  | none => return (first, none)
  | some _ =>
    if ← isAhead .heading "\x7b" then return (first, some none)
    else return (first, some (some (← simple g .heading)))

/-- The expression that a statement consists of. -/
def asExpr? : Stmt → Option Expr
  | .expr e => some e
  | _ => none

/-- The header of a conditional: a statement, and the condition. -/
def ifHeader (g : Rules) : Reader (Option Stmt × Expr) := do
  match ← headerPair g with
  | (first, none) =>
    let some cond := asExpr? first | failure
    return (none, cond)
  | (init, some second) =>
    let some cond := second.bind asExpr? | failure
    return (some init, cond)

def elseBranch (g : Rules) : Reader Stmt := do
  if ← isAhead .inner "if" then g.stmt else Stmt.block <$> g.block

def ifStmt (g : Rules) : Reader Stmt := do
  let t ← expect "if"
  let (init, cond) ← ifHeader g
  let body ← g.block
  match ← accept .outer "else" with
  | none => return .ifStmt (t.span.upTo body.span) init cond body none
  | some _ =>
    let orElse ← elseBranch g
    return .ifStmt (t.span.upTo orElse.span) init cond body (some orElse)

/-- The rest of a range loop behind its keyword. -/
def rangeRest (g : Rules) (first : Span) (targets : List Expr) (define : Bool) : Reader Stmt := do
  let _ ← expect "range"
  let subject ← expr g .heading
  let body ← g.block
  return .range (first.upTo body.span) targets define subject body

/-- A part of a header, unless what would follow it comes next. -/
def unlessAhead (text : String) (p : Reader α) : Reader (Option α) := do
  if ← isAhead .heading text then return none else some <$> p

/-- The rest of a loop with three clauses, behind the first. -/
def loopRest (g : Rules) (first : Span) (init : Option Stmt) : Reader Stmt := do
  let _ ← expect ";"
  let cond ← unlessAhead ";" (expr g .heading)
  let _ ← expect ";"
  let post ← unlessAhead "\x7b" (simple g .heading)
  let body ← g.block
  return .loop (first.upTo body.span) init cond post body

def forStmt (g : Rules) : Reader Stmt := do
  let t ← expect "for"
  if ← isAhead .heading "\x7b" then
    let body ← g.block
    return .loop (t.span.upTo body.span) none none none body
  else if ← isAhead .heading "range" then rangeRest g t.span [] false
  else if ← isAhead .heading ";" then loopRest g t.span none
  else
    let targets ← exprList g .heading
    if (← follows [":=", "range"]) || (← follows ["=", "range"]) then
      let op ← next
      rangeRest g t.span targets (op.is ":=")
    else
      let init ← simpleRest g .heading targets
      if ← isAhead .heading ";" then loopRest g t.span (some init)
      else
        let some cond := asExpr? init | failure
        let body ← g.block
        return .loop (t.span.upTo body.span) none (some cond) none body

/-- The header of a case behind its first token. -/
def clauseHeader (header : Reader (List Expr × Option Stmt)) (t : Token) :
    Reader (List Expr × Option Stmt) := do
  if t.is "case" then header
  else
    guard (t.is "default")
    return ([], none)

/-- One case of a switch or select statement, if there is one. -/
def clause (g : Rules) (header : Reader (List Expr × Option Stmt)) : Reader (Option Clause) := do
  if ← isAhead .inner "\x7d" then return none
  else
    let t ← next
    let (values, comm) ← clauseHeader header t
    let colon ← expect ":"
    let stmts ← itemList stmtClosers g.stmt
    let last := (stmts.getLast?.map Stmt.span).getD colon.span
    return some (.mk (t.span.upTo last) values comm stmts)

/-- The cases of a switch or select statement, each headed as `header` says. Gives the closing brace
too. -/
def clauses (g : Rules) (header : Reader (List Expr × Option Stmt)) :
    Reader (List Clause × Span) := do
  let _ ← expect "\x7b"
  let cs ← many (clause g header)
  let last ← expect "\x7d"
  return (cs, last.span)

def typeGuard : List String := [".", "(", "type", ")"]

/-- The guard of a type switch, when the statement before it may be one: the new name and the
value. -/
def guardParts : Stmt → Option (Option Expr × Expr)
  | .expr value => some (none, value)
  | .assign _ .define targets [value] => some (targets.head?, value)
  | _ => none

/-- The header of a switch: a statement, and another one for what is switched on. -/
def switchHeader (g : Rules) : Reader (Option Stmt × Option Stmt) := do
  if ← isAhead .heading "\x7b" then return (none, none)
  else
    match ← headerPair g with
    | (first, none) => return (none, some first)
    | (first, some second) => return (some first, second)

/-- The rest of a type switch, from its guard on. -/
def typeSwitch (g : Rules) (first : Span) (init : Option Stmt) (tag : Option Stmt) :
    Reader Stmt := do
  let some (newName, value) := tag.bind guardParts | failure
  let _ ← next; let _ ← next; let _ ← next; let _ ← next
  let (cs, last) ← clauses g (do let _ ← commaList .inner (type g .inner); return ([], none))
  return .switch (first.upTo last) init newName (some value) cs

/-- The rest of any other switch. -/
def valueSwitch (g : Rules) (first : Span) (init : Option Stmt) (tag : Option Stmt) :
    Reader Stmt := do
  let tag' := tag.bind asExpr?
  guard (tag'.isSome == tag.isSome)
  let (cs, last) ← clauses g (do let values ← exprList g .inner; return (values, none))
  return .switch (first.upTo last) init none tag' cs

def switchStmt (g : Rules) : Reader Stmt := do
  let t ← expect "switch"
  let (init, tag) ← switchHeader g
  if ← follows typeGuard then typeSwitch g t.span init tag else valueSwitch g t.span init tag

/-- Whether a statement sends, receives, or does so on the right of one assignment. -/
def communicates : Stmt → Bool
  | .send .. | .expr _ => true
  | .assign _ op _ [_] => op != .compound
  | _ => false

/-- What a case of a select statement waits for. -/
def communication (g : Rules) : Reader (List Expr × Option Stmt) := do
  let targets ← exprList g .inner
  let s ← simpleRest g .inner targets
  guard (communicates s)
  return ([], some s)

def selectStmt (g : Rules) : Reader Stmt := do
  let t ← expect "select"
  let (cs, last) ← clauses g (communication g)
  return .select (t.span.upTo last) cs

/-! ### Statements -/

def returnStmt (g : Rules) : Reader Stmt := do
  let t ← expect "return"
  match ← ahead .outer with
  | none => return .returnStmt t.span []
  | some u =>
    if u.is ";" || stmtClosers.any u.is then return .returnStmt t.span []
    else
      let values ← exprList g .outer
      return .returnStmt (t.span.upTo (lastSpan t.span values)) values

/-- A statement that leaves the usual order, perhaps for a label. -/
def jump : Reader Stmt := do
  let t ← next
  guard (t.kind == .keyword)
  let labeled := (← ahead .outer).any (·.kind == .name)
  if t.is "fallthrough" then return .jump t.span t.text
  else if t.is "goto" || labeled then
    let label ← name
    return .jump (t.span.upTo label.span) t.text
  else return .jump t.span t.text

/-- A statement behind a label, which is missing at the end of a block or case. -/
def labeledStmt (g : Rules) : Reader Stmt := do
  let label ← name
  let colon ← expect ":"
  let span := label.span.upTo colon.span
  if (← ahead .inner).any fun t => stmtClosers.any t.is then
    return .labeled span label (.empty span)
  else
    let s ← g.stmt
    return .labeled (label.span.upTo s.span) label s

/-- Whether tokens begin with a label. -/
def isLabel : List Token → Bool
  | t :: u :: _ => t.kind == .name && u.is ":"
  | _ => false

def labelAhead : Reader Bool := do
  return isLabel (← get)

def varsStmt (g : Rules) : Reader Stmt := do
  let (span, kind, specs) ← vars g
  return .vars span kind specs

/-- A call that runs beside the caller or after it. -/
def callStmt (g : Rules) : Reader Stmt := do
  let t ← next
  let call ← expr g .outer
  if t.is "go" then return .go (t.span.upTo call.span) call
  else return .defer (t.span.upTo call.span) call

/-- Any statement. -/
def stmt (g : Rules) : Reader Stmt := do
  let some t ← peek | failure
  if t.kind == .keyword then
    match t.text with
    | "var" | "const" => varsStmt g
    | "type" => return .empty (← typeDecl g)
    | "return" => returnStmt g
    | "go" | "defer" => callStmt g
    | "if" => ifStmt g
    | "for" => forStmt g
    | "switch" => switchStmt g
    | "select" => selectStmt g
    | "break" | "continue" | "goto" | "fallthrough" => jump
    | _ => simple g .outer
  else if t.is ";" then return .empty (← next).span
  else if t.is "\x7b" then Stmt.block <$> g.block
  else if ← labelAhead then labeledStmt g
  else simple g .outer

/-- Statements between braces. -/
def block (g : Rules) : Reader Block := do
  let first ← expect "\x7b"
  let stmts ← itemList ["\x7d"] (stmt g)
  let last ← expect "\x7d"
  return .mk (first.span.upTo last.span) stmts

end NilGuard.Go.Surface.Grammar
