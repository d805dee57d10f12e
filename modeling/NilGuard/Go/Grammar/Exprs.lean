import NilGuard.Go.Grammar.Types

/-!
Expressions. Operands and their suffixes bind closest, then operators in front, then operators in
between by their precedence.

Square brackets after an operand may hold an index or type arguments, and only what follows them
tells. Brackets around a type are type arguments in front of a call, of a composite literal, and of
another pair of brackets around a type; they vanish from a call, unless the call has one argument
and its callee is a type name, which makes it a conversion.
-/

namespace NilGuard.Go.Surface.Grammar

open NilGuard.Reader

/-! ### Composite literals -/

/-- A key or a value. Braces alone leave out the type of a composite literal. -/
def elementValue (g : Rules) : Reader Expr := do
  if ← isAhead .inner "\x7b" then g.elements else g.expr .inner

def keyedValue (g : Rules) : Reader Expr := do
  let e ← elementValue g
  match ← accept .inner ":" with
  | some _ =>
    let v ← elementValue g
    return .keyed (e.span.upTo v.span) e.asKey v
  | none => return e

/-- The braces of a composite literal. -/
def elements (g : Rules) : Reader Expr := do
  let (first, items, last) ← enclosed "\x7b" "\x7d" (keyedValue g)
  return .group (first.upTo last) items

/-- A composite literal of a type already read. -/
def composite (g : Rules) (type : Expr) : Reader Expr := do
  let body ← elements g
  return .group (type.span.upTo body.span) [type, body]

/-! ### Calls -/

/-- An argument, and whether it is spread over the parameters. -/
def argument (g : Rules) : Reader (Expr × Bool) := do
  let e ← g.expr .inner
  match ← accept .inner "..." with
  | some dots => return (.group (e.span.upTo dots.span) [e], true)
  | none => return (e, false)

/-- A conversion to a type already read. -/
def conversion (g : Rules) (type : Expr) : Reader Expr := do
  let _ ← expect "("
  let e ← g.expr .inner
  let _ ← accept .inner ","
  let last ← expect ")"
  return .group (type.span.upTo last.span) [type, e]

def call (g : Rules) (callee : Expr) : Reader Expr := do
  let (_, args, last) ← enclosed "(" ")" (argument g)
  return .call (callee.span.upTo last) callee (args.map (·.1))

/-- A name as an operand. -/
def named (n : Name) : Expr :=
  if ["true", "false", "iota"].contains n.text then .literal n.span else .ident n

/-- Whether tokens begin with a call with arguments of one of the functions that take a type. -/
def isTypeCall (cx : Context) : List Token → Bool
  | t :: u :: v :: _ => t.kind == .name && ["new", "make"].contains t.text
      && u.is "(" && !(cx.lines && u.fresh) && !v.is ")"
  | _ => false

def typeCallAhead (cx : Context) : Reader Bool := do
  return isTypeCall cx (← get)

/-- One more argument behind a type, if there is one. -/
def laterArgument (g : Rules) : Reader (Option Expr) := do
  if ← follows [",", ")"] then return none
  else
    match ← accept .inner "," with
    | some _ => return some (← g.expr .inner)
    | none => return none

/-- The arguments of a function whose first argument is a type. -/
def typedArguments (g : Rules) : Reader (List Expr × Span) := do
  let _ ← expect "("
  let type ← g.type .inner
  let rest ← many (laterArgument g)
  let _ ← accept .inner ","
  let last ← expect ")"
  return (type :: rest, last.span)

/-- A call of a function that takes a type. If its arguments are values after all, they are left for
an ordinary call. -/
def typeCall (g : Rules) : Reader Expr := do
  let callee := named (← name)
  match ← attempt (typedArguments g) with
  | some (args, last) => return .call (callee.span.upTo last) callee args
  | none => return callee

/-- A name as an operand, with the arguments if the first of them is a type. -/
def nameOperand (g : Rules) (cx : Context) : Reader Expr := do
  if ← typeCallAhead cx then typeCall g else return named (← name)

/-! ### Brackets -/

/-- A bound of a slice, if it is not left open. -/
def bound (g : Rules) : Reader (Option Expr) := do
  if (← isAhead .inner ":") || (← isAhead .inner "]") then return none
  else return some (← g.expr .inner)

/-- An index or a slice. -/
def index (g : Rules) (operand : Expr) : Reader Expr := do
  let _ ← expect "["
  let low ← bound g
  match ← accept .inner ":" with
  | none =>
    let some i := low | failure
    let last ← expect "]"
    return .group (operand.span.upTo last.span) [operand, i]
  | some _ =>
    let high ← bound g
    match ← accept .inner ":" with
    | none =>
      let last ← expect "]"
      return .group (operand.span.upTo last.span) (operand :: low.toList ++ high.toList)
    | some _ =>
      let some high := high | failure
      let limit ← g.expr .inner
      let last ← expect "]"
      return .group (operand.span.upTo last.span) (operand :: low.toList ++ [high, limit])

/-- Types in square brackets. -/
def typeList (g : Rules) : Reader (Span × List Expr) := do
  let (first, types, last) ← enclosed "[" "]" (g.type .inner)
  guard (!types.isEmpty)
  return (first.upTo last, types)

/-- A type name with type arguments. -/
def instantiated (base : Expr) (span : Span) (types : List Expr) : Expr :=
  .group (base.span.upTo span) [base, .group span (types.map fun t => .group t.span [t])]

/-- The argument of a call that has one and does not spread it. -/
def soleArgument : List (Expr × Bool) → Option Expr
  | [(e, false)] => some e
  | _ => none

/-- A call with type arguments already read. -/
def genericCall (g : Rules) (operand : Expr) (span : Span) (types : List Expr) : Reader Expr := do
  let (_, args, last) ← enclosed "(" ")" (argument g)
  let value := Expr.call (operand.span.upTo last) operand (args.map (·.1))
  match soleArgument args with
  | some e =>
    return operand.reading
      (fun base => .group (base.span.upTo last) [instantiated base span types, e]) value
  | none => return value

/-- A type name with the types that instantiate it, standing as an expression. -/
def instantiation (base : Expr) (last : Span) (types : List Expr) : Expr :=
  .group (base.span.upTo last) (base :: types)

/-- What stands behind brackets around types. -/
inductive Behind where
  | call
  | composite
  /-- More brackets around types, but no call behind them. -/
  | brackets
  | other

/-- Brackets around types, and what stands behind them. -/
def typesAhead (g : Rules) (cx : Context) : Reader Behind := do
  let _ ← typeList g
  if ← isAhead cx "(" then return .call
  else if !cx.header && (← isAhead cx "\x7b") then return .composite
  else if ← isAhead cx "[" then
    match ← attempt (typeList g) with
    | some _ => return if ← isAhead cx "(" then .other else .brackets
    | none => return .other
  else return .other

/-- Two pairs of brackets around types. -/
def typeListPair (g : Rules) : Reader ((Span × List Expr) × (Span × List Expr)) := do
  let first ← typeList g
  let second ← typeList g
  return (first, second)

def indexPair (g : Rules) (operand : Expr) : Reader Expr := do
  let e ← index g operand
  index g e

/-- Two pairs of brackets around types behind a type name. They may be two indexes as well. -/
def bracketPair (g : Rules) (operand base : Expr) : Reader Expr := do
  let (((span, types), (last, more)), value) ← both (typeListPair g) (indexPair g operand)
  let type (base : Expr) := instantiation (instantiated base span types) last more
  match value with
  | some value => return operand.reading type value
  | none => return type base

/-- Square brackets after an operand. -/
def brackets (g : Rules) (cx : Context) (operand : Expr) : Reader Expr := do
  match ← lookahead (typesAhead g cx), operand.asType? with
  | some .call, _ =>
    let (span, types) ← typeList g
    genericCall g operand span types
  | some .composite, some base =>
    let (span, types) ← typeList g
    composite g (instantiated base span types)
  | some .brackets, some base => bracketPair g operand base
  | some .other, some base =>
    index g operand <|> do
      let (last, types) ← typeList g
      return instantiation base last types
  | _, _ => index g operand

/-! ### Operands -/

/-- An operand that begins with an unmistakable type. -/
def typeOperand (g : Rules) (cx : Context) (type : Expr) (literal : Bool) : Reader Expr := do
  if literal && (← isAhead cx "\x7b") then composite g type else conversion g type

/-- A function literal, or a conversion to a function type. -/
def function (g : Rules) (cx : Context) : Reader Expr := do
  let first ← expect "func"
  let (names, span) ← signature g .inner
  if ← isAhead .inner "\x7b" then
    let body ← g.block
    return .closure (first.span.upTo body.span) names body
  else typeOperand g cx (.literal (first.span.upTo span)) false

/-- An expression in parentheses, or a conversion to a type in parentheses. -/
def parenthesized (g : Rules) (cx : Context) : Reader Expr :=
  (do let first ← expect "("
      let e ← g.expr .inner
      let last ← expect ")"
      return .paren (first.span.upTo last.span) e)
  <|> (do let first ← expect "("
          let type ← g.type .inner
          let last ← expect ")"
          typeOperand g cx (.group (first.span.upTo last.span) [type]) false)

def operand (g : Rules) (cx : Context) : Reader Expr := do
  let some t ← peek | failure
  if t.kind == .name then nameOperand g cx
  else if [.number, .string, .rune].contains t.kind then return .literal (← next).span
  else if t.is "(" then parenthesized g cx
  else if t.is "func" then function g cx
  else if t.is "[" then
    let type ← bracketType g cx true
    typeOperand g cx type true
  else
    let type ← keywordType g cx
    typeOperand g cx type (t.is "struct" || t.is "map")

/-- What stands behind a dot: an asserted type or a selected field. -/
def selection (g : Rules) (e : Expr) : Reader Expr := do
  let _ ← expect "."
  match ← accept .inner "(" with
  | some _ =>
    let type ← g.type .inner
    let last ← expect ")"
    return .group (e.span.upTo last.span) [e, type]
  | none =>
    let field ← name
    return .selector (e.span.upTo field.span) e field

/-- One suffix of an operand, if there is one. The guard of a type switch is not a suffix. -/
def suffix (g : Rules) (cx : Context) (e : Expr) : Reader (Option Expr) := do
  let some t ← ahead cx | return none
  if t.is "." then
    if ← follows [".", "(", "type", ")"] then return none
    else some <$> selection g e
  else if t.is "(" then some <$> call g e
  else if t.is "[" then some <$> brackets g cx e
  else if t.is "\x7b" && !cx.header then
    match e.asType? with
    | some type => some <$> composite g type
    | none => return none
  else return none

/-! ### Operators -/

/-- An operator in front of an operand. The arrow of a channel type is none. -/
def unaryOp : Reader (Option (UnaryOp × Span)) := do
  let some t ← peek | return none
  if t.kind != .operator || (← follows ["<-", "chan"]) then return none
  else
    match UnaryOp.ofToken? t.text with
    | some op => return some (op, (← next).span)
    | none => return none

def unary (g : Rules) (cx : Context) : Reader Expr := do
  let ops ← many unaryOp
  let e ← operand g cx
  let e ← iterate (suffix g cx) e
  return ops.foldr (fun (op, span) e => .unary (span.upTo e.span) op e) e

def joined (op : BinaryOp) (left right : Expr) : Expr :=
  .binary (left.span.upTo right.span) op left right

/-- Joins the operands around the operators of one precedence, from the left. -/
def joinLevel (level : Nat) (e : Expr) : List (BinaryOp × Expr) → Expr × List (BinaryOp × Expr)
  | [] => (e, [])
  | (op, right) :: rest =>
    if op.precedence == level then joinLevel level (joined op e right) rest
    else
      let (right', rest') := joinLevel level right rest
      (e, (op, right') :: rest')

/-- Joins operands, those around the closest operators first. -/
def joinAll (e : Expr) (rest : List (BinaryOp × Expr)) : Expr :=
  ([5, 4, 3, 2, 1].foldl (fun (e, rest) level => joinLevel level e rest) (e, rest)).1

/-- An operator between operands and what follows it, if there is one. -/
def binaryOp (g : Rules) (cx : Context) : Reader (Option (BinaryOp × Expr)) := do
  let some t ← ahead cx | return none
  match if t.kind == .operator then BinaryOp.ofToken? t.text else none with
  | some op =>
    let _ ← next
    return some (op, ← unary g cx)
  | none => return none

/-- Any expression. -/
def expr (g : Rules) (cx : Context) : Reader Expr := do
  let first ← unary g cx
  let rest ← many (binaryOp g cx)
  return joinAll first rest

end NilGuard.Go.Surface.Grammar
