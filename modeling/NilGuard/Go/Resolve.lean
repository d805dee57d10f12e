import NilGuard.Go.Grammar.File
import NilGuard.Go.Scope
import NilGuard.Go.Surface
import NilGuard.Go.Tree
import NilGuard.Text.Bytes

/-!
Resolution of names. A walk over the surface tree makes an identifier for each name and gives it the
binding that lexical scoping asks for:

* the names a file declares are known in all of it;
* parameters, named results and the body of a function share one scope, and so do the header and the
  cases of a statement, inside which every block and case has a scope of its own;
* values are resolved before the names that their own statement declares;
* `:=` takes a name that the innermost scope already has, and declares the others.
-/

namespace NilGuard.Go

/-- What resolution has made so far. -/
structure Resolver where
  source : List Char
  scopes : Scopes := {}
  idents : Array Ident := #[]

namespace Resolver

abbrev Resolve := StateM Resolver

/-- Runs a step inside a scope of its own. -/
def inScope (step : Resolve α) : Resolve α := do
  modify fun r => { r with scopes := r.scopes.push }
  let a ← step
  modify fun r => { r with scopes := r.scopes.pop }
  return a

/-- The source text of a span. -/
def textOf (span : Span) : Resolve String := do
  return String.ofList ((Text.slice (← get).source span.start span.stop).getD [])

/-- A new identifier. -/
def newIdent (name : Name) (binding : Option BindingId) : Resolve IdentId := do
  let r ← get
  set { r with idents := r.idents.push ⟨name.text, binding, name.span⟩ }
  return r.idents.size

/-- A name that is declared in the innermost scope. -/
def declareIdent (kind : BindingKind) (name : Name) : Resolve IdentId := do
  if name.text == blankName then newIdent name none
  else
    let r ← get
    let (id, scopes) := r.scopes.declare name.text kind name.span
    set { r with scopes }
    newIdent name (some id)

/-- A name that is used. -/
def useIdent (name : Name) : Resolve IdentId := do
  if name.text == blankName then newIdent name none
  else
    let r ← get
    let (id, scopes) := r.scopes.resolve name.text
    set { r with scopes }
    newIdent name (some id)

/-- A name in an expression, where `nil` is always the literal. -/
def exprIdent (name : Name) : Resolve IdentId :=
  if name.text == nilName then newIdent name none else useIdent name

/-- A name on the left of `:=`. -/
def defineIdent (name : Name) : Resolve IdentId := do
  if name.text == nilName then newIdent name none
  else match (← get).scopes.inCurrent? name.text with
    | some id => if name.text == blankName then newIdent name none else newIdent name (some id)
    | none => declareIdent .var name

/-- Declares names one after the other. -/
def declareAll (kind : BindingKind) : List Name → Resolve (List IdentId)
  | [] => return []
  | name :: names => do
    let id ← declareIdent kind name
    return id :: (← declareAll kind names)

/-- The name that a type switch declares, which is whatever text stands there. -/
def declareNew : Option Surface.Expr → Resolve (Option IdentId)
  | none => return none
  | some e => do
    let text ← textOf e.span
    return some (← declareIdent .var ⟨text, e.span⟩)

mutual

def resolveExpr : Surface.Expr → Resolve Expr
  | .ident name => return .ident name.span (← exprIdent name)
  | .literal span => return .literal span (← textOf span)
  | .unary span op operand => return .unary span op (← resolveExpr operand)
  | .binary span op left right => do
    let left ← resolveExpr left
    return .binary span op left (← resolveExpr right)
  | .call span callee args => do
    let callee ← resolveExpr callee
    return .call span callee (← resolveExprs args)
  | .selector span operand field => return .selector span (← resolveExpr operand) field.text
  | .paren span inner => return .paren span (← resolveExpr inner)
  | .closure span params body => inScope do
    let _ ← declareAll .param params
    return .closure span (← resolveBody body)
  | .keyed span key value => do
    let key ← resolveExpr key
    return .keyed span key (← resolveExpr value)
  | .group span parts => return .group span (← resolveExprs parts)
  | .typeName name => return .literal name.span name.text
  | .key name =>
    if name.text == nilName then return .ident name.span (← exprIdent name)
    else return .literal name.span name.text
  | .either name asType asValue =>
    if name.text == nilName then resolveExpr asValue else resolveExpr asType

def resolveExprs : List Surface.Expr → Resolve (List Expr)
  | [] => return []
  | e :: es => do
    let e ← resolveExpr e
    return e :: (← resolveExprs es)

/-- A left-hand side of `:=`. -/
def resolveTarget : Surface.Expr → Resolve Expr
  | .ident name => return .ident name.span (← defineIdent name)
  | e => resolveExpr e

def resolveTargets : List Surface.Expr → Resolve (List Expr)
  | [] => return []
  | e :: es => do
    let e ← resolveTarget e
    return e :: (← resolveTargets es)

/-- A target of a range loop that declares its targets. -/
def resolveRangeTarget : Surface.Expr → Resolve Expr
  | .ident name => do
    if name.text == nilName then return .ident name.span (← newIdent name none)
    else return .ident name.span (← declareIdent .var name)
  | e => resolveExpr e

def resolveRangeTargets : List Surface.Expr → Resolve (List Expr)
  | [] => return []
  | e :: es => do
    let e ← resolveRangeTarget e
    return e :: (← resolveRangeTargets es)

/-- A block in the scope at hand. -/
def resolveBody : Surface.Block → Resolve Block
  | .mk span stmts => return .mk span (← resolveStmts stmts)

/-- A block with a scope of its own. -/
def resolveBlock : Surface.Block → Resolve Block
  | .mk span stmts => inScope do return .mk span (← resolveStmts stmts)

def resolveStmts : List Surface.Stmt → Resolve (List Stmt)
  | [] => return []
  | s :: ss => do
    let s ← resolveStmt s
    return s :: (← resolveStmts ss)

def resolveOptStmt : Option Surface.Stmt → Resolve (Option Stmt)
  | none => return none
  | some s => return some (← resolveStmt s)

def resolveOptExpr : Option Surface.Expr → Resolve (Option Expr)
  | none => return none
  | some e => return some (← resolveExpr e)

def resolveSpecs (kind : BindingKind) : List Surface.Spec → Resolve (List Spec)
  | [] => return []
  | .mk names values :: specs => do
    let values ← resolveExprs values
    let names ← declareAll kind names
    return .mk names values :: (← resolveSpecs kind specs)

def resolveClauses : List Surface.Clause → Resolve (List Clause)
  | [] => return []
  | .mk span values comm stmts :: cs => do
    let c ← inScope do
      let values ← resolveExprs values
      let comm ← resolveOptStmt comm
      return Clause.mk values comm (.mk span (← resolveStmts stmts))
    return c :: (← resolveClauses cs)

def resolveStmt : Surface.Stmt → Resolve Stmt
  | .block body => return .block body.span (← resolveBlock body)
  | .ifStmt span init cond body orElse => inScope do
    let init ← resolveOptStmt init
    let cond ← resolveExpr cond
    let body ← resolveBlock body
    return .ifStmt span init cond body (← resolveOptStmt orElse)
  | .returnStmt span values => return .returnStmt span (← resolveExprs values)
  | .assign span op targets values => do
    let values ← resolveExprs values
    let targets ← (if op == .define then resolveTargets targets else resolveExprs targets)
    return .assign span op targets values
  | .step span target up => return .step span (← resolveExpr target) up
  | .expr value => return .expr value.span (← resolveExpr value)
  | .send span channel value => do
    let channel ← resolveExpr channel
    return .send span channel (← resolveExpr value)
  | .vars span kind specs => return .vars span (← resolveSpecs kind specs)
  | .go span call => return .go span (← resolveExpr call)
  | .defer span call => return .defer span (← resolveExpr call)
  | .loop span init cond post body => inScope do
    let init ← resolveOptStmt init
    let cond ← resolveOptExpr cond
    let post ← resolveOptStmt post
    return .loop span init cond post (← resolveBlock body)
  | .range span targets define subject body => inScope do
    let subject ← resolveExpr subject
    let targets ← (if define then resolveRangeTargets targets else resolveExprs targets)
    return .range span targets[0]? targets[1]? define subject (← resolveBlock body)
  | .switch span init newName tag clauses => inScope do
    let init ← resolveOptStmt init
    let tag ← resolveOptExpr tag
    let newName ← declareNew newName
    return .switch span init newName tag (← resolveClauses clauses)
  | .select span clauses => return .select span (← resolveClauses clauses)
  | .labeled span label stmt => return .labeled span label.text (← resolveStmt stmt)
  | .jump span word => return .jump span word
  | .empty span => return .empty span

end

/-- Uses names one after the other. -/
def useAll : List Name → Resolve (List IdentId)
  | [] => return []
  | name :: names => do
    let id ← useIdent name
    return id :: (← useAll names)

/-- The lines of a declaration whose names are known already. -/
def resolveGlobals : List Surface.Spec → Resolve (List Spec)
  | [] => return []
  | .mk names values :: specs => do
    let values ← resolveExprs values
    let names ← useAll names
    return .mk names values :: (← resolveGlobals specs)

def resolveDecl : Surface.Decl → Resolve Decl
  | .func span _ name params body => inScope do
    let _ ← declareAll .param params
    match body with
    | none => return .func span name.text none
    | some body => return .func span name.text (some (← resolveBody body))
  | .vars span _ specs => return .vars (.vars span (← resolveGlobals specs))

def resolveDecls : List Surface.Decl → Resolve (List Decl)
  | [] => return []
  | d :: ds => do
    let d ← resolveDecl d
    return d :: (← resolveDecls ds)

end Resolver

/-- The names that a declaration makes known in the whole file. -/
def Surface.Decl.globals : Surface.Decl → List (Name × BindingKind)
  | .func _ method name _ _ => if method then [] else [(name, .func)]
  | .vars _ kind specs =>
    (specs.flatMap fun (.mk names _) => names.filter (·.text != blankName)).map (·, kind)

/-- The scope of a file before its declarations are resolved. -/
def Scopes.ofDecls (decls : List Surface.Decl) : Scopes :=
  (decls.flatMap Surface.Decl.globals).foldl
    (fun s (name, kind) => s.declareInFile name.text kind name.span) {}

/-- The tree of a source text with its names resolved, if the text is well formed. -/
def File.ofSource? (path source : String) : Option File := do
  let surface ← Surface.Decl.ofSource? source.toList
  let (decls, r) := (Resolver.resolveDecls surface).run
    { source := source.toList, scopes := Scopes.ofDecls surface }
  return { path, source, decls, idents := r.idents, bindings := r.scopes.bindings }

end NilGuard.Go
