import NilGuard.Go.Surface

/-!
The words of a tree: its names in the order of the source, each with what it does where it stands.
Of two readings only the one that holds has words.
-/

namespace NilGuard.Go.Surface

/-- What a name does where it stands. -/
inductive Role where
  /-- It is used in an expression. -/
  | value
  /-- It is on the left of `:=`, which declares it unless the innermost scope has it. -/
  | target
  | declared
  /-- It is a key that may be a field. -/
  | field
  | type
  deriving DecidableEq, Repr, Inhabited

structure Word where
  role : Role
  name : Name
  deriving DecidableEq, Repr, Inhabited

/-- Words for names that are declared. -/
def declaredWords (names : List Name) : List Word :=
  names.map (⟨.declared, ·⟩)

/-- The role of a name in a place that has a role for names. There `nil` is the literal. -/
def roleOf (role : Role) (name : Name) : Role :=
  if name.text == nilName then .value else role

variable (text : Span → String)

mutual

/-- The words of an expression. What `text` says about a span is the name that a type switch
declares there. -/
def exprWords : Expr → List Word
  | .ident name => [⟨.value, name⟩]
  | .literal _ => []
  | .unary _ _ operand => exprWords operand
  | .binary _ _ left right => exprWords left ++ exprWords right
  | .call _ callee args => exprWords callee ++ exprsWords args
  | .selector _ operand _ => exprWords operand
  | .paren _ inner => exprWords inner
  | .closure _ params body => declaredWords params ++ blockWords body
  | .keyed _ key value => exprWords key ++ exprWords value
  | .group _ parts => exprsWords parts
  | .typeName name => [⟨.type, name⟩]
  | .key name => [⟨roleOf .field name, name⟩]
  | .either name asType asValue =>
    if name.text == nilName then exprWords asValue else ⟨.type, name⟩ :: exprWords asType

def exprsWords : List Expr → List Word
  | [] => []
  | e :: es => exprWords e ++ exprsWords es

/-- The words of targets, where a bare name has the given role. -/
def targetsWords (role : Role) : List Expr → List Word
  | [] => []
  | .ident name :: es => ⟨roleOf role name, name⟩ :: targetsWords role es
  | e :: es => exprWords e ++ targetsWords role es

def blockWords : Block → List Word
  | .mk _ stmts => stmtsWords stmts

def stmtsWords : List Stmt → List Word
  | [] => []
  | s :: ss => stmtWords s ++ stmtsWords ss

def optStmtWords : Option Stmt → List Word
  | none => []
  | some s => stmtWords s

def optExprWords : Option Expr → List Word
  | none => []
  | some e => exprWords e

def specsWords : List Spec → List Word
  | [] => []
  | .mk names values :: specs => declaredWords names ++ exprsWords values ++ specsWords specs

def clausesWords : List Clause → List Word
  | [] => []
  | .mk _ values comm stmts :: cs =>
    exprsWords values ++ optStmtWords comm ++ stmtsWords stmts ++ clausesWords cs

def stmtWords : Stmt → List Word
  | .block body => blockWords body
  | .ifStmt _ init cond body orElse =>
    optStmtWords init ++ exprWords cond ++ blockWords body ++ optStmtWords orElse
  | .returnStmt _ values => exprsWords values
  | .assign _ op targets values =>
    (if op == .define then targetsWords .target targets else exprsWords targets)
      ++ exprsWords values
  | .step _ target _ => exprWords target
  | .expr value => exprWords value
  | .send _ channel value => exprWords channel ++ exprWords value
  | .vars _ _ specs => specsWords specs
  | .go _ call => exprWords call
  | .defer _ call => exprWords call
  | .loop _ init cond post body =>
    optStmtWords init ++ optExprWords cond ++ optStmtWords post ++ blockWords body
  | .range _ targets define subject body =>
    (if define then targetsWords .declared targets else exprsWords targets)
      ++ exprWords subject ++ blockWords body
  | .switch _ init newName tag clauses =>
    optStmtWords init ++ (newName.toList.map fun e => ⟨.declared, text e.span, e.span⟩)
      ++ optExprWords tag ++ clausesWords clauses
  | .select _ clauses => clausesWords clauses
  | .labeled _ _ stmt => stmtWords stmt
  | .jump .. => []
  | .empty _ => []

end

def declWords : Decl → List Word
  | .func _ _ _ params body => declaredWords params ++ (body.map (blockWords text)).getD []
  | .vars _ _ specs => specsWords text specs

def itemWords : Item → List Word
  | .decl d => declWords text d
  | .stmt s => stmtWords text s

/-- Whether a word may stand where it does: `nil` is no type. -/
def Word.sound (w : Word) : Bool :=
  w.role != .type || w.name.text != nilName

/-- Whether an item has only sound words. The new name of a type switch is always sound. -/
def Item.sound (item : Item) : Bool :=
  (itemWords (fun _ => "") item).all Word.sound

end NilGuard.Go.Surface
