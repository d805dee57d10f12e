import NilGuard.Go.Binding
import NilGuard.Go.Operator

/-!
Trees with resolved names: every occurrence of a name is the number of an identifier. A tree is
plain data, and nothing forces its numbers or spans to make sense.
-/

namespace NilGuard.Go

mutual

inductive Expr where
  | ident (span : Span) (id : IdentId)
  | literal (span : Span) (text : String)
  | unary (span : Span) (op : UnaryOp) (operand : Expr)
  | binary (span : Span) (op : BinaryOp) (left right : Expr)
  | call (span : Span) (callee : Expr) (args : List Expr)
  | selector (span : Span) (operand : Expr) (field : String)
  | paren (span : Span) (inner : Expr)
  | closure (span : Span) (body : Block)
  | keyed (span : Span) (key value : Expr)
  /-- Whatever only groups its parts. -/
  | group (span : Span) (parts : List Expr)

inductive Block where
  | mk (span : Span) (stmts : List Stmt)

/-- One line of a variable or constant declaration. -/
inductive Spec where
  | mk (names : List IdentId) (values : List Expr)

/-- One case of a switch or select statement. -/
inductive Clause where
  | mk (values : List Expr) (comm : Option Stmt) (body : Block)

inductive Stmt where
  | block (span : Span) (body : Block)
  | ifStmt (span : Span) (init : Option Stmt) (cond : Expr) (body : Block) (orElse : Option Stmt)
  | returnStmt (span : Span) (values : List Expr)
  | assign (span : Span) (op : AssignOp) (targets values : List Expr)
  | step (span : Span) (target : Expr) (up : Bool)
  | expr (span : Span) (value : Expr)
  | send (span : Span) (channel value : Expr)
  | vars (span : Span) (specs : List Spec)
  | go (span : Span) (call : Expr)
  | defer (span : Span) (call : Expr)
  | loop (span : Span) (init : Option Stmt) (cond : Option Expr) (post : Option Stmt) (body : Block)
  | range (span : Span) (key value : Option Expr) (define : Bool) (subject : Expr) (body : Block)
  | switch (span : Span) (init : Option Stmt) (newName : Option IdentId) (tag : Option Expr)
      (clauses : List Clause)
  | select (span : Span) (clauses : List Clause)
  | labeled (span : Span) (label : String) (stmt : Stmt)
  | jump (span : Span) (word : String)
  | empty (span : Span)
  /-- Whatever is not known as a statement. -/
  | raw (span : Span) (parts : List Expr)

end

instance : Inhabited Block := ⟨.mk default []⟩

instance : Inhabited Expr := ⟨.group default []⟩

instance : Inhabited Stmt := ⟨.empty default⟩

def Block.span : Block → Span
  | .mk span _ => span

def Block.stmts : Block → List Stmt
  | .mk _ stmts => stmts

def Expr.span : Expr → Span
  | .ident span .. | .literal span .. | .unary span .. | .binary span .. | .call span ..
  | .selector span .. | .paren span .. | .closure span .. | .keyed span .. | .group span .. => span

def Stmt.span : Stmt → Span
  | .block span .. | .ifStmt span .. | .returnStmt span .. | .assign span .. | .step span ..
  | .expr span .. | .send span .. | .vars span .. | .go span .. | .defer span .. | .loop span ..
  | .range span .. | .switch span .. | .select span .. | .labeled span .. | .jump span ..
  | .empty span | .raw span .. => span

inductive Decl where
  | func (span : Span) (name : String) (body : Option Block)
  | vars (stmt : Stmt)

/-- A source file with its tree. The text is the one that was read; renaming an identifier changes
only its entry in `idents`. -/
structure File where
  path : String
  source : String
  decls : List Decl
  idents : Array Ident
  bindings : Array Binding

namespace File

/-- Whether an identifier stands for a variable. -/
def refersTo (f : File) (id : IdentId) (b : BindingId) : Bool :=
  f.idents[id]?.any (·.binding == some b)

/-- Whether an identifier is the nil literal. -/
def isNil (f : File) (id : IdentId) : Bool :=
  f.idents[id]?.any Ident.isNil

/-- Whether an identifier is there and is not the nil literal. -/
def isNamed (f : File) (id : IdentId) : Bool :=
  f.idents[id]?.any (!·.isNil)

/-- Gives an identifier another name, which stands for nothing. -/
def rename (f : File) (id : IdentId) (text : String) : File :=
  { f with idents := f.idents.modify id fun ident => { ident with name := text, binding := none } }

end File

end NilGuard.Go
