import NilGuard.Go.Binding
import NilGuard.Go.Operator
import NilGuard.Go.Token

/-!
Go source as it is written. Names are not resolved yet, literal text is given by its span, and what
only groups its parts (types, indexing, composite literals) is a `group`. Types of variables and
parameters are left out.

What a tree says never depends on how names are spelled, with one exception: `nil` is no type, so
where a name decides between two readings the tree holds both.
-/

namespace NilGuard.Go.Surface

mutual

inductive Expr where
  | ident (name : Name)
  | literal (span : Span)
  | unary (span : Span) (op : UnaryOp) (operand : Expr)
  | binary (span : Span) (op : BinaryOp) (left right : Expr)
  | call (span : Span) (callee : Expr) (args : List Expr)
  | selector (span : Span) (operand : Expr) (field : Name)
  | paren (span : Span) (inner : Expr)
  /-- A function literal. Receives its parameters and named results in one list. -/
  | closure (span : Span) (params : List Name) (body : Block)
  | keyed (span : Span) (key value : Expr)
  | group (span : Span) (parts : List Expr)
  /-- A name that stands for a type. -/
  | typeName (name : Name)
  /-- A bare name as the key of a composite literal. It may be a field, so it stays text. -/
  | key (name : Name)
  /-- What is read if the name stands for a type, and what is read if it is `nil`. -/
  | either (name : Name) (asType asValue : Expr)

inductive Block where
  | mk (span : Span) (stmts : List Stmt)

/-- One line of a variable or constant declaration. -/
inductive Spec where
  | mk (names : List Name) (values : List Expr)

/-- One case of a switch or select statement. -/
inductive Clause where
  | mk (span : Span) (values : List Expr) (comm : Option Stmt) (stmts : List Stmt)

inductive Stmt where
  | block (body : Block)
  | ifStmt (span : Span) (init : Option Stmt) (cond : Expr) (body : Block) (orElse : Option Stmt)
  | returnStmt (span : Span) (values : List Expr)
  | assign (span : Span) (op : AssignOp) (targets values : List Expr)
  | step (span : Span) (target : Expr) (up : Bool)
  | expr (value : Expr)
  | send (span : Span) (channel value : Expr)
  | vars (span : Span) (kind : BindingKind) (specs : List Spec)
  | go (span : Span) (call : Expr)
  | defer (span : Span) (call : Expr)
  | loop (span : Span) (init : Option Stmt) (cond : Option Expr) (post : Option Stmt) (body : Block)
  | range (span : Span) (targets : List Expr) (define : Bool) (subject : Expr) (body : Block)
  | switch (span : Span) (init : Option Stmt) (newName : Option Expr) (tag : Option Expr)
      (clauses : List Clause)
  | select (span : Span) (clauses : List Clause)
  | labeled (span : Span) (label : Name) (stmt : Stmt)
  | jump (span : Span) (word : String)
  | empty (span : Span)

end

instance : Inhabited Expr := ⟨.literal default⟩

def Block.span : Block → Span
  | .mk span _ => span

def Expr.span : Expr → Span
  | .ident name => name.span
  | .literal span => span
  | .unary span .. | .binary span .. | .call span .. | .selector span .. | .paren span ..
  | .closure span .. | .keyed span .. | .group span .. => span
  | .typeName name | .key name => name.span
  | .either _ asType _ => asType.span

def Stmt.span : Stmt → Span
  | .block body => body.span
  | .expr value => value.span
  | .ifStmt span .. | .returnStmt span .. | .assign span .. | .step span .. | .send span ..
  | .vars span .. | .go span .. | .defer span .. | .loop span .. | .range span .. | .switch span ..
  | .select span .. | .labeled span .. | .jump span .. | .empty span => span

/-- A part of a file that matters here. -/
inductive Decl where
  /-- A function, or a method when it has a receiver. -/
  | func (span : Span) (method : Bool) (name : Name) (params : List Name) (body : Option Block)
  | vars (span : Span) (kind : BindingKind) (specs : List Spec)

/-- An item of a file. Statements between the declarations are read and then left out. -/
inductive Item where
  | decl (decl : Decl)
  | stmt (stmt : Stmt)

def Item.decl? : Item → Option Decl
  | .decl d => some d
  | .stmt _ => none

/-- A name or qualified name read as a type. -/
def Expr.asType? : Expr → Option Expr
  | .ident name => some (.typeName name)
  | .selector span (.ident qualifier) field =>
    some (.group span [.literal qualifier.span, .literal field.span])
  | _ => none

/-- The key of a composite literal. -/
def Expr.asKey : Expr → Expr
  | .ident name => .key name
  | e => e

/-- An operand with what follows it, as it is read behind a type and as it is read behind a
value. -/
def Expr.reading (operand : Expr) (asType : Expr → Expr) (asValue : Expr) : Expr :=
  match operand with
  | .ident name => .either name (asType (.literal name.span)) asValue
  | e => match e.asType? with
    | some type => asType type
    | none => asValue

end NilGuard.Go.Surface
