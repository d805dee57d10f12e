import NilGuard.Go.Tree

/-!
Guards. An if-statement guards a variable when its condition compares the variable with `nil` by
`!=` and its body ends in a return: what comes after sees the variable only as nil.
-/

namespace NilGuard

open Go

/-- A tree in which a comparison with `nil` makes no sense. -/
inductive Fault where
  | nilBound (path : String) (line column : Nat)
  | variableUnbound (name path : String) (line column : Nat)
  deriving DecidableEq, Repr

def Fault.message : Fault → String
  | .nilBound path line column => s!"{path}:{line}:{column}: nil literal resolved to a binding"
  | .variableUnbound name path line column =>
    s!"{path}:{line}:{column}: `{name}` compared to nil has no binding"

/-- Whether a block ends in a return. Only its last statement counts. -/
def endsInReturn (body : Block) : Bool :=
  match body.stmts.getLast? with
  | some (.returnStmt ..) => true
  | _ => false

/-- The two sides of a comparison of a variable with `nil`, the variable first. -/
def nilComparison? (f : File) : Expr → Option (IdentId × IdentId)
  | .binary _ .ne (.ident _ left) (.ident _ right) =>
    match f.isNil left, f.isNil right with
    | false, true => some (left, right)
    | true, false => some (right, left)
    | _, _ => none
  | _ => none

/-- The variable that a condition and a body guard, if they guard one. -/
def guarded? (f : File) (cond : Expr) (body : Block) : Except Fault (Option BindingId) :=
  if endsInReturn body then
    match nilComparison? f cond with
    | none => .ok none
    | some (left, right) =>
      let v := f.idents[left]?.getD default
      let n := f.idents[right]?.getD default
      match n.binding, v.binding with
      | some _, _ => .error (.nilBound f.path n.span.line n.span.column)
      | none, none => .error (.variableUnbound v.name f.path v.span.line v.span.column)
      | none, some b => .ok (some b)
  else .ok none

/-- A guarded variable with the statements that see it only as nil: what runs instead of the body,
then what follows in the block. -/
structure Guard where
  binding : BindingId
  /-- Where the condition stands. -/
  span : Span
  remainder : List Stmt

/-- The guard at the head of the statements of a block, if there is one. -/
def guardAt? (f : File) : List Stmt → Except Fault (Option Guard)
  | .ifStmt _ _ cond body orElse :: rest => do
    match ← guarded? f cond body with
    | none => return none
    | some b => return some ⟨b, cond.span, orElse.toList ++ rest⟩
  | _ => return none

end NilGuard
