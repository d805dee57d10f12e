/-!
Operators of expressions and assignments, with their spelling and binding strength.
-/

namespace NilGuard.Go

inductive UnaryOp where
  | addr | deref | neg | plus | not | xor | recv
  deriving DecidableEq, Repr, Inhabited

inductive BinaryOp where
  | add | sub | mul | div | rem | and | or | xor | shl | shr | andNot
  | logAnd | logOr | eq | ne | lt | le | gt | ge
  deriving DecidableEq, Repr, Inhabited

/-- How a statement gives values to its targets: plainly, with a declaration of those that are new,
or by an operation on the old value. -/
inductive AssignOp where
  | assign | define | compound
  deriving DecidableEq, Repr, Inhabited

/-- The operator a token spells in front of an operand. -/
def UnaryOp.ofToken? : String → Option UnaryOp
  | "&" => some .addr
  | "*" => some .deref
  | "-" => some .neg
  | "+" => some .plus
  | "!" => some .not
  | "^" => some .xor
  | "<-" => some .recv
  | _ => none

/-- The operator a token spells between two operands. -/
def BinaryOp.ofToken? : String → Option BinaryOp
  | "+" => some .add
  | "-" => some .sub
  | "*" => some .mul
  | "/" => some .div
  | "%" => some .rem
  | "&" => some .and
  | "|" => some .or
  | "^" => some .xor
  | "<<" => some .shl
  | ">>" => some .shr
  | "&^" => some .andNot
  | "&&" => some .logAnd
  | "||" => some .logOr
  | "==" => some .eq
  | "!=" => some .ne
  | "<" => some .lt
  | "<=" => some .le
  | ">" => some .gt
  | ">=" => some .ge
  | _ => none

/-- The assignment a token spells. -/
def AssignOp.ofToken? : String → Option AssignOp
  | "=" => some .assign
  | ":=" => some .define
  | "+=" | "-=" | "*=" | "/=" | "%=" | "&=" | "|=" | "^=" | "<<=" | ">>=" | "&^=" => some .compound
  | _ => none

/-- Operators of higher precedence bind their operands first; those of one precedence group to the
left. -/
def BinaryOp.precedence : BinaryOp → Nat
  | .mul | .div | .rem | .shl | .shr | .and | .andNot => 5
  | .add | .sub | .or | .xor => 4
  | .eq | .ne | .lt | .le | .gt | .ge => 3
  | .logAnd => 2
  | .logOr => 1

end NilGuard.Go
