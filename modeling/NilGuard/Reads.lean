import NilGuard.Go.Node
import NilGuard.Guard

/-!
Reads and writes of a variable. A variable is written when it is a target of an assignment or its
address is taken. The body of a function literal that `go` or `defer` calls runs at another time, so
nothing in it counts; the arguments of the call do.
-/

namespace NilGuard

open Go

/-- The arguments of a function literal that a statement calls at another time. -/
def laterArgs? : Stmt → Option (List Expr)
  | .go _ (.call _ (.closure ..) args) => some args
  | .defer _ (.call _ (.closure ..) args) => some args
  | _ => none

/-- What runs in place. -/
def inPlace : Descent where
  next
    | .stmt s => match laterArgs? s with
      | some args => args.map .expr
      | none => Node.ofStmt s
    | n => n.children
  size_lt n m h := by
    cases n with
    | stmt s =>
      simp only at h
      split at h
      · rename_i args hargs
        have := Node.size_lt_of_mem_map_expr h
        unfold laterArgs? at hargs
        split at hargs <;> cases hargs <;> simp <;> omega
      · exact Node.size_lt_of_mem_ofStmt h
    | _ => exact Node.size_lt_of_mem_children h

/-- Whether an expression is just the variable. -/
def isVariable (f : File) (b : BindingId) : Expr → Bool
  | .ident _ id => f.refersTo id b
  | _ => false

/-- Whether a node by itself writes the variable. -/
def writesHere (f : File) (b : BindingId) : Node → Bool
  | .stmt (.assign _ _ targets _) => targets.any (isVariable f b)
  | .expr (.unary _ .addr operand) => isVariable f b operand
  | _ => false

/-- Whether a statement writes the variable. -/
def writes (f : File) (b : BindingId) (s : Stmt) : Bool :=
  (inPlace.walk (.stmt s)).any (writesHere f b)

/-- The occurrence of the variable that a node is. -/
def occurrence? (f : File) (b : BindingId) : Node → Option IdentId
  | .ident id _ => if f.refersTo id b then some id else none
  | _ => none

/-- The occurrences of the variable in a statement. -/
def occurrences (f : File) (b : BindingId) (s : Stmt) : List IdentId :=
  (inPlace.walk (.stmt s)).filterMap (occurrence? f b)

/-- The reads in the first statement that has any, if no statement up to it writes the variable. -/
def firstReads (f : File) (b : BindingId) : List Stmt → List IdentId
  | [] => []
  | s :: ss =>
    if writes f b s then []
    else match occurrences f b s with
      | [] => firstReads f b ss
      | ids => ids

/-- The reads that a guard proves to be nil. -/
def Guard.reads (g : Guard) (f : File) : List IdentId :=
  firstReads f g.binding g.remainder

end NilGuard
