import NilGuard.Go.Span

/-!
Identifiers and the variables they stand for. Both are numbered in the order in which they are made,
and trees refer to them by number.
-/

namespace NilGuard.Go

abbrev IdentId := Nat

abbrev BindingId := Nat

inductive BindingKind where
  | var | const | param | func
  /-- A name that the file uses and does not declare. -/
  | external
  deriving DecidableEq, Repr, Inhabited

/-- A declared name. -/
structure Binding where
  name : String
  kind : BindingKind
  /-- Where the name is declared. -/
  decl : Option Span
  deriving DecidableEq, Repr, Inhabited

/-- One occurrence of a name. Blank names and `nil` have no binding. -/
structure Ident where
  name : String
  binding : Option BindingId
  span : Span
  deriving DecidableEq, Repr, Inhabited

/-- The name of the nil literal. -/
def nilName : String := "nil"

/-- The name that binds nothing. -/
def blankName : String := "_"

/-- Whether an occurrence is the nil literal. -/
def Ident.isNil (ident : Ident) : Bool :=
  ident.name == nilName

end NilGuard.Go
