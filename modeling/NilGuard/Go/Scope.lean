import NilGuard.Go.Binding

/-!
Scopes. The scope of the file is always there; the scopes inside it come and go. A name that no
scope holds is taken as declared outside, once for the whole file.
-/

namespace NilGuard.Go

/-- The names of one scope, the latest first. -/
abbrev Frame := List (String × BindingId)

structure Scopes where
  bindings : Array Binding := #[]
  /-- The scope of the file. -/
  file : Frame := []
  /-- The scopes inside it, the innermost first. -/
  inner : List Frame := []

namespace Scopes

/-- A new binding, in no scope yet. -/
def alloc (s : Scopes) (name : String) (kind : BindingKind) (decl : Option Span) :
    BindingId × Scopes :=
  (s.bindings.size, { s with bindings := s.bindings.push ⟨name, kind, decl⟩ })

/-- Declares a name in the innermost scope, where it hides an earlier one. -/
def declare (s : Scopes) (name : String) (kind : BindingKind) (decl : Span) : BindingId × Scopes :=
  let (id, s) := s.alloc name kind (some decl)
  match s.inner with
  | [] => (id, { s with file := (name, id) :: s.file })
  | frame :: frames => (id, { s with inner := ((name, id) :: frame) :: frames })

/-- Declares a name in the scope of the file. The first declaration of a name stays, unless the name
was only taken as declared outside. -/
def declareInFile (s : Scopes) (name : String) (kind : BindingKind) (decl : Span) : Scopes :=
  match s.file.lookup name with
  | some id =>
    { s with
      bindings := s.bindings.modify id fun b =>
        if b.kind == .external then { b with kind, decl := some decl } else b }
  | none =>
    let (id, s) := s.alloc name kind (some decl)
    { s with file := (name, id) :: s.file }

/-- The binding of a name in the innermost scope. -/
def inCurrent? (s : Scopes) (name : String) : Option BindingId :=
  match s.inner with
  | [] => s.file.lookup name
  | frame :: _ => frame.lookup name

/-- The binding of a name in the innermost scope that has it. -/
def find? (s : Scopes) (name : String) : Option BindingId :=
  s.inner.findSome? (·.lookup name) <|> s.file.lookup name

/-- The binding that a use of a name stands for. -/
def resolve (s : Scopes) (name : String) : BindingId × Scopes :=
  match s.find? name with
  | some id => (id, s)
  | none =>
    let (id, s) := s.alloc name .external none
    (id, { s with file := (name, id) :: s.file })

def push (s : Scopes) : Scopes :=
  { s with inner := [] :: s.inner }

/-- Leaves the innermost scope with all its names. -/
def pop (s : Scopes) : Scopes :=
  match s.inner with
  | [] => { s with file := [] }
  | _ :: frames => { s with inner := frames }

end Scopes

end NilGuard.Go
