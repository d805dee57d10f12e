import NilGuard.Finding
import NilGuard.Go.Render
import NilGuard.Report.Diagnostic
import NilGuard.Report.Rule

/-!
The diagnostic for a finding: where the read is, which guard makes it nil, and the line as it should
be.
-/

namespace NilGuard.Finding

open Go Report

/-- Number of bytes of the read. -/
def width (x : Finding) : Nat :=
  x.span.stop - x.span.start

/-- A line with the read replaced by `nil`, unless the read lies outside the line. -/
def fixedLine? (x : Finding) (line : List Char) : Option (List Char) := do
  let before ← if x.column = 0 then none else Text.takeBytes line (x.column - 1)
  let after ← Text.dropBytes line (x.column - 1 + x.width)
  return before ++ nilName.toList ++ after

/-- The replacement of the line of the read. -/
def edit? (f : File) (x : Finding) : Option Edit := do
  let old ← Text.line? f.source.toList x.line
  let new ← x.fixedLine? old
  return { file := x.file, startLine := x.line, endLine := x.line, oldText := String.ofList old,
           newText := String.ofList new }

def draft (x : Finding) : Draft :=
  let start : Draft := { rule := Rule.ref001.code, title := "reference after nil check" }
  start.located x.file x.line x.column
    |>.upTo x.line (x.column + x.width)
    |>.explained (s!"`{x.name}` is always nil here: the check at line {x.guard.line} "
      ++ "returns whenever it is not")
    |>.causedBy x.file x.guard.line s!"guard `if {x.name} != nil` ends in a return"

def diagnostic (f : File) (x : Finding) : Diagnostic :=
  match x.edit? f with
  | some edit => (x.draft.fixedBy s!"Replace `{x.name}` with `nil`" [edit]).build
  | none => x.draft.build

end NilGuard.Finding
