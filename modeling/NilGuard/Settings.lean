/-!
Settings of a run.
-/

namespace NilGuard

inductive OutputFormat where
  /-- A heading and source lines for every diagnostic. -/
  | text
  /-- The place of every diagnostic. -/
  | machine
  | json
  /-- A drawing of every diagnostic in its source. -/
  | pretty
  deriving DecidableEq, Repr, Inhabited

namespace OutputFormat

def all : List OutputFormat :=
  [.text, .machine, .json, .pretty]

def label : OutputFormat → String
  | .text => "text"
  | .machine => "machine"
  | .json => "json"
  | .pretty => "pretty"

/-- The format that is called so. -/
def ofLabel? (s : String) : Option OutputFormat :=
  all.find? (·.label == s)

/-- The format that is called so in any case, or what is wrong with the name. -/
def ofName (s : String) : Except String OutputFormat :=
  match ofLabel? s.toLower with
  | some format => .ok format
  | none => .error s!"unknown format `{s.toLower}` (expected text, machine, json or pretty)"

end OutputFormat

structure Settings where
  format : OutputFormat := .text
  /-- Number of source lines under each heading. -/
  contextLines : Nat := 1
  /-- Exit code when there are findings. -/
  exitCode : Nat := 1
  skipGenerated : Bool := true
  /-- Whether directories contribute their test files. -/
  includeTests : Bool := true
  /-- The text in a comment that suppresses the findings of its line. -/
  suppressMarker : String := "afternil:ignore"
  deriving DecidableEq, Repr, Inhabited

end NilGuard
