import NilGuard.Finding.Diagnosis
import NilGuard.Generated
import NilGuard.Go.Resolve
import NilGuard.Settings
import NilGuard.Suppression

/-!
Checking one source: its findings as diagnostics, and if asked for the text without them. Fixing one
read may bring another to light, so it goes on until nothing is found.
-/

namespace NilGuard

open Go Report

/-- Why a check has no result. -/
inductive Error where
  /-- There is no such file or directory. -/
  | missing (path : String)
  /-- The file is not text. -/
  | unreadable (path : String)
  /-- The file is not a program. -/
  | malformed (path : String)
  | fault (cause : Fault)
  deriving DecidableEq, Repr

def Error.message : Error → String
  | .missing path => s!"{path}: no such file or directory"
  | .unreadable path => s!"failed to read {path}: stream did not contain valid UTF-8"
  | .malformed path => s!"{path}: syntax error"
  | .fault x => s!"internal consistency fault: {x.message}"

/-- What is known about one source. -/
structure FileReport where
  path : String
  /-- The text before any fix. -/
  source : String
  diagnostics : List Diagnostic := []
  /-- The text without the findings, and how many reads were replaced, if any were. -/
  fixed : Option (String × Nat) := none
  /-- Whether the file was passed over as generated. -/
  skipped : Bool := false
  deriving DecidableEq, Repr

/-- The findings of a file that no comment suppresses. -/
def openFindings (marker : String) (f : File) : Except Fault (List Finding) :=
  (findings f).map (unsuppressed marker f)

/-- A file after fixing. -/
structure Fixed where
  file : File
  /-- How many reads were replaced. -/
  count : Nat
  /-- What came to light on the way. -/
  diagnostics : List Diagnostic

/-- Fixes the given findings, then those that are found behind them, until a round replaces
nothing. -/
def fixAll (marker : String) (f : File) (xs : List Finding) : Except Fault Fixed :=
  let g := (fix f xs).1
  let n := (fix f xs).2
  if n = 0 then .ok ⟨g, 0, []⟩
  else do
    let ys ← openFindings marker g
    let last ← fixAll marker g ys
    return { last with count := n + last.count
                       diagnostics := ys.map (·.diagnostic g) ++ last.diagnostics }
termination_by namedCount f
decreasing_by
  have := namedCount_fix f xs
  omega

/-- The report on a parsed source. -/
def checkFile (settings : Settings) (fixing : Bool) (f : File) : Except Fault FileReport := do
  let xs ← openFindings settings.suppressMarker f
  let report := { path := f.path, source := f.source, diagnostics := xs.map (·.diagnostic f) }
  if !fixing || xs.isEmpty then return report
  let fixed ← fixAll settings.suppressMarker f xs
  return { report with diagnostics := sorted (report.diagnostics ++ fixed.diagnostics)
                       fixed := some (fixed.file.render, fixed.count) }

/-- The report on a source. Nothing is written when it is fixed. -/
def checkSource (path source : String) (settings : Settings) (fixing : Bool) :
    Except Error FileReport :=
  if settings.skipGenerated && isGenerated source then .ok { path, source, skipped := true }
  else match File.ofSource? path source with
    | none => .error (.malformed path)
    | some f => (checkFile settings fixing f).mapError .fault

end NilGuard
