import NilGuard.Workspace.Expansion

/-!
Checking the files of a workspace, and fixing them in place.
-/

namespace NilGuard

open Report

/-- What is known about all files of a run. -/
structure RunReport where
  diagnostics : List Diagnostic
  summary : Summary
  /-- The texts before any fix. -/
  sources : Sources
  /-- The files that were fixed, with the number of reads replaced in each. -/
  fixed : List (String × Nat)

def RunReport.fixedTotal (r : RunReport) : Nat :=
  r.fixed.foldr (fun x n => x.2 + n) 0

/-- Puts the reports on single files together. Files that were passed over do not count. -/
def RunReport.ofFiles (reports : List FileReport) : RunReport :=
  let checked := reports.filter (!·.skipped)
  let diagnostics := sorted (checked.flatMap (·.diagnostics))
  { diagnostics
    summary := .ofDiagnostics diagnostics checked.length 0
    sources := checked.map fun r => (r.path, r.source)
    fixed := checked.filterMap fun r => r.fixed.map fun (_, count) => (r.path, count) }

namespace Workspace

/-- Checks one file and, when fixing, gives it its fixed text. -/
def process (w : Workspace) (settings : Settings) (fixing : Bool) (path : String) :
    Except Error FileReport × Workspace :=
  match w.locate? path with
  | none => (.error (.missing path), w)
  | some a =>
    match w.text? a with
    | none => (.error (.unreadable path), w)
    | some source =>
      match checkSource path source settings fixing with
      | .error e => (.error e, w)
      | .ok report =>
        match report.fixed with
        | none => (.ok report, w)
        | some (text, _) => (.ok report, w.replace a text.toUTF8)

/-- Processes files one after the other. The first error ends the run. -/
def processAll (settings : Settings) (fixing : Bool) :
    List String → Workspace → Except Error (List FileReport) × Workspace
  | [], w => (.ok [], w)
  | path :: paths, w =>
    match w.process settings fixing path with
    | (.error e, w) => (.error e, w)
    | (.ok report, w) =>
      let (rest, w) := processAll settings fixing paths w
      (rest.map (report :: ·), w)

/-- Checks the files that arguments stand for and, when fixing, gives them their fixed texts. -/
def run (w : Workspace) (settings : Settings) (fixing : Bool) (args : List String) :
    Except Error RunReport × Workspace :=
  match w.expand settings.includeTests args with
  | .error e => (.error e, w)
  | .ok paths =>
    let (reports, w) := processAll settings fixing paths w
    (reports.map .ofFiles, w)

end Workspace

end NilGuard
