import NilGuard.Json.Reader
import NilGuard.Json.Writer
import NilGuard.Report.Diagnostic

/-!
Diagnostics as JSON records. Writing keeps every field, and null stands for what is missing; reading
takes a record back.
-/

namespace NilGuard.Report

def Location.toJson (l : Location) : Json :=
  .object [("file", .string l.file), ("line", .ofNat l.line), ("column", .ofNat l.column),
    ("end_line", .ofNat l.endLine), ("end_column", .ofNat l.endColumn)]

def Location.ofJson? (j : Json) : Option Location := do
  return {
    file := ← j.required? "file" Json.string?
    line := ← j.required? "line" Json.word?
    column := ← j.required? "column" Json.word?
    endLine := ← j.required? "end_line" Json.word?
    endColumn := ← j.required? "end_column" Json.word? }

def RootCause.toJson (r : RootCause) : Json :=
  .object [("file", .string r.file), ("line", .ofNat r.line),
    ("description", .string r.description)]

def RootCause.ofJson? (j : Json) : Option RootCause := do
  return {
    file := ← j.required? "file" Json.string?
    line := ← j.required? "line" Json.word?
    description := ← j.required? "description" Json.string? }

def Edit.toJson (e : Edit) : Json :=
  .object [("file", .string e.file),
    ("range", .object [("start_line", .ofNat e.startLine), ("end_line", .ofNat e.endLine)]),
    ("old_text", .ofOption .string e.oldText), ("new_text", .string e.newText)]

def Edit.ofJson? (j : Json) : Option Edit := do
  let range ← j.required? "range" some
  return {
    file := ← j.required? "file" Json.string?
    startLine := ← range.required? "start_line" Json.word?
    endLine := ← range.required? "end_line" Json.word?
    oldText := ← j.optional? "old_text" Json.string?
    newText := ← j.required? "new_text" Json.string? }

def Fix.toJson (f : Fix) : Json :=
  .object [("description", .string f.description), ("edits", .array (f.edits.map Edit.toJson))]

def Fix.ofJson? (j : Json) : Option Fix := do
  return {
    description := ← j.required? "description" Json.string?
    edits := ← j.required? "edits" (Json.list? Edit.ofJson?) }

def Severity.ofJson? : Json → Option Severity
  | .string s => if s == Severity.label .error then some .error else none
  | _ => none

def Origin.ofJson? : Json → Option Origin
  | .string s => if s == Origin.label .refAfterNil then some .refAfterNil else none
  | _ => none

def Diagnostic.toJson (d : Diagnostic) : Json :=
  .object [("id", .string d.id), ("rule", .string d.rule), ("severity", .string d.severity.label),
    ("title", .string d.title), ("explanation", .string d.explanation),
    ("location", d.location.toJson), ("root_cause", .ofOption RootCause.toJson d.rootCause),
    ("fix", .ofOption Fix.toJson d.fix), ("source", .string d.origin.label)]

def Diagnostic.ofJson? (j : Json) : Option Diagnostic := do
  return {
    id := ← j.required? "id" Json.string?
    rule := ← j.required? "rule" Json.string?
    severity := ← j.required? "severity" Severity.ofJson?
    title := ← j.required? "title" Json.string?
    explanation := ← j.required? "explanation" Json.string?
    location := ← j.required? "location" Location.ofJson?
    rootCause := ← j.optional? "root_cause" RootCause.ofJson?
    fix := ← j.optional? "fix" Fix.ofJson?
    origin := ← j.required? "source" Origin.ofJson? }

/-- Diagnostics as JSON text. -/
def record (ds : List Diagnostic) : String :=
  String.ofList (Json.write 0 (.array (ds.map Diagnostic.toJson)) ++ ['\n'])

/-- The diagnostics that a JSON text lists. -/
def ofRecord? (text : String) : Option (List Diagnostic) := do
  Json.list? Diagnostic.ofJson? (← Json.parse? text)

end NilGuard.Report
