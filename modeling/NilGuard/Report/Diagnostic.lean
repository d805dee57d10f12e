/-!
Diagnostics: what is reported about one place of a source file.
-/

namespace NilGuard.Report

inductive Severity where
  | error
  deriving DecidableEq, Repr, Inhabited

/-- The analysis that found something. -/
inductive Origin where
  | refAfterNil
  deriving DecidableEq, Repr, Inhabited

def Severity.label : Severity → String
  | .error => "error"

def Origin.label : Origin → String
  | .refAfterNil => "refafternil"

/-- A place in a file. Lines and columns count from one, columns in bytes. -/
structure Location where
  file : String
  line : Nat
  column : Nat
  endLine : Nat
  endColumn : Nat
  deriving DecidableEq, Repr, Inhabited

/-- Whether a place begins no later than another. Files come in the order of their names. -/
def Location.le (a b : Location) : Bool :=
  a.file < b.file || a.file == b.file &&
    (a.line < b.line || a.line == b.line && a.column ≤ b.column)

/-- Where a place begins. -/
def Location.label (l : Location) : String :=
  s!"{l.file}:{l.line}:{l.column}"

structure RootCause where
  file : String
  line : Nat
  description : String
  deriving DecidableEq, Repr, Inhabited

/-- The replacement of whole lines. -/
structure Edit where
  file : String
  startLine : Nat
  endLine : Nat
  oldText : Option String
  newText : String
  deriving DecidableEq, Repr, Inhabited

structure Fix where
  description : String
  edits : List Edit
  deriving DecidableEq, Repr, Inhabited

structure Diagnostic where
  id : String
  rule : String
  severity : Severity
  title : String
  explanation : String
  location : Location
  rootCause : Option RootCause
  fix : Option Fix
  origin : Origin
  deriving DecidableEq, Repr, Inhabited

/-- A diagnostic that is being put together. -/
structure Draft where
  rule : String
  title : String
  severity : Severity := .error
  origin : Origin := .refAfterNil
  location : Location := default
  explanation : String := ""
  rootCause : Option RootCause := none
  fix : Option Fix := none

namespace Draft

/-- Sets the place. It ends where it begins until another end is set. -/
def located (d : Draft) (file : String) (line column : Nat) : Draft :=
  { d with location := ⟨file, line, column, line, column⟩ }

def upTo (d : Draft) (line column : Nat) : Draft :=
  { d with location := { d.location with endLine := line, endColumn := column } }

def explained (d : Draft) (text : String) : Draft :=
  { d with explanation := text }

def causedBy (d : Draft) (file : String) (line : Nat) (description : String) : Draft :=
  { d with rootCause := some ⟨file, line, description⟩ }

def fixedBy (d : Draft) (description : String) (edits : List Edit) : Draft :=
  { d with fix := some ⟨description, edits⟩ }

/-- The diagnostic, named after its rule and place. -/
def build (d : Draft) : Diagnostic :=
  { id := s!"{d.rule}-{d.location.label}", rule := d.rule, severity := d.severity, title := d.title,
    explanation := d.explanation, location := d.location, rootCause := d.rootCause, fix := d.fix,
    origin := d.origin }

end Draft

/-- What a list of diagnostics amounts to. -/
structure Summary where
  filesChecked : Nat
  filesWithIssues : Nat
  errors : Nat
  fixAvailable : Nat
  /-- How long it took to find them, in milliseconds. -/
  elapsed : Nat
  deriving DecidableEq, Repr, Inhabited

/-- Diagnostics in the order of their places. Those of one place keep their order. -/
def sorted (ds : List Diagnostic) : List Diagnostic :=
  ds.mergeSort fun a b => a.location.le b.location

/-- The files that diagnostics are about, each once. -/
def files (ds : List Diagnostic) : List String :=
  (ds.map (·.location.file)).eraseDups

def Summary.ofDiagnostics (ds : List Diagnostic) (filesChecked elapsed : Nat) : Summary :=
  { filesChecked
    elapsed
    filesWithIssues := (files ds).length
    errors := ds.length
    fixAvailable := (ds.filter (·.fix.isSome)).length }

def Summary.total (s : Summary) : Nat :=
  s.errors

/-- Source texts by path. -/
abbrev Sources := List (String × String)

/-- The text of a file, which is taken from the disk if it is not among the sources, and is empty if
it is not there either. -/
def Sources.textOr (sources : Sources) (disk : String → Option String) (file : String) : String :=
  ((sources.lookup file).or (disk file)).getD ""

/-- The text of a file when there are no others on the disk. -/
def Sources.text (sources : Sources) (file : String) : String :=
  sources.textOr (fun _ => none) file

end NilGuard.Report
