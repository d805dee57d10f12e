import NilGuard.Report.Drawing
import NilGuard.Report.Listing
import NilGuard.Report.Record
import NilGuard.Report.Rule
import NilGuard.Workspace.Run

/-!
The command line: what its arguments ask for, and what comes of it in a workspace.
-/

namespace NilGuard

open Report

/-- What a check is asked for. -/
structure CheckOptions where
  paths : List String := []
  format : Option OutputFormat := none
  context : Option Nat := none
  fix : Bool := false
  exitCode : Option Nat := none
  noColor : Bool := false
  verbose : Bool := false
  deriving Repr

inductive Command where
  | check (options : CheckOptions)
  | explain (rule : String)
  | init
  | version
  deriving Repr

/-! ### Arguments -/

/-- Whether an argument is an option. A lone hyphen is none. -/
def isOption (arg : String) : Bool :=
  arg.startsWith "-" && arg != "-"

/-- Parts an option from the value that is attached to it by an equals sign. -/
def splitOption (arg : String) : String × Option String :=
  match arg.toList.span (· != '=') with
  | (_, []) => (arg, none)
  | (name, _ :: value) => (String.ofList name, some (String.ofList value))

def decimal? (cs : List Char) : Option Nat :=
  if !cs.isEmpty && cs.all Char.isDigit then
    some (cs.foldl (fun n d => n * 10 + (d.toNat - '0'.toNat)) 0)
  else none

/-- A number of lines. -/
def lineCount? (text : String) : Option Nat := do
  let n ← match text.toList with
    | '+' :: cs => decimal? cs
    | cs => decimal? cs
  if n < UInt64.size then return n else none

/-- An exit code. Zero may have either sign. -/
def exitCode? (text : String) : Option Nat := do
  let n ← match text.toList with
    | '+' :: cs => decimal? cs
    | '-' :: cs => (decimal? cs).filter (· == 0)
    | cs => decimal? cs
  if n < 256 then return n else none

namespace CheckOptions

/-- Sets an option that has no value, unless it is set already. -/
def withFlag? (o : CheckOptions) : String → Option CheckOptions
  | "--fix" => if o.fix then none else some { o with fix := true }
  | "--no-color" => if o.noColor then none else some { o with noColor := true }
  | "--verbose" | "-v" => if o.verbose then none else some { o with verbose := true }
  | _ => none

/-- Whether an option has a value. -/
def takesValue (name : String) : Bool :=
  name == "--format" || name == "--context" || name == "--exit-code"

/-- Sets an option to a value, unless it is set already. -/
def withValue? (o : CheckOptions) (value : String) : String → Option CheckOptions
  | "--format" =>
    if o.format.isSome then none
    else (OutputFormat.ofName value).toOption.map fun x => { o with format := some x }
  | "--context" =>
    if o.context.isSome then none
    else (lineCount? value).map fun x => { o with context := some x }
  | "--exit-code" =>
    if o.exitCode.isSome then none
    else (exitCode? value).map fun x => { o with exitCode := some x }
  | _ => none

/-- Adds arguments to options. A value is attached to its option or follows it, and is no option
itself; after two hyphens all arguments are paths. -/
def withArgs? (o : CheckOptions) : List String → Option CheckOptions
  | [] => some o
  | arg :: rest =>
    if arg == "--" then some { o with paths := o.paths ++ rest }
    else if isOption arg then
      match splitOption arg, rest with
      | (name, some value), rest => do (← o.withValue? value name).withArgs? rest
      | (name, none), rest =>
        if takesValue name then
          match rest with
          | value :: rest =>
            if isOption value then none else do (← o.withValue? value name).withArgs? rest
          | [] => none
        else do (← o.withFlag? name).withArgs? rest
    else { o with paths := o.paths ++ [arg] }.withArgs? rest

end CheckOptions

/-- The arguments of a command that has no options. -/
def plainArgs? : List String → Option (List String)
  | [] => some []
  | arg :: rest =>
    if arg == "--" then some rest
    else if isOption arg then none
    else (plainArgs? rest).map (arg :: ·)

/-- What the arguments ask for, if they make sense. -/
def Command.ofArgs? : List String → Option Command
  | "check" :: rest => (CheckOptions.withArgs? {} rest).map .check
  | "explain" :: rest =>
    match plainArgs? rest with
    | some [rule] => some (.explain rule)
    | _ => none
  | "init" :: rest =>
    match plainArgs? rest with
    | some [] => some .init
    | _ => none
  | arg :: _ => if arg == "--version" || arg.startsWith "-V" then some .version else none
  | [] => none

/-! ### Commands -/

/-- What a command leaves behind besides files. -/
structure Outcome where
  code : Nat := 0
  stdout : String := ""
  /-- Lines for the user. -/
  stderr : List String := []
  /-- Lines on the progress. -/
  log : List String := []
  deriving Repr

/-- The exit code of a command that failed. -/
def failureCode : Nat := 2

/-- The settings with what the options say instead. -/
def CheckOptions.adjust (o : CheckOptions) (settings : Settings) : Settings :=
  { settings with
    format := o.format.getD settings.format
    contextLines := o.context.getD settings.contextLines
    exitCode := o.exitCode.getD settings.exitCode }

/-- The findings of a run in a format. -/
def RunReport.text (r : RunReport) (settings : Settings) (color : Bool) : String :=
  match settings.format with
  | .text => listing r.diagnostics r.sources settings.contextLines
  | .machine => places r.diagnostics
  | .json => record r.diagnostics
  | .pretty => drawing r.diagnostics r.sources color

/-- What the user is told about fixed files. -/
def RunReport.fixedLines (r : RunReport) : List String :=
  if r.fixed.isEmpty then []
  else [s!"Fixed {r.fixedTotal} reference(s) in {r.fixed.length} file(s)"]

/-- What a check that has come to its end leaves behind. -/
def RunReport.outcome (r : RunReport) (settings : Settings) (o : CheckOptions) : Outcome :=
  { stdout := r.text settings (!o.noColor)
    log := if o.verbose then r.sources.map fun (path, _) => s!"checked {path}" else []
    code := if o.fix || r.diagnostics.isEmpty then 0 else settings.exitCode
    stderr := if o.fix then r.fixedLines else [] }

namespace Workspace

/-- The settings for the current directory. -/
def currentSettings (w : Workspace) : Settings :=
  w.settings (.root :: w.current.map .name)

def check (w : Workspace) (o : CheckOptions) : Outcome × Workspace :=
  let settings := o.adjust w.currentSettings
  match w.run settings o.fix (if o.paths.isEmpty then ["."] else o.paths) with
  | (.error e, w) => ({ code := failureCode, stderr := [s!"error: {e.message}"] }, w)
  | (.ok report, w) => (report.outcome settings o, w)

/-- Writes the default settings into the current directory, unless there are some already. -/
def init (w : Workspace) : Outcome × Workspace :=
  if (w.locate? settingsName).isSome then
    ({ code := failureCode, stderr := [s!"error: {settingsName} already exists"] }, w)
  else
    ({ stdout := s!"Created {settingsName}\n" },
      w.put (w.current ++ [settingsName]) Settings.defaultDocument.toUTF8)

end Workspace

def explain (rule : String) : Outcome :=
  match Rule.find? rule with
  | some r => { stdout := r.explanation }
  | none =>
    let known := ", ".intercalate (Rule.all.map (·.code))
    { code := failureCode, stderr := [s!"Unknown rule: {rule}. Known rules: {known}"] }

/-- Runs a command in a workspace. -/
def Command.run (w : Workspace) : Command → Outcome × Workspace
  | .check o => w.check o
  | .explain rule => (NilGuard.explain rule, w)
  | .init => w.init
  | .version => ({ stdout := "afternil 0.1.0\n" }, w)

end NilGuard
