import NilGuard.Settings
import NilGuard.Toml.Grammar

/-!
Settings in a TOML document. They are the table `afternil`, or a list of the values in the order of
the fields; what is left out has its default. Keys that are not known do not count.
-/

namespace NilGuard

open Toml

/-- A format by its name, or a table with the name as its only key and nothing under it. -/
def OutputFormat.ofValue? : Value → Option OutputFormat
  | .string s => ofLabel? s
  | .table _ [(s, .table _ [])] | .table _ [(s, .array [])] => ofLabel? s
  | _ => none

/-- A number that is not larger than a bound. -/
def countOfValue? (bound : Nat) : Value → Option Nat
  | .integer (.ofNat n) => if n ≤ bound then some n else none
  | _ => none

def flagOfValue? : Value → Option Bool
  | .boolean b => some b
  | _ => none

def textOfValue? : Value → Option String
  | .string s => some s
  | _ => none

namespace Settings

/-- Reads a field unless it is left out. -/
def field? (read : Value → Option α) (default : α) : Option Value → Option α
  | none => some default
  | some v => read v

/-- The settings with the given fields, found by name or by number. -/
def ofFields? (fields : String → Nat → Option Value) : Option Settings := do
  let base : Settings := {}
  return {
    format := ← field? OutputFormat.ofValue? base.format (fields "format" 0)
    contextLines :=
      ← field? (countOfValue? (UInt64.size - 1)) base.contextLines (fields "context_lines" 1)
    exitCode := ← field? (countOfValue? 255) base.exitCode (fields "exit_code" 2)
    skipGenerated := ← field? flagOfValue? base.skipGenerated (fields "skip_generated" 3)
    includeTests := ← field? flagOfValue? base.includeTests (fields "include_tests" 4)
    suppressMarker := ← field? textOfValue? base.suppressMarker (fields "suppress_marker" 5) }

def ofValue? : Value → Option Settings
  | .table _ entries => ofFields? fun name _ => entries.lookup name
  | .array items => ofFields? fun _ i => items[i]?
  | .tables items => ofFields? fun _ i => items[i]?.map (.table .header)
  | _ => none

/-- The settings that a document describes. -/
def ofDocument? (text : String) : Option Settings := do
  let root ← Toml.parse? text
  field? ofValue? {} (root.get? "afternil")

/-- The settings that a document describes, or the default ones if it makes no sense. -/
def ofDocument (text : String) : Settings :=
  (ofDocument? text).getD {}

/-- A document that describes the default settings. -/
def defaultDocument : String :=
  "[afternil]\n# text | machine | json | pretty\nformat = \"text\"\ncontext_lines = 1\n"
    ++ "exit_code = 1\nskip_generated = true\ninclude_tests = true\n"
    ++ "suppress_marker = \"afternil:ignore\"\n"

end Settings

end NilGuard
