import NilGuard.Report.Diagnostic
import NilGuard.Text.Line

/-!
Diagnostics line by line: a heading with the source lines up to the place, or the place alone. Lines
are counted in words of 64 bits, so counting fails where a number would be negative or too large.
The text of a file is looked up once and kept for the diagnostics that follow.
-/

namespace NilGuard.Report

/-! ### Counting -/

/-- The sum of two words, if it is a word. -/
def sum? (a b : Nat) : Option Nat :=
  if a + b < UInt64.size then some (a + b) else none

/-- The difference of two words, if it is not negative. -/
def difference? (a b : Nat) : Option Nat :=
  if b ≤ a then some (a - b) else none

/-- How many lines come before the context of line `last`, and how many lines it has up to that
line. -/
def window? (last context : Nat) : Option (Nat × Nat) := do
  let first := max 1 (last - (← difference? context 1))
  return (← difference? first 1, ← difference? (← sum? last 1) first)

/-! ### Entries -/

/-- The first line of an entry. -/
def Diagnostic.heading (d : Diagnostic) : String :=
  s!"Reference after nil check at {d.location.label}\n"

/-- A listing in the making, with the texts that were looked up for it. -/
structure Listing where
  text : String := ""
  known : Sources := []

namespace Listing

/-- The text of a file. It is looked up unless it is known already. -/
def lookUp (l : Listing) (read : String → String) (file : String) : String × Sources :=
  match l.known.lookup file with
  | some text => (text, l.known)
  | none => (read file, (file, read file) :: l.known)

/-- Adds a diagnostic: its heading and at most `context` lines that end with its own. -/
def add? (read : String → String) (context : Nat) (l : Listing) (d : Diagnostic) : Option Listing :=
  let text := l.text ++ d.heading
  if context = 0 then some { l with text }
  else do
    let (source, known) := l.lookUp read d.location.file
    let (skipped, count) ← window? d.location.line context
    let shown := ((Text.lines source.toList).drop skipped).take count
    return { text := text ++ String.join (shown.map fun line => String.ofList line ++ "\n"), known }

end Listing

/-- Every diagnostic with its heading and at most `context` source lines, unless counting fails. -/
def listing? (read : String → String) (ds : List Diagnostic) (context : Nat) : Option String :=
  (ds.foldlM (Listing.add? read context) {}).map (·.text)

/-- The listing with the given sources. -/
def listing (ds : List Diagnostic) (sources : Sources) (context : Nat) : String :=
  (listing? sources.text ds context).getD ""

/-- The place of every diagnostic. -/
def places (ds : List Diagnostic) : String :=
  String.join (ds.map fun d => d.location.label ++ "\n")

end NilGuard.Report
