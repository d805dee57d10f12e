/-!
Patterns. A pattern says how many characters at the front of a text it takes, always as many as it
can, and nothing when it does not fit.
-/

namespace NilGuard.Text

/-- The number of leading characters taken, if the text fits. -/
abbrev Pattern := List Char → Option Nat

namespace Pattern

/-- One character of a class. -/
def one (ok : Char → Bool) : Pattern
  | c :: _ => if ok c then some 1 else none
  | [] => none

/-- Any number of characters of a class, none too. -/
def run (ok : Char → Bool) : Pattern :=
  fun cs => some (cs.takeWhile ok).length

/-- The characters of a fixed text. -/
def exactly (word : List Char) : Pattern :=
  fun cs => if word.isPrefixOf cs then some word.length else none

/-- One pattern and then another. -/
def andThen (first second : Pattern) : Pattern :=
  fun cs => do
    let n ← first cs
    let m ← second (cs.drop n)
    return n + m

/-- The longer of two patterns, the first when both take as much. -/
def longer (first second : Pattern) : Pattern :=
  fun cs => match first cs, second cs with
    | some n, some m => some (max n m)
    | some n, none => some n
    | none, answer => answer

/-- A pattern that may be missing. -/
def optional (p : Pattern) : Pattern :=
  fun cs => some ((p cs).getD 0)

/-- The longest of several patterns. -/
def longest (ps : List Pattern) : Pattern :=
  ps.foldr longer fun _ => none

/-- Several patterns in a row. -/
def sequence (ps : List Pattern) : Pattern :=
  ps.foldr andThen fun _ => some 0

end Pattern

end NilGuard.Text
