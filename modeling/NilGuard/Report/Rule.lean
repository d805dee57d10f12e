/-!
The rules that diagnostics refer to.
-/

namespace NilGuard.Report

structure Rule where
  code : String
  name : String
  description : String
  severity : String
  exampleBad : String
  exampleGood : String
  goIdiom : String
  deriving DecidableEq, Repr

/-- A read after a guard. -/
def Rule.ref001 : Rule where
  code := "REF001"
  name := "Reference after nil check"
  description := "A variable is read after a guard `if v != nil \x7b ... return \x7d`. "
    ++ "Past the guard the variable is always nil, so the read almost certainly meant to use a "
    ++ "different variable or the check is inverted."
  severity := "error"
  exampleBad := "if err != nil \x7b\n    return err\n\x7d\n"
    ++ "return fmt.Errorf(\"load: %w\", err) // err is nil"
  exampleGood := "if err != nil \x7b\n    return fmt.Errorf(\"load: %w\", err)\n\x7d\nreturn nil"
  goIdiom := "Past `if err != nil \x7b return \x7d` write `nil` explicitly, "
    ++ "or check the variable you meant"

def Rule.all : List Rule :=
  [.ref001]

/-- The rule with a code, in either case. -/
def Rule.find? (code : String) : Option Rule :=
  Rule.all.find? fun r => r.code.toLower == code.toLower

/-- Two more blanks in front of every line. -/
def indented (text : String) : String :=
  "\n".intercalate ((text.splitOn "\n").map ("  " ++ ·))

/-- What is said about a rule. -/
def Rule.explanation (r : Rule) : String :=
  s!"{r.code}: {r.name}\n\n{r.description}\n\nExample:\n{indented r.exampleBad}\n\nFix:\n"
    ++ s!"{indented r.exampleGood}\n\n{r.goIdiom}\n"

end NilGuard.Report
