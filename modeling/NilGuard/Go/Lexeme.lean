import NilGuard.Text.Letter
import NilGuard.Text.Pattern

/-!
Lexemes of Go source. Cutting a source into lexemes loses nothing: blanks and comments are lexemes
too, so the lexemes in a row are the source again (`flatten_text_of_lexemes`).
-/

namespace NilGuard.Go

open Text (Pattern isLetter isDecimal isBlank)

inductive Lexeme.Kind where
  | blank | comment | name | keyword | number | string | rune | operator
  deriving DecidableEq, Repr, Inhabited

structure Lexeme where
  kind : Lexeme.Kind
  text : List Char
  deriving DecidableEq, Repr, Inhabited

namespace Lexeme

def keywords : List String :=
  ["break", "case", "chan", "const", "continue", "default", "defer", "else", "fallthrough", "for",
   "func", "go", "goto", "if", "import", "interface", "map", "package", "range", "return", "select",
   "struct", "switch", "type", "var"]

/-- Operators and punctuation. No entry is the beginning of a later one. -/
def operators : List String :=
  ["&^=", "<<=", ">>=", "...", "&&", "||", "<-", "++", "--", "==", "!=", "<=", ">=", ":=", "+=",
   "-=", "*=", "/=", "%=", "&=", "|=", "^=", "<<", ">>", "&^", "+", "-", "*", "/", "%", "&", "|",
   "^", "<", ">", "=", "!", "(", ")", "[", "]", "\x7b", "\x7d", ",", ";", ".", ":", "~"]

def isHex (c : Char) : Bool :=
  c.isDigit || ('a' ≤ c && c ≤ 'f') || ('A' ≤ c && c ≤ 'F')

def isOctal (c : Char) : Bool :=
  '0' ≤ c && c ≤ '7'

def isNameStart (c : Char) : Bool :=
  c == '_' || isLetter c

def isNamePart (c : Char) : Bool :=
  isNameStart c || isDecimal c

/-! ### Numbers -/

/-- Digits after a first one. A single underscore may stand in front of each. -/
def moreDigits (ok : Char → Bool) : List Char → Nat
  | '_' :: d :: cs => if ok d then moreDigits ok cs + 2 else 0
  | d :: cs => if ok d then moreDigits ok cs + 1 else 0
  | [] => 0

def digits (ok : Char → Bool) : Pattern
  | c :: cs => if ok c then some (moreDigits ok cs + 1) else none
  | [] => none

def oneOf (cs : List Char) : Pattern :=
  .one (cs.contains ·)

def underscore : Pattern :=
  .optional (oneOf ['_'])

def exponent (mark : List Char) : Pattern :=
  .sequence [oneOf mark, .optional (oneOf ['+', '-']), digits Char.isDigit]

def decimal : Pattern :=
  .longer (oneOf ['0']) (.andThen (.one fun c => c.isDigit && c != '0')
    fun cs => some (moreDigits Char.isDigit cs))

def integer : Pattern :=
  .longest [
    decimal,
    .sequence [oneOf ['0'], oneOf ['x', 'X'], underscore, digits isHex],
    .sequence [oneOf ['0'], oneOf ['b', 'B'], underscore, digits fun c => c == '0' || c == '1'],
    .sequence [oneOf ['0'], .optional (oneOf ['o', 'O']), underscore, digits isOctal]]

def float : Pattern :=
  let exp := exponent ['e', 'E']
  let dec := digits Char.isDigit
  .longest [
    .sequence [dec, oneOf ['.'], .optional dec, .optional exp],
    .sequence [dec, exp],
    .sequence [oneOf ['.'], dec, .optional exp],
    .sequence [oneOf ['0'], oneOf ['x', 'X'],
      .longest [
        .sequence [underscore, digits isHex, oneOf ['.'], .optional (digits isHex)],
        .sequence [underscore, digits isHex],
        .sequence [oneOf ['.'], digits isHex]],
      exponent ['p', 'P']]]

/-- Integer, floating-point and imaginary numbers. -/
def number : Pattern :=
  .longest [
    integer,
    float,
    .andThen (.longest [digits Char.isDigit, integer, float]) (oneOf ['i'])]

/-! ### Quoted text -/

/-- Whether a text begins with `n` hexadecimal digits. -/
def hexAhead (n : Nat) (cs : List Char) : Bool :=
  (cs.take n).length == n && (cs.take n).all isHex

/-- The rest of a double-quoted string behind its opening quote. A backslash takes the next
character with it, and in front of `x`, `u` and `U` it asks for as many hexadecimal digits as they
need. -/
def stringRest : List Char → Option Nat
  | '"' :: _ => some 1
  | '\\' :: c :: cs =>
    let fits := match c with
      | 'x' => hexAhead 2 cs
      | 'u' => hexAhead 4 cs
      | 'U' => hexAhead 8 cs
      | _ => true
    if fits then (stringRest cs).map (· + 2) else none
  | c :: cs => if c == '\n' || c == '\\' then none else (stringRest cs).map (· + 1)
  | [] => none

/-- The rest of a string in back quotes. -/
def rawRest : List Char → Option Nat
  | '\x60' :: _ => some 1
  | _ :: cs => (rawRest cs).map (· + 1)
  | [] => none

/-- The rest of a quoted character behind its opening quote. -/
def runeRest : List Char → Option Nat
  | '\\' :: 'x' :: cs => if hexAhead 2 cs && cs[2]? == some '\'' then some 5 else none
  | '\\' :: 'u' :: cs => if hexAhead 4 cs && cs[4]? == some '\'' then some 7 else none
  | '\\' :: 'U' :: cs => if hexAhead 8 cs && cs[8]? == some '\'' then some 11 else none
  | '\\' :: a :: '\'' :: _ => if "abfnrtv\\'\"".toList.contains a then some 3 else none
  | '\\' :: a :: b :: c :: '\'' :: _ =>
    if isOctal a && isOctal b && isOctal c then some 5 else none
  | c :: '\'' :: _ => if c == '\\' || c == '\'' then none else some 2
  | _ => none

/-- The rest of a block comment behind its opening mark. -/
def commentRest : List Char → Option Nat
  | '*' :: '/' :: _ => some 2
  | _ :: cs => (commentRest cs).map (· + 1)
  | [] => none

/-! ### Cutting -/

/-- The kind of the lexeme that starts with `c`, and how many of the characters behind `c` belong
to it. -/
def measure (c : Char) (cs : List Char) : Option (Kind × Nat) :=
  if isBlank c then some (.blank, (cs.takeWhile isBlank).length)
  else if c == '/' && cs.head? == some '/' then
    some (.comment, (cs.takeWhile (· != '\n')).length)
  else if c == '/' && cs.head? == some '*' then
    (commentRest (cs.drop 1)).map fun n => (.comment, n + 1)
  else if isNameStart c then
    let more := cs.takeWhile isNamePart
    some (if keywords.contains (String.ofList (c :: more)) then .keyword else .name, more.length)
  else if c == '"' then (stringRest cs).map (.string, ·)
  else if c == '\x60' then (rawRest cs).map (.string, ·)
  else if c == '\'' then (runeRest cs).map (.rune, ·)
  else match number (c :: cs) with
    | some n => some (.number, n - 1)
    | none =>
      (operators.find? fun op => op.toList.isPrefixOf (c :: cs)).map fun op =>
        (.operator, op.length - 1)

end Lexeme

/-- Cuts a text into lexemes, unless some part of it is none. -/
def lexemes : List Char → Option (List Lexeme)
  | [] => some []
  | c :: cs => do
    let (kind, more) ← Lexeme.measure c cs
    let rest ← lexemes (cs.drop more)
    return ⟨kind, c :: cs.take more⟩ :: rest
termination_by cs => cs.length
decreasing_by simp only [List.length_drop, List.length_cons]; omega

theorem flatten_text_of_lexemes {cs : List Char} {ls : List Lexeme} (h : lexemes cs = some ls) :
    (ls.map (·.text)).flatten = cs := by
  fun_induction lexemes cs generalizing ls with
  | case1 => simp_all
  | case2 c cs ih =>
    simp only [Option.bind_eq_bind, Option.pure_def, Option.bind_eq_some_iff, Prod.exists,
      Option.some.injEq] at h
    obtain ⟨kind, more, hm, rest, hrest, rfl⟩ := h
    simp [ih more hrest]

end NilGuard.Go
