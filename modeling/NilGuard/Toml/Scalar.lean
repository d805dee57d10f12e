import NilGuard.Toml.Table

/-!
TOML values that are written as one word: numbers, truth values, dates and times.
-/

namespace NilGuard.Toml

def isHexDigit (c : Char) : Bool :=
  c.isDigit || ('a' ≤ c && c ≤ 'f') || ('A' ≤ c && c ≤ 'F')

def digitValue (c : Char) : Nat :=
  if c.isDigit then c.toNat - '0'.toNat
  else if 'a' ≤ c then c.toNat - 'a'.toNat + 10
  else c.toNat - 'A'.toNat + 10

/-- The number that digits write. -/
def digitsValue (base : Nat) (ds : List Char) : Nat :=
  ds.foldl (fun n d => n * base + digitValue d) 0

/-- The digits of a number, which may have single underscores between them. -/
def digits? (ok : Char → Bool) (cs : List Char) : Option (List Char) :=
  let groups := cs.splitOn '_'
  if groups.all fun g => !g.isEmpty && g.all ok then some groups.flatten else none

/-- The digits of a decimal number, which begins with zero only if it is zero. -/
def wholeDigits? (cs : List Char) : Option (List Char) := do
  let ds ← digits? Char.isDigit cs
  if ds.head? == some '0' && ds.length != 1 then none else return ds

/-- Parts a number from its sign. -/
def signed : List Char → Bool × List Char
  | '+' :: cs => (false, cs)
  | '-' :: cs => (true, cs)
  | cs => (false, cs)

/-- An integer, if it has 64 bits. -/
def integer? (n : Int) : Option Value :=
  if -0x8000000000000000 ≤ n && n < 0x8000000000000000 then some (.integer n) else none

def wholeNumber? : List Char → Option Value
  | '0' :: 'x' :: cs => do integer? (digitsValue 16 (← digits? isHexDigit cs))
  | '0' :: 'o' :: cs => do integer? (digitsValue 8 (← digits? (fun c => '0' ≤ c && c ≤ '7') cs))
  | '0' :: 'b' :: cs => do integer? (digitsValue 2 (← digits? (fun c => c == '0' || c == '1') cs))
  | cs => do
    let (negative, cs) := signed cs
    let n := digitsValue 10 (← wholeDigits? cs)
    integer? (if negative then -n else n)

/-- Whether a decimal number is so large that the nearest double is infinite. -/
def overflows (digits : List Char) (exponent : Int) : Bool :=
  let n := digitsValue 10 digits
  let limit := Nat.pow 2 1024 - Nat.pow 2 970
  match exponent with
  | .ofNat k => n != 0 && (400 < k || limit ≤ n * Nat.pow 10 k)
  | .negSucc k => k + 1 ≤ digits.length && limit * Nat.pow 10 (k + 1) ≤ n

/-- The digits behind a mark, or none if the mark is not there. -/
def fraction? : List Char → Option (List Char)
  | '.' :: cs => digits? Char.isDigit cs
  | cs => if cs.isEmpty then some [] else none

/-- The exponent behind its mark, or zero if the mark is not there. -/
def exponent? : List Char → Option Int
  | [] => some 0
  | _ :: cs => do
    let (negative, cs) := signed cs
    let n := digitsValue 10 (← digits? Char.isDigit cs)
    return if negative then -n else n

/-- A number with a fraction or an exponent. -/
def realNumber? (cs : List Char) : Option Value := do
  let (negative, cs) := signed cs
  let (mantissa, tail) := cs.span fun c => c != 'e' && c != 'E'
  let (whole, point) := mantissa.span (· != '.')
  if point.isEmpty && tail.isEmpty then none
  let whole ← wholeDigits? whole
  let fraction ← fraction? point
  let exponent ← exponent? tail
  if !negative && overflows (whole ++ fraction) (exponent - fraction.length) then none
  return .float

/-- The number that some digits write, if it lies between two bounds. -/
def within? (low high : Nat) (ds : List Char) : Option Nat := do
  if !ds.all Char.isDigit then none
  let n := digitsValue 10 ds
  if low ≤ n && n ≤ high then return n else none

def daysInMonth (year month : Nat) : Nat :=
  if month = 2 then
    if year % 4 = 0 && (year % 100 != 0 || year % 400 = 0) then 29 else 28
  else if month = 4 || month = 6 || month = 9 || month = 11 then 30
  else 31

/-- What is behind a date. -/
def date? : List Char → Option (List Char)
  | y₁ :: y₂ :: y₃ :: y₄ :: '-' :: m₁ :: m₂ :: '-' :: d₁ :: d₂ :: rest => do
    let year ← within? 0 9999 [y₁, y₂, y₃, y₄]
    let month ← within? 1 12 [m₁, m₂]
    discard (within? 1 (daysInMonth year month) [d₁, d₂])
    return rest
  | _ => none

/-- What is behind a time. -/
def time? : List Char → Option (List Char)
  | h₁ :: h₂ :: ':' :: m₁ :: m₂ :: ':' :: s₁ :: s₂ :: rest => do
    discard (within? 0 23 [h₁, h₂])
    discard (within? 0 59 [m₁, m₂])
    discard (within? 0 60 [s₁, s₂])
    match rest with
    | '.' :: fraction =>
      let (ds, rest) := fraction.span Char.isDigit
      if ds.isEmpty then none else return rest
    | _ => return rest
  | _ => none

/-- Whether a text is the distance of a clock from universal time, or nothing. -/
def isOffset : List Char → Bool
  | [] | ['Z'] | ['z'] => true
  | [sign, h₁, h₂, ':', m₁, m₂] =>
    (sign == '+' || sign == '-') && (within? 0 23 [h₁, h₂]).isSome
      && (within? 0 59 [m₁, m₂]).isSome
  | _ => false

/-- Whether a text is a time of the day that belongs to a date. -/
def isDayTime (cs : List Char) : Bool :=
  (time? cs).any isOffset

/-- Whether a text is a date alone. -/
def isDate (cs : List Char) : Bool :=
  (date? cs).any List.isEmpty

def isDatetime (cs : List Char) : Bool :=
  isDate cs || (time? cs).any List.isEmpty || (date? cs).any fun
    | 'T' :: rest | 't' :: rest => isDayTime rest
    | _ => false

/-- The value that a word is. -/
def word? (cs : List Char) : Option Value :=
  if cs == "true".toList then some (.boolean true)
  else if cs == "false".toList then some (.boolean false)
  else if (signed cs).2 == "inf".toList || (signed cs).2 == "nan".toList then some .float
  else if isDatetime cs then some .datetime
  else realNumber? cs <|> wholeNumber? cs

end NilGuard.Toml
