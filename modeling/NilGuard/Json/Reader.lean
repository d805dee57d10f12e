import NilGuard.Json.Value

/-!
Reading JSON text. The whole text must be one value, with blanks allowed between its parts.
-/

namespace NilGuard.Json

def isSpace (c : Char) : Bool :=
  c == ' ' || c == '\t' || c == '\n' || c == '\r'

def skip (cs : List Char) : List Char :=
  cs.dropWhile isSpace

/-- The text behind a word. -/
def after? (word : String) (cs : List Char) : Option (List Char) :=
  if word.toList.isPrefixOf cs then some (cs.drop word.length) else none

def hexValue? (c : Char) : Option Nat :=
  if c.isDigit then some (c.toNat - '0'.toNat)
  else if 'a' ≤ c && c ≤ 'f' then some (c.toNat - 'a'.toNat + 10)
  else if 'A' ≤ c && c ≤ 'F' then some (c.toNat - 'A'.toNat + 10)
  else none

/-- Four hexadecimal digits. -/
def unit? : List Char → Option (Nat × List Char)
  | a :: b :: c :: d :: cs => do
    let a ← hexValue? a
    let b ← hexValue? b
    let c ← hexValue? c
    let d ← hexValue? d
    return (((a * 16 + b) * 16 + c) * 16 + d, cs)
  | _ => none

/-- The character of a numeric escape. Half of a pair cannot stand alone. -/
def unicode? (cs : List Char) : Option (Char × List Char) := do
  let (high, cs) ← unit? cs
  if 0xD800 ≤ high && high < 0xDC00 then
    let (low, cs) ← unit? (← after? "\\u" cs)
    if 0xDC00 ≤ low && low < 0xE000 then
      return (Char.ofNat (0x10000 + (high - 0xD800) * 0x400 + (low - 0xDC00)), cs)
    else none
  else if 0xDC00 ≤ high && high < 0xE000 then none
  else return (Char.ofNat high, cs)

/-- The character of an escape behind its backslash. -/
def unescape? : List Char → Option (Char × List Char)
  | 'u' :: cs => unicode? cs
  | c :: cs =>
    (([('"', '"'), ('\\', '\\'), ('/', '/'), ('b', '\x08'), ('f', '\x0c'), ('n', '\n'),
      ('r', '\r'), ('t', '\t')] : List (Char × Char)).lookup c).map (·, cs)
  | [] => none

/-- The rest of a quoted text behind its opening quote. `fuel` bounds its length. -/
def text? : Nat → List Char → Option (List Char × List Char)
  | 0, _ => none
  | fuel + 1, cs =>
    match cs with
    | [] => none
    | '"' :: cs => some ([], cs)
    | '\\' :: cs => do
      let (c, cs) ← unescape? cs
      let (text, cs) ← text? fuel cs
      return (c :: text, cs)
    | c :: cs =>
      if c.toNat < 32 then none
      else do
        let (text, cs) ← text? fuel cs
        return (c :: text, cs)

def digits (cs : List Char) : List Char × List Char :=
  cs.span Char.isDigit

def natOf (ds : List Char) : Nat :=
  ds.foldl (fun n d => n * 10 + (d.toNat - '0'.toNat)) 0

/-- A fraction or an exponent, if there is one. -/
def tail? (mark : Char → Bool) (signed : Bool) (cs : List Char) : Option (List Char × List Char) :=
  match cs with
  | c :: rest =>
    if mark c then
      let (sign, rest) := match rest with
        | s :: more => if signed && (s == '+' || s == '-') then ([s], more) else ([], rest)
        | [] => ([], [])
      match digits rest with
      | ([], _) => none
      | (ds, rest) => some (c :: sign ++ ds, rest)
    else some ([], cs)
  | [] => some ([], [])

/-- A number without its sign. A first zero stands alone. -/
def number? (negative : Bool) (cs : List Char) : Option (Json × List Char) := do
  let (ds, rest) := digits cs
  if ds.isEmpty || (ds.head? == some '0' && ds.length != 1) then none
  let (fraction, rest) ← tail? (· == '.') false rest
  let (exponent, rest) ← tail? (fun c => c == 'e' || c == 'E') true rest
  if fraction.isEmpty && exponent.isEmpty && !(negative && natOf ds == 0) then
    return (.int (if negative then -(natOf ds : Int) else natOf ds), rest)
  else
    let sign := if negative then ['-'] else []
    return (.real (String.ofList (sign ++ ds ++ fraction ++ exponent)), rest)

mutual

/-- A value at the front of a text. `fuel` bounds its length. -/
def value? : Nat → List Char → Option (Json × List Char)
  | 0, _ => none
  | fuel + 1, cs =>
    match cs with
    | '"' :: rest => do
      let (text, rest) ← text? fuel rest
      return (.string (String.ofList text), rest)
    | '[' :: rest =>
      match skip rest with
      | ']' :: rest => some (.array [], rest)
      | rest => do
        let (items, rest) ← items? fuel rest
        return (.array items, rest)
    | '\x7b' :: rest =>
      match skip rest with
      | '\x7d' :: rest => some (.object [], rest)
      | rest => do
        let (members, rest) ← members? fuel rest
        return (.object members, rest)
    | '-' :: rest => number? true rest
    | c :: _ =>
      if c.isDigit then number? false cs
      else (after? "null" cs).map (.null, ·)
        <|> (after? "true" cs).map (.bool true, ·)
        <|> (after? "false" cs).map (.bool false, ·)
    | [] => none

/-- Items up to the closing bracket. -/
def items? : Nat → List Char → Option (List Json × List Char)
  | 0, _ => none
  | fuel + 1, cs => do
    let (item, rest) ← value? fuel (skip cs)
    match skip rest with
    | ']' :: rest => return ([item], rest)
    | ',' :: rest =>
      let (items, rest) ← items? fuel rest
      return (item :: items, rest)
    | _ => none

/-- Members up to the closing brace. -/
def members? : Nat → List Char → Option (List (String × Json) × List Char)
  | 0, _ => none
  | fuel + 1, cs => do
    let (name, rest) ← text? fuel (← after? "\"" (skip cs))
    let (value, rest) ← value? fuel (skip (← after? ":" (skip rest)))
    match skip rest with
    | '\x7d' :: rest => return ([(String.ofList name, value)], rest)
    | ',' :: rest =>
      let (members, rest) ← members? fuel rest
      return ((String.ofList name, value) :: members, rest)
    | _ => none

end

/-- The value that a text is. -/
def parse? (text : String) : Option Json := do
  let cs := text.toList
  let (value, rest) ← value? (cs.length + 1) (skip cs)
  if (skip rest).isEmpty then return value else none

end NilGuard.Json
