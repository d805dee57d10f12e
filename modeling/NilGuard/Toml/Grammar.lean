import NilGuard.Reader
import NilGuard.Toml.Scalar

/-!
Reading TOML documents.
-/

namespace NilGuard.Toml

open Reader

/-- How deep arrays and tables may nest inside one another, and how long a key may be. -/
def maxDepth : Nat := 79

namespace Grammar

def isSpace (c : Char) : Bool :=
  c == ' ' || c == '\t'

/-- Whether a character can stand in a comment. -/
def isPrintable (c : Char) : Bool :=
  c == '\t' || (' ' ≤ c && c != '\x7f')

def spaces : Reader Char Unit :=
  discard (takeWhile isSpace)

def mark (c : Char) : Reader Char Unit :=
  exactly [c]

def newline : Reader Char Unit :=
  mark '\n' <|> exactly ['\r', '\n']

def comment : Reader Char Unit := do
  mark '#'
  discard (takeWhile isPrintable)

/-- The end of a line behind something else. -/
def lineEnd : Reader Char Unit := do
  spaces
  discard (attempt comment)
  newline <|> atEnd

/-- Blanks, newlines and comments. -/
def blanks : Reader Char Unit :=
  discard (many (attempt (mark ' ' <|> mark '\t' <|> newline <|> comment)))

/-! ### Texts -/

/-- A character given by its number in hexadecimal digits. -/
def numbered (width : Nat) : Reader Char Char := do
  let cs ← get
  let ds := cs.take width
  guard (ds.length == width && ds.all isHexDigit)
  let n := digitsValue 16 ds
  guard (n < 0xD800 || (0xE000 ≤ n && n < 0x110000))
  set (cs.drop width)
  return Char.ofNat n

/-- The character of an escape behind its backslash. -/
def escape : Reader Char Char := do
  match ← next with
  | 'b' => return '\x08'
  | 't' => return '\t'
  | 'n' => return '\n'
  | 'f' => return '\x0c'
  | 'r' => return '\r'
  | '"' => return '"'
  | '\\' => return '\\'
  | 'u' => numbered 4
  | 'U' => numbered 8
  | _ => failure

/-- Text up to the closing quote on the same line. Only double quotes know escapes. -/
def shortText (quote : Char) : Reader Char String := do
  mark quote
  let cs ← many do
    if (← get).head? == some quote then return none
    let c ← next
    guard (isPrintable c)
    if quote == '"' && c == '\\' then return some (← escape)
    return some c
  mark quote
  return String.ofList cs

/-- A backslash at the end of a line takes the blanks and newlines behind it away. -/
def joinedLines : Reader Char Unit := do
  mark '\\'
  spaces
  newline
  discard (many (attempt (mark ' ' <|> mark '\t' <|> newline)))

/-- Text over several lines between threefold quotes, of which it may have one or two itself, also
in front of the closing ones. A newline right behind the opening quotes does not count. -/
def longText (quote : Char) : Reader Char String := do
  exactly [quote, quote, quote]
  discard (attempt newline)
  let parts ← many do
    if (← get).take 3 == [quote, quote, quote] then return none
    if quote == '"' && (← attempt joinedLines).isSome then return some []
    if (← attempt newline).isSome then return some ['\n']
    let c ← next
    guard (isPrintable c)
    if quote == '"' && c == '\\' then return some [← escape]
    return some [c]
  let quotes ← takeWhile (· == quote)
  guard (quotes.length ≤ 5)
  return String.ofList (parts.flatten ++ quotes.drop 3)

/-- A text in any of its four forms. -/
def text : Reader Char String := do
  match (← get) with
  | '"' :: '"' :: '"' :: _ => longText '"'
  | '\'' :: '\'' :: '\'' :: _ => longText '\''
  | '"' :: _ => shortText '"'
  | _ => shortText '\''

/-! ### Keys -/

def isBareKey (c : Char) : Bool :=
  c.isAlphanum || c == '-' || c == '_'

/-- One part of a key. -/
def simpleKey : Reader Char String := do
  spaces
  let part ← match (← get).head? with
    | some '"' => shortText '"'
    | some '\'' => shortText '\''
    | _ => do
      let cs ← takeWhile isBareKey
      guard (!cs.isEmpty)
      pure (String.ofList cs)
  spaces
  return part

/-- Parts with dots between them. -/
def key : Reader Char Key := do
  let first ← simpleKey
  let rest ← many do
    if (← get).head? == some '.' then
      mark '.'
      return some (← simpleKey)
    return none
  let parts := first :: rest
  guard (parts.length ≤ maxDepth)
  return { path := parts.dropLast, last := parts.getLastD first }

/-! ### Values -/

def isWordPart (c : Char) : Bool :=
  c.isAlphanum || c == '+' || c == '-' || c == '_' || c == '.' || c == ':'

/-- A value that is one word. A blank may stand between a date and its time. -/
def word : Reader Char Value := do
  let cs ← takeWhile isWordPart
  if isDate cs then
    discard <| attempt do
      mark ' '
      guard (isDayTime (← takeWhile isWordPart))
  word? cs

/-- A key, its value, and the blanks around them. -/
def pair (value : Reader Char Value) : Reader Char (Key × Value) := do
  let k ← key
  mark '='
  spaces
  let v ← value
  spaces
  return (k, v)

/-- Items between brackets, with commas between them and perhaps one at the end. -/
def array (value : Reader Char Value) : Reader Char Value := do
  mark '['
  blanks
  let items ← many do
    if (← get).head? == some ']' then return none
    let v ← value
    blanks
    unless (← attempt (mark ',')).isSome do
      guard ((← get).head? == some ']')
    blanks
    return some v
  mark ']'
  return .array items

/-- Pairs between braces, with commas between them. -/
def inlineTable (value : Reader Char Value) : Reader Char Value := do
  mark '\x7b'
  spaces
  let pairs ← if (← get).head? == some '\x7d' then pure [] else do
    let first ← pair value
    let rest ← many do
      if (← attempt (mark ',')).isSome then return some (← pair value)
      return none
    pure (first :: rest)
  mark '\x7d'
  let t ← ({ kind := .inline } : Table).defineAll pairs
  return t.toValue

/-- A value in which arrays and tables nest at most as deep as given. -/
def value : Nat → Reader Char Value
  | 0 => do
    match (← get).head? with
    | some '"' | some '\'' => return .string (← text)
    | _ => word
  | depth + 1 => do
    match (← get).head? with
    | some '"' | some '\'' => return .string (← text)
    | some '[' => array (value depth)
    | some '\x7b' => inlineTable (value depth)
    | _ => word

/-! ### Documents -/

/-- Pairs on lines of their own. Empty lines and comments around them are passed over. -/
def pairs : Reader Char (List (Key × Value)) :=
  many do
    blanks
    match (← get).head? with
    | none | some '[' => return none
    | some _ =>
      let p ← pair (value maxDepth)
      lineEnd
      return some p

/-- A header on a line of its own, and the pairs under it. -/
def header : Reader Char Section := do
  mark '['
  let listed := (← attempt (mark '[')).isSome
  let k ← key
  exactly (if listed then "]]".toList else "]".toList)
  lineEnd
  return { key := k, listed, pairs := ← pairs }

/-- A document may begin with a byte order mark. -/
def document : Reader Char Table := do
  discard (attempt (mark '\ufeff'))
  let front ← pairs
  let sections ← many do
    if (← get).isEmpty then return none
    return some (← header)
  Table.ofSections? front sections

end Grammar

/-- The table that a document describes. -/
def parse? (source : String) : Option Table :=
  Reader.readAll? Grammar.document source.toList

end NilGuard.Toml
