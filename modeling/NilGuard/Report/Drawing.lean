import NilGuard.Report.Diagnostic
import NilGuard.Text.Letter
import NilGuard.Text.Line

/-!
Diagnostics drawn into the source: the line of the place with a mark under it, from which a second
row leads to the explanation, and further rows for the fix and the cause.
-/

namespace NilGuard.Report

/-! ### Places -/

/-- The offset of a line and column, kept inside a text. -/
def offsetOf (text : List Char) (line column : Nat) : Nat :=
  let before := ((Text.pieces text).take (line - 1)).flatten
  min (Text.byteLength before + (column - 1)) (Text.byteLength text - 1)

/-- The offsets between which a place lies in a text, at least one byte. -/
def markRange (text : List Char) (l : Location) : Nat × Nat :=
  let start := offsetOf text l.line l.column
  let stop := max (offsetOf text l.endLine l.endColumn) (start + 1)
  (start, min stop (Text.byteLength text))

/-- Characters that end a line of a drawing. -/
def endsRow (c : Char) : Bool :=
  c == '\n' || c == '\r' || [0x0B, 0x0C, 0x85, 0x2028, 0x2029].contains c.toNat

/-- Cuts a text after each end of a row. A carriage return and a newline are one end. -/
def rows : List Char → List (List Char)
  | [] => []
  | '\r' :: '\n' :: cs => ['\r', '\n'] :: rows cs
  | c :: cs =>
    if endsRow c then [c] :: rows cs
    else match rows cs with
      | [] => [[c]]
      | row :: rest => (c :: row) :: rest

/-- The row that holds an offset: its number from zero, its text, and the offset inside it. -/
def rowAt (number offset : Nat) : List (List Char) → Nat × List Char × Nat
  | [] => (number, [], offset)
  | [row] => (number, row, offset)
  | row :: rest =>
    if offset < Text.byteLength row then (number, row, offset)
    else rowAt (number + 1) (offset - Text.byteLength row) rest

/-- How many characters of a row end at or before an offset. -/
def charsBefore : List Char → Nat → Nat
  | [], _ => 0
  | c :: cs, offset => if c.utf8Size ≤ offset then charsBefore cs (offset - c.utf8Size) + 1 else 0

/-! ### Columns -/

/-- Characters that take two columns. -/
def isWide (c : Char) : Bool :=
  Text.inRanges
    [(0x1100, 0x115F), (0x2E80, 0x303E), (0x3041, 0x33FF), (0x3400, 0x4DBF), (0x4E00, 0x9FFF),
     (0xA000, 0xA4CF), (0xA960, 0xA97F), (0xAC00, 0xD7A3), (0xF900, 0xFAFF), (0xFE30, 0xFE6F),
     (0xFF00, 0xFF60), (0xFFE0, 0xFFE6), (0x1F300, 0x1F64F), (0x1F900, 0x1F9FF),
     (0x20000, 0x3FFFD)] c.toNat

/-- Characters that take no column. -/
def isCombining (c : Char) : Bool :=
  Text.inRanges [(0x300, 0x36F), (0x200B, 0x200F), (0x20D0, 0x20FF), (0xFE00, 0xFE0F)] c.toNat

/-- How a character with a given index in its row is drawn. -/
def cell (index : Nat) (c : Char) : List Char :=
  if c == '\t' then List.replicate (4 - index % 4) ' '
  else if Text.isBlank c then [' ']
  else [c]

/-- How many columns a character with a given index in its row takes. -/
def cellWidth (index : Nat) (c : Char) : Nat :=
  if c == '\t' then 4 - index % 4
  else if Text.isBlank c then 1
  else if isWide c then 2
  else if isCombining c then 0
  else 1

/-! ### Paint -/

/-- Colours of a drawing. -/
inductive Paint where
  | mark | frame | quiet | unmarked | heading

def Paint.code : Paint → String
  | .mark => "31"
  | .frame => "38;5;246"
  | .quiet => "38;5;240"
  | .unmarked => "38;5;249"
  | .heading => "38;5;115"

/-- A text in a colour, or plain. -/
def Paint.apply (p : Paint) (color : Bool) (text : String) : String :=
  if color then s!"\x1b[{p.code}m{text}\x1b[0m" else text

/-- Every character in a colour of its own. -/
def Paint.each (p : Paint) (color : Bool) (cs : List Char) : String :=
  String.join (cs.map fun c => p.apply color (String.ofList [c]))

/-! ### Drawing -/

/-- Characters with their indices. -/
def numbered (cs : List Char) : List (Nat × Char) :=
  (List.range cs.length).zip cs

/-- The source row, the marked characters in the colour of the mark. -/
def sourceRow (color : Bool) (row : List Char) (start stop : Nat) : String :=
  String.join ((numbered row).map fun (i, c) =>
    (if start ≤ i && i < stop then Paint.mark else .unmarked).each color (cell i c))

/-- The columns of the character with index `i`, one for an index past the row. -/
def widthAt (row : List Char) (i : Nat) : Nat :=
  match row[i]? with
  | some c => cellWidth i c
  | none => 1

/-- The row under the source: a line along the mark with a hook in its middle. -/
def markRow (color : Bool) (row : List Char) (start stop : Nat) : String :=
  let middle := (start + stop) / 2
  String.join ((List.range (stop + 2)).map fun i =>
    let width := widthAt row i
    if i == middle then Paint.mark.each color ('┬' :: List.replicate (width - 1) '─')
    else if start ≤ i && i < stop then Paint.mark.each color (List.replicate width '─')
    else String.ofList (List.replicate width ' '))

/-- The row from the middle of the mark to the explanation. -/
def hookRow (color : Bool) (row : List Char) (start stop : Nat) : String :=
  let middle := (start + stop) / 2
  String.join ((List.range (stop + 2)).map fun i =>
    let width := widthAt row i
    if i < middle then String.ofList (List.replicate width ' ')
    else if i == middle then Paint.mark.each color ('╰' :: List.replicate (width - 1) '─')
    else Paint.mark.each color (List.replicate width '─'))

/-- The rows of a remark under the source, after an empty one. Its second line and those that follow
stand under the first. -/
def remarkRows (color : Bool) (margin heading text : String) : List String :=
  match Text.lines text.toList with
  | [] => [margin]
  | first :: rest =>
    [margin, margin ++ Paint.heading.apply color heading ++ ": " ++ String.ofList first]
      ++ rest.map fun line =>
        margin ++ String.ofList (List.replicate (heading.length + 2) ' ' ++ line)

/-- The rows of one diagnostic in a text that is not empty. -/
def Diagnostic.drawing (color : Bool) (text : List Char) (d : Diagnostic) : List String :=
  let (start, stop) := markRange text d.location
  let (number, row, offset) := rowAt 0 start (rows text)
  let first := charsBefore row offset
  let last := charsBefore row (offset + (stop - 1 - start)) + 1
  let row := Text.trimEnd row
  let lineNumber := toString (number + 1)
  let pad (n : Nat) : String := String.ofList (List.replicate n ' ')
  let width := lineNumber.length
  let margin := " " ++ Paint.quiet.apply color (pad (width + 1) ++ "│") ++ " "
  let help := match d.fix with
    | some f => remarkRows color margin "Help" f.description
    | none => []
  let note := match d.rootCause with
    | some r => remarkRows color margin "Note" s!"{r.description} (line {r.line})"
    | none => []
  [Paint.mark.apply color s!"[{d.rule}] Error:" ++ " " ++ d.title,
   pad (width + 2) ++ Paint.frame.each color "╭─[".toList
     ++ s!" {d.location.file}:{lineNumber}:{first + 1} " ++ Paint.frame.apply color "]",
   pad (width + 2) ++ Paint.frame.apply color "│",
   " " ++ Paint.frame.apply color (lineNumber ++ " │") ++ " " ++ sourceRow color row first last,
   margin ++ markRow color row first last,
   margin ++ hookRow color row first last ++ " " ++ d.explanation]
  ++ help ++ note
  ++ [Paint.frame.apply color (String.ofList (List.replicate (width + 2) '─') ++ "╯")]

/-- One diagnostic, in a single row if there is no text to draw into. -/
def Diagnostic.drawn (color : Bool) (sources : Sources) (d : Diagnostic) : String :=
  let text := (sources.text d.location.file).toList
  if text.isEmpty then
    s!"{d.location.label}: {d.severity.label} [{d.rule}] {d.title}: {d.explanation}\n"
  else String.join ((d.drawing color text).map (· ++ "\n"))

/-- All diagnostics and a last line that counts them. -/
def drawing (ds : List Diagnostic) (sources : Sources) (color : Bool) : String :=
  if ds.isEmpty then "No issues found\n"
  else
    "\n".intercalate (ds.map (Diagnostic.drawn color sources) ++
      [s!"\nFound {ds.length} reference(s) after nil check in {(files ds).length} file(s)\n"])

end NilGuard.Report
