/-!
TOML values and the tables that a document builds up. A table remembers how it came to be, because
that decides what may still be added to it: nothing can be defined twice, and what one part of a
document closes no later part can open.
-/

namespace NilGuard.Toml

/-- How a table came to be. -/
inductive TableKind where
  /-- Written as a value between braces. -/
  | inline
  /-- Named by a header. -/
  | header
  /-- On the way to a table that a header names. -/
  | implied
  /-- On the way to a key with dots. -/
  | dotted
  deriving DecidableEq, Repr, Inhabited

inductive Value where
  | string (text : String)
  | integer (value : Int)
  | boolean (value : Bool)
  /-- A number with a fraction or an exponent, or none at all. -/
  | float
  | datetime
  | array (items : List Value)
  | table (kind : TableKind) (entries : List (String × Value))
  /-- Tables that headers add one by one, each by its entries. -/
  | tables (items : List (List (String × Value)))
  deriving Repr, Inhabited

structure Table where
  kind : TableKind
  entries : List (String × Value) := []
  deriving Repr, Inhabited

namespace Table

def get? (t : Table) (key : String) : Option Value :=
  t.entries.lookup key

/-- Gives a key a value in place of the one it had. -/
def set (t : Table) (key : String) (value : Value) : Table :=
  { t with entries := t.entries.filter (·.1 != key) ++ [(key, value)] }

/-- Gives a key a value, unless it has one. -/
def add (t : Table) (key : String) (value : Value) : Option Table :=
  if (t.get? key).isNone then some (t.set key value) else none

end Table

def Table.toValue (t : Table) : Value :=
  .table t.kind t.entries

/-- Whether a path of the given kind may pass through a table. Nothing passes into braces, and a key
with dots passes only where no header has been. -/
def TableKind.opensTo : TableKind → TableKind → Bool
  | .implied, _ | .dotted, _ => true
  | .header, path => path != .dotted
  | .inline, _ => false

/-- Changes the table at the end of a path. Tables that are missing on the way are made with the
kind of the path. From a list of tables the path goes on in the last one. -/
def Table.alter (path : TableKind) (change : Table → Option Table) :
    List String → Table → Option Table
  | [], t => change t
  | key :: keys, t =>
    match t.get? key with
    | none => do
      let inner ← alter path change keys { kind := path }
      return t.set key inner.toValue
    | some (.table kind entries) =>
      if kind.opensTo path then do
        let inner ← alter path change keys { kind, entries }
        return t.set key inner.toValue
      else none
    | some (.tables items) => do
      let last ← items.getLast?
      let inner ← alter path change keys { kind := .header, entries := last }
      return t.set key (.tables (items.dropLast ++ [inner.entries]))
    | some _ => none

/-- A key with the dotted path in front of it. -/
structure Key where
  path : List String
  last : String
  deriving Repr

/-- Defines a key. Behind dots it must be new in a table that only keys with dots have made. -/
def Table.define (t : Table) (key : Key) (value : Value) : Option Table :=
  t.alter .dotted
    (fun u => if key.path.isEmpty || u.kind == .dotted then u.add key.last value else none) key.path

def Table.defineAll (t : Table) (pairs : List (Key × Value)) : Option Table :=
  pairs.foldlM (fun t (key, value) => t.define key value) t

/-- A header with the keys under it. -/
structure Section where
  key : Key
  /-- Whether the header adds to a list of tables. -/
  listed : Bool
  pairs : List (Key × Value)
  deriving Repr

/-- Adds the table of a section to the table that its header's last key belongs to. A header can
take over a table that was only implied. -/
def Section.addTo (s : Section) (t : Table) : Option Table :=
  if s.listed then do
    let items ← match t.get? s.key.last with
      | none => some []
      | some (.tables items) => some items
      | some _ => none
    let new ← ({ kind := .header } : Table).defineAll s.pairs
    return t.set s.key.last (.tables (items ++ [new.entries]))
  else do
    let entries ← match t.get? s.key.last with
      | none => some []
      | some (.table .implied entries) => some entries
      | some _ => none
    let new ← ({ kind := .header, entries } : Table).defineAll s.pairs
    return t.set s.key.last new.toValue

/-- The table of a document: the keys before the first header, then the sections. -/
def Table.ofSections? (pairs : List (Key × Value)) (sections : List Section) : Option Table := do
  let root ← ({ kind := .header } : Table).defineAll pairs
  sections.foldlM (fun t s => t.alter .implied s.addTo s.key.path) root

end NilGuard.Toml
