import NilGuard.Path
import NilGuard.Settings.Document

/-!
A workspace: a tree of directories and files, and the directory that one is in.
-/

namespace NilGuard

/-- Where something stands in a tree: the names on the way from the top. -/
abbrev Address := List String

structure Workspace where
  files : List (Address × ByteArray) := []
  /-- Directories besides those that files stand in. -/
  dirs : List Address := []
  /-- The directory that paths start from. -/
  current : Address := []

namespace Workspace

open NilGuard.Path

def isFile (w : Workspace) (a : Address) : Bool :=
  w.files.any (·.1 == a)

/-- A directory is listed itself or has something below it. -/
def isDir (w : Workspace) (a : Address) : Bool :=
  a.isEmpty || w.dirs.any a.isPrefixOf || w.files.any fun (b, _) => a.isPrefixOf b && a != b

/-- Where some steps lead. Each one starts from a directory. -/
def follow? (w : Workspace) : Address → List Component → Option Address
  | a, [] => some a
  | a, c :: cs =>
    if w.isDir a then
      match c with
      | .root => w.follow? [] cs
      | .here => w.follow? a cs
      | .up => w.follow? a.dropLast cs
      | .name s =>
        if w.isFile (a ++ [s]) || w.isDir (a ++ [s]) then w.follow? (a ++ [s]) cs else none
    else none

/-- Where a path leads. An empty path leads nowhere. -/
def locate? (w : Workspace) (path : String) : Option Address :=
  if path.isEmpty then none else w.follow? w.current (steps path)

/-- Whether a path leads to a file. -/
def hasFile (w : Workspace) (path : String) : Bool :=
  (w.locate? path).any w.isFile

/-- The text of a file, if it has one. -/
def text? (w : Workspace) (a : Address) : Option String := do
  String.fromUTF8? (← w.files.lookup a)

/-- Gives a file another content. -/
def replace (w : Workspace) (a : Address) (content : ByteArray) : Workspace :=
  { w with files := w.files.map fun (b, old) => (b, if b == a then content else old) }

/-- Makes a file, or gives it another content if it is there. -/
def put (w : Workspace) (a : Address) (content : ByteArray) : Workspace :=
  if w.isFile a then w.replace a content else { w with files := w.files ++ [(a, content)] }

/-! ### Settings -/

/-- The name of the documents that hold settings. -/
def settingsName : String := "afternil.toml"

/-- The document with the settings for a directory: the one in it or, failing that, in the nearest
directory above it. -/
def settingsAddress? (w : Workspace) (dir : List Component) : Option Address :=
  match w.follow? w.current (dir ++ [.name settingsName]) with
  | some a => some a
  | none => if dir = [] ∨ dir = [.root] then none else w.settingsAddress? dir.dropLast
termination_by dir.length
decreasing_by
  have : dir.length ≠ 0 := by simp_all
  simp only [List.length_dropLast]
  omega

/-- The settings for a directory. A document that cannot be read counts as empty. -/
def settings (w : Workspace) (dir : List Component) : Settings :=
  match w.settingsAddress? dir with
  | some a => .ofDocument ((w.text? a).getD "")
  | none => {}

end Workspace

end NilGuard
