import NilGuard.Check
import NilGuard.Workspace

/-!
The files that path arguments stand for. A file stands for itself, a directory for the Go files in
it, and a pattern `dir/...` for all Go files below the directory except those that are set aside.
-/

namespace NilGuard.Workspace

/-- Whether a directory below the start of a pattern is set aside with all that is in it. -/
def setAside (name : String) : Bool :=
  name == "vendor" || name == "testdata" || name.startsWith "." || name.startsWith "_"

/-- Whether a directory contributes the file with a name. -/
def isWanted (includeTests : Bool) (name : String) : Bool :=
  name.endsWith ".go" && (includeTests || !name.endsWith "_test.go")

/-- The way from a directory down to something below it. -/
def below? (dir a : Address) : Option Address :=
  if dir.isPrefixOf a then some (a.drop dir.length) else none

/-- The names of what stands directly in a directory. -/
def entries (w : Workspace) (dir : Address) : List String :=
  ((w.files.map (·.1) ++ w.dirs).filterMap fun a => (below? dir a).bind List.head?).eraseDups

/-- The paths of the wanted files that are met on a walk down from a directory, which goes down so
many levels and does not enter what is set aside. They are written from the path of the
directory. -/
def walk (w : Workspace) (includeTests : Bool) : Nat → String → Address → List String
  | 0, _, _ => []
  | levels + 1, path, dir => (w.entries dir).flatMap fun name =>
    let a := dir ++ [name]
    (if w.isFile a && isWanted includeTests name then [Path.join path name] else []) ++
      if w.isDir a && !setAside name then w.walk includeTests levels (Path.join path name) a else []

/-- How far below the top a file stands at most. -/
def depth (w : Workspace) : Nat :=
  w.files.foldr (fun (a, _) n => max a.length n) 0

/-- The paths of the files that a directory contributes: those directly in it, or all those that a
walk without a limit meets. -/
def filesIn (w : Workspace) (recursive includeTests : Bool) (path : String) (dir : Address) :
    List String :=
  w.walk includeTests (if recursive then w.depth else 1) path dir

/-- The directory of a pattern. -/
def patternRoot? (arg : String) : Option String :=
  let cs := arg.toList
  if "...".toList.isSuffixOf cs then
    let root := ((cs.take (cs.length - 3)).reverse.dropWhile (· == '/')).reverse
    some (if root.isEmpty then "." else String.ofList root)
  else none

/-- The files that one argument stands for. -/
def expandOne (w : Workspace) (includeTests : Bool) (arg : String) : Except Error (List String) :=
  match patternRoot? arg with
  | some root =>
    match (w.locate? root).filter w.isDir with
    | some dir => .ok (w.filesIn true includeTests root dir)
    | none => .error (.missing root)
  | none =>
    match w.locate? arg with
    | some a =>
      if w.isDir a then .ok (w.filesIn false includeTests arg a) else .ok [arg]
    | none => .error (.missing arg)

/-- The files that arguments stand for, in the order of their paths. Of paths that are the same the
first one stays. -/
def expand (w : Workspace) (includeTests : Bool) (args : List String) :
    Except Error (List String) := do
  let found ← args.mapM (w.expandOne includeTests)
  return (found.flatten.mergeSort Path.le).eraseRepsBy Path.same

end NilGuard.Workspace
