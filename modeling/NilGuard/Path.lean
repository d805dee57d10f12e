/-!
Paths as they are written. Two paths are the same when their components are: repeated slashes do not
count, and a dot counts only in front.
-/

namespace NilGuard.Path

/-- One step along a path. -/
inductive Component where
  | root
  /-- The directory one is in. -/
  | here
  /-- The directory above. -/
  | up
  | name (text : String)
  deriving DecidableEq, Repr

namespace Component

def ofText : String → Component
  | "" | "." => .here
  | ".." => .up
  | s => .name s

def rank : Component → Nat
  | .root => 0
  | .here => 1
  | .up => 2
  | .name _ => 3

/-- Names come last and in the order of their texts. -/
def lt : Component → Component → Bool
  | .name s, .name t => s < t
  | a, b => a.rank < b.rank

end Component

/-- Every step of a path. An empty path has none. -/
def steps (path : String) : List Component :=
  match path.toList.splitOn '/' with
  | [] | [[]] => []
  | [] :: rest => .root :: rest.map (Component.ofText ∘ String.ofList)
  | parts => parts.map (Component.ofText ∘ String.ofList)

/-- The steps of a path that tell it from others. -/
def components (path : String) : List Component :=
  match steps path with
  | [] => []
  | first :: rest => first :: rest.filter (· ≠ .here)

/-- Whether a path comes no later than another. -/
def le (a b : String) : Bool :=
  !(components b).lex (components a) Component.lt

/-- Whether two paths are the same. -/
def same (a b : String) : Bool :=
  components a = components b

/-- The path of something inside a directory. -/
def join (dir name : String) : String :=
  if dir.isEmpty || dir.toList.getLast? = some '/' then dir ++ name else dir ++ "/" ++ name

end NilGuard.Path
