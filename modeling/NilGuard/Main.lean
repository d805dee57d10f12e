import NilGuard.CommandLine

/-!
The program. It takes the files that a command needs into a workspace, runs the command there, and
writes the files that the command changed. A directory is known by the files in it, and their paths
are read from standard input, one on each line.
-/

namespace NilGuard.Program

/-- The address of a path, whether something is there or not. -/
def addressOf (current : Address) (path : String) : Address :=
  (Path.components path).foldl (fun a c => match c with
    | .root => []
    | .here => a
    | .up => a.dropLast
    | .name s => a ++ [s]) current

/-- The path of an address. -/
def pathOf (a : Address) : String :=
  "/" ++ "/".intercalate a

/-- The content of a file, if it can be read. -/
def contentOf? (a : Address) : IO (Option ByteArray) := do
  try return some (← IO.FS.readBinFile (pathOf a)) catch _ => return none

/-- Takes a file into a workspace, if it can be read. -/
def take (w : Workspace) (a : Address) : IO Workspace := do
  match ← contentOf? a with
  | some content => return w.put a content
  | none => return w

/-- The lines of standard input that are left. -/
partial def inputLines : IO (List String) := do
  let line ← (← IO.getStdin).getLine
  if line.isEmpty then return []
  return line.trimAscii.toString :: (← inputLines)

/-- The addresses where settings for a directory may stand. -/
def settingsAddresses : Nat → Address → List Address
  | 0, _ => []
  | n + 1, a => (a ++ [Workspace.settingsName]) :: settingsAddresses n a.dropLast

/-- The workspace that a command needs. -/
def gather (current : Address) (command : Command) : IO Workspace := do
  let mut w : Workspace := { dirs := [current], current }
  for a in settingsAddresses (current.length + 1) current do
    w ← take w a
  if let .check options := command then
    for path in options.paths do
      w ← take w (addressOf current path)
    if options.paths.isEmpty || options.paths.any (!w.hasFile ·) then
      for path in ← inputLines do
        w ← take w (addressOf current path)
  return w

/-- Writes the files that are not as they were. -/
def store (old new : Workspace) : IO Unit := do
  for (a, content) in new.files do
    unless old.files.lookup a == some content do
      IO.FS.writeBinFile (pathOf a) content

def usage : String :=
  "Usage: afternil check [PATHS] [--format FORMAT] [--context LINES] [--fix] [--exit-code CODE] "
    ++ "[--no-color] [--verbose]\n       afternil explain RULE\n       afternil init"

/-- Runs the command that the arguments ask for. Gives the exit code. -/
def run (args : List String) : IO UInt32 := do
  match Command.ofArgs? args with
  | none =>
    IO.eprintln usage
    return failureCode.toUInt32
  | some command =>
    let current := addressOf [] (toString (← IO.currentDir))
    let w ← gather current command
    let (outcome, new) := command.run w
    store w new
    for line in outcome.log ++ outcome.stderr do
      IO.eprintln line
    IO.print outcome.stdout
    return outcome.code.toUInt32

end NilGuard.Program

def main (args : List String) : IO UInt32 :=
  NilGuard.Program.run args
