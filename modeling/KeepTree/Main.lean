import KeepTree.Command.Perform

/-!
# The program

Reads the files that a command names, performs it, prints what it has to say and saves what it
leaves behind.
-/

namespace KeepTree

/-- What is found at a path. -/
def lookAt (path : String) : IO FileContent := do
  try
    return .text (← IO.FS.readFile path)
  catch error =>
    match error with
    | .noFileOrDirectory .. => return .missing
    | _ => return .unreadable

/-- Look at all paths beforehand. -/
def lookAtAll : List String → IO (List (String × FileContent))
  | [] => return []
  | path :: rest => do
    let content ← lookAt path
    return (path, content) :: (← lookAtAll rest)

/-- Print a fault. -/
def complain (fault : CommandFault) : IO UInt32 := do
  IO.eprintln ("Error: " ++ fault.message)
  return 1

/-- Save a text. -/
def save (saving : Saving) : IO UInt32 := do
  try
    IO.FS.writeFile saving.path saving.text
    return 0
  catch _ => complain (.unwritableState saving.path)

/-- Perform the command that arguments ask for. -/
def runCommand (arguments : List String) : IO UInt32 := do
  match Command.read arguments with
  | .error fault =>
    IO.eprintln ("error: " ++ fault.message)
    return 2
  | .ok command =>
    let found ← lookAtAll command.paths
    let report := command.perform fun path => (found.lookup path).getD .missing
    IO.print report.output
    IO.eprint report.notes
    match report.result with
    | .error fault => complain fault
    | .ok (some saving) => save saving
    | .ok none => return 0

end KeepTree

def main (arguments : List String) : IO UInt32 := KeepTree.runCommand arguments
