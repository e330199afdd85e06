import KeepTree.Command.Perform

/-!
# Directories

A directory of files in memory, on which commands can be performed one after the other. There are
directories above it, which cannot be read or written, and nothing below it: a path is a file name,
perhaps after steps to the directory itself.
-/

namespace KeepTree

/-- Texts by file name. -/
abbrev Directory := Dictionary String String

/-- Where a path leads. -/
inductive Destination where
  /-- To the directory itself, or to one above it. -/
  | directory
  | file (name : String)
  /-- Where nothing is, and nothing can be put. -/
  | nowhere

namespace Destination

/-- The most bytes that a path can have. -/
def maxPathBytes : Nat := 4095

/-- The most bytes that a file name can have. -/
def maxNameBytes : Nat := 255

/-- The names on a path, without those that stay where they are. -/
def namesOn (path : String) : List String :=
  (path.splitOn "/").filter fun name => name != "" && name != "."

/-- A path that can only lead to a file: it does not start at the top, nor end at a directory. -/
def isForFile (path : String) : Bool :=
  !(path.startsWith "/" || path.endsWith "/" || path.endsWith "/.")

/-- Where a path leads. -/
def of (path : String) : Destination :=
  if path.isEmpty || maxPathBytes < path.utf8ByteSize then .nowhere
  else
    let names := namesOn path
    if names.all (· == "..") then .directory
    else
      match names with
      | [name] =>
        if isForFile path && name.utf8ByteSize ≤ maxNameBytes then .file name else .nowhere
      | _ => .nowhere

end Destination

namespace Directory

/-- What is found at a path. -/
def lookAt (d : Directory) (path : String) : FileContent :=
  match Destination.of path with
  | .directory => .unreadable
  | .nowhere => .missing
  | .file name =>
    match d.get? name with
    | some text => .text text
    | none => .missing

/-- Save a text at a path, if it leads to a file. -/
def save? (d : Directory) (saving : Saving) : Option Directory :=
  match Destination.of saving.path with
  | .file name => some (d.insert name saving.text)
  | _ => none

/-- Perform a command, and save what it leaves behind. -/
def perform (d : Directory) (command : Command) : Report × Directory :=
  let report := command.perform d.lookAt
  match report.result with
  | .ok (some saving) =>
    match d.save? saving with
    | some d => (report, d)
    | none => ({ report with result := .error (.unwritableState saving.path) }, d)
  | _ => (report, d)

end Directory

end KeepTree
