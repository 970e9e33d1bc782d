import GameScript.CommandLine.Run

/-!
# The program

Runs the command line on the files of the disk.
-/

namespace GameScript.Main

def accessError : IO.Error → AccessError
  | .noFileOrDirectory .. => .missing
  | e => .refused (toString e)

def attempt {α : Type} (action : IO α) : IO (Except AccessError α) := do
  try return .ok (← action) catch e => return .error (accessError e)

/-- What stands at a path. -/
def kind? (path : String) : IO (Option EntryKind) := do
  try
    let found ← IO.FS.realPath path
    if ← found.isDir then return some .folder
    else if ← found.pathExists then return some .file
    else return none
  catch _ => return none

/-- The text of a file. -/
def read (path : String) : IO (Except AccessError String) := do
  if (← kind? path) = some .folder then return .error .isFolder
  match ← attempt (IO.FS.readBinFile path) with
  | .error e => return .error e
  | .ok bytes =>
    match String.fromUTF8? bytes with
    | some text => return .ok text
    | none => return .error .notText

def files (folder : String) : IO (List String) := do
  let top ← IO.FS.realPath folder
  let found ← (← top.walkDir).filterM fun path => return !(← path.isDir)
  return found.toList.map fun path =>
    String.ofList (path.toString.toList.drop (top.toString.length + 1))

instance : Storage IO where
  currentFolder := return (← IO.currentDir).toString
  kind? := kind?
  read := read
  write path text := attempt (IO.FS.writeFile path text)
  files := files

end GameScript.Main

def main (args : List String) : IO UInt32 := do
  let outcome ← (GameScript.CommandLine.run args : IO GameScript.CommandLine.Outcome)
  IO.print outcome.output
  IO.eprint outcome.notice
  return UInt32.ofNat outcome.exitCode
