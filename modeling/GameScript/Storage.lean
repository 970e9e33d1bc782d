/-!
# Storage

What the tools need from the place where scripts are kept: to look at a path, to read and write
texts and to list a folder. The tools are written against the class `Storage`, so that they run on a
disk as well as on files in memory.

A path is text, with `/` between its parts. Paths are joined and shown as they are given, and never
tidied up.
-/

namespace GameScript

inductive EntryKind where
  | file
  | folder
  deriving DecidableEq, Repr

/-- Why a file cannot be read or written. -/
inductive AccessError where
  /-- Nothing stands at the path. -/
  | missing
  /-- The path goes on after a file. -/
  | notFolder
  /-- A folder stands at the path. -/
  | isFolder
  /-- The bytes of the file are no text. -/
  | notText
  /-- The storage refused for a reason of its own. -/
  | refused (reason : String)
  deriving DecidableEq, Repr

def AccessError.message : AccessError → String
  | .missing => "No such file or directory (os error 2)"
  | .notFolder => "Not a directory (os error 20)"
  | .isFolder => "Is a directory (os error 21)"
  | .notText => "stream did not contain valid UTF-8"
  | .refused reason => reason

/-- A place with files and folders. A relative path starts at the current folder. -/
class Storage (m : Type → Type) where
  /-- The path of the current folder. -/
  currentFolder : m String
  /-- What stands at a path. -/
  kind? : String → m (Option EntryKind)
  /-- The text of a file. -/
  read : String → m (Except AccessError String)
  /-- Replace the text of a file. -/
  write : String → String → m (Except AccessError Unit)
  /-- The files in a folder and the folders below it, by their paths from there. -/
  files : String → m (List String)

namespace Path

def isAbsolute (path : String) : Bool := path.toList.head? = some '/'

/-- Go on from a folder. An absolute path stays as it is. -/
def join (folder path : String) : String :=
  if isAbsolute path then path
  else if folder.toList.getLast? = some '/' then folder ++ path
  else folder ++ "/" ++ path

/-- Cut characters at slashes; `part` holds those of the current part, last one first. -/
def cutParts : List Char → List Char → List String
  | [], part => [String.ofList part.reverse]
  | '/' :: cs, part => String.ofList part.reverse :: cutParts cs []
  | c :: cs, part => cutParts cs (c :: part)

/-- The parts of a path. Slashes next to each other have an empty part between them. -/
def parts (path : String) : List String := cutParts path.toList []

def fileName (path : String) : String := (parts path).getLast?.getD path

end Path

end GameScript
