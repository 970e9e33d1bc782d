import GameScript.Fault
import GameScript.Grammar
import GameScript.Storage

/-!
# Failures

Why a script could not be processed at all, for reasons that do not lie in the script. Each failure
has a code and a text.
-/

namespace GameScript

/-- What went wrong. Paths are shown as they were used. -/
inductive Failure where
  | grammarAccess (path : String) (e : AccessError)
  | grammarInvalid (path : String) (e : Grammar.Error)
  | objectsAccess (path : String) (e : AccessError)
  | objectsInvalid (path : String)
  | fault (f : Fault)
  | scriptMissing (path : String)
  | scriptNotFile (path : String)
  | folderMissing (path : String)
  | folderNotFolder (path : String)
  /-- A folder holds no scripts. -/
  | folderEmpty (path : String)
  | scriptAccess (e : AccessError)
  | scriptWrite (e : AccessError)
  deriving DecidableEq, Repr

namespace Failure

/-- The code of a failure. -/
def code : Failure → String
  | .grammarAccess .. => "API_SYNTAX_TABLE_READ"
  | .grammarInvalid .. => "API_SYNTAX_TABLE_INVALID"
  | .objectsAccess .. => "API_OBJECT_LIBRARY_READ"
  | .objectsInvalid _ => "API_OBJECT_LIBRARY_INVALID"
  | .fault _ => "API_COMPILER_FAULT"
  | .scriptMissing _ | .folderMissing _ => "CLI_SOURCE_NOT_FOUND"
  | .scriptNotFile _ => "CLI_SOURCE_NOT_FILE"
  | .folderNotFolder _ => "CLI_SOURCE_NOT_DIR"
  | .folderEmpty _ => "CLI_SOURCE_EMPTY"
  | .scriptAccess _ => "CLI_SOURCE_READ"
  | .scriptWrite _ => "CLI_SCRIPT_WRITE"

/-- The text of a failure. -/
def message : Failure → String
  | .grammarAccess path e => "failed to read syntax table " ++ path ++ ": " ++ e.message
  | .grammarInvalid path e => path ++ ": " ++ e.message
  | .objectsAccess path e => "failed to read object library " ++ path ++ ": " ++ e.message
  | .objectsInvalid path => path ++ ": Failed to parse object library"
  | .fault f => "internal compiler error: " ++ f.message
  | .scriptMissing path => "script does not exist: " ++ path
  | .scriptNotFile path => "script is not a file: " ++ path
  | .folderMissing path => "scripts-dir does not exist: " ++ path
  | .folderNotFolder path => "scripts-dir is not a directory: " ++ path
  | .folderEmpty path => "No .msci files under " ++ path
  | .scriptAccess e | .scriptWrite e => e.message

def display (f : Failure) : String := f.code ++ ": " ++ f.message

end Failure

end GameScript
