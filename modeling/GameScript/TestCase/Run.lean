import GameScript.Failure
import GameScript.TestCase.Report

/-!
# Running test cases

Reads a test case and its script from a storage, compiles the script and compares the result with
what the case expects.
-/

namespace GameScript.TestCase

/-- Why a test case failed. -/
inductive RunError where
  | access (path : String) (e : AccessError)
  /-- The file does not describe a test case. -/
  | unreadable (path : String)
  | schema (found : String)
  | scriptMissing (folder script : String)
  | failure (f : Failure)
  | mismatch (m : Mismatch)
  deriving DecidableEq, Repr

/-- The text of an error. -/
def RunError.message : RunError → String
  | .access path e => "Failed to read file " ++ path ++ ": " ++ e.message
  | .unreadable path => "Failed to parse testcase " ++ path
  | .schema found =>
    "Invalid testcase schema version \"" ++ found ++ "\", expected \"" ++ schemaName ++ "\"."
  | .scriptMissing folder script => "Script \"" ++ script ++ "\" not found under " ++ folder ++ "."
  | .failure f => "Compile error: " ++ f.display
  | .mismatch m => m.message

def parse (path text : String) : Except RunError TestCase :=
  match (Json.parse? text).bind ofJson? with
  | none => .error (.unreadable path)
  | some c => if c.schema = schemaName then .ok c else .error (.schema c.schema)

def report (c : TestCase) (source : String) : Except RunError Report :=
  match Source.compile c.setting source with
  | .ok o => .ok (.of o)
  | .error f => .error (.failure (.fault f))

variable {m : Type → Type} [Monad m] [Storage m]

def load (path : String) : m (Except RunError TestCase) := do
  match ← Storage.read path with
  | .ok text => return parse path text
  | .error e => return .error (.access path e)

/-- Read the script of a case. -/
def loadScript (folder : String) (c : TestCase) : m (Except RunError String) := do
  let path := Path.join folder c.script
  if (← Storage.kind? path) = some .file then
    match ← Storage.read path with
    | .ok source => return .ok source
    | .error e => return .error (.access path e)
  else return .error (.scriptMissing folder c.script)

def run (folder : String) (c : TestCase) : m (Except RunError Report) := do
  return (← c.loadScript folder).bind c.report

def judge (c : TestCase) (r : Report) : Except RunError Unit :=
  match c.check r with
  | .ok () => .ok ()
  | .error d => .error (.mismatch d)

def verify (folder path : String) : m (Except RunError Unit) := do
  match ← load path with
  | .error e => return .error e
  | .ok c => return (← c.run folder).bind c.judge

end GameScript.TestCase
