import Std.Data.TreeMap
import GameScript.Command.Json
import GameScript.CommandLine.Arguments
import GameScript.Failure
import GameScript.Grammar.Json
import GameScript.Json.Writer

/-!
# Running the commands

Carries out what the command line asks for and says what to print. The exit code is 0 for success, 1
for scripts with diagnostics and for failures, and 2 for arguments that make no sense.
-/

namespace GameScript.CommandLine

/-- What a run of the program came to. -/
structure Outcome where
  exitCode : Nat
  /-- For the standard output. -/
  output : String
  /-- For the standard error output. -/
  notice : String := ""
  deriving DecidableEq, Repr

/-- How to use the program. -/
def usage : String :=
  Text.unlines
    ["MSCI script compiler and formatter",
      "",
      "Usage: msci compile (--script <PATH> | --scripts-dir <PATH>) [--game-version <VERSION>]",
      "                    [--syntax <PATH>] [--objects <PATH>] [--argument <NAME>]... [--json]",
      "       msci format --script <PATH> [--indent <WIDTH>] [--write] [--game-version <VERSION>]",
      "                   [--syntax <PATH>]",
      ""]

def printed (ls : List String) : String := String.join (ls.map (· ++ "\n"))

def failureReport (f : Failure) : String :=
  printed ["RESULT:ERROR", "ERROR_CODE:" ++ f.code,
    "ERROR_MSG_JSON:" ++ (Json.str f.message).render]

def failed (before : String) (f : Failure) : Outcome :=
  { exitCode := 1, output := before ++ failureReport f }

def textReport (name : String) (o : Output) : String :=
  printed <|
    ["SCRIPT:" ++ name, if o.isSuccessful then "RESULT:OK" else "RESULT:ERROR",
      "STANDARD_COUNT:" ++ toString o.standardCount] ++
    o.log.toList.map fun d => "ERROR:" ++ toString d.line ++ ":" ++ d.code ++ ":" ++ d.message

def jsonReport (name : String) (o : Output) : String :=
  printed [(Json.obj ([("script", .str name), ("successful", .bool o.isSuccessful)] ++
    o.fields)).render]

/-- Compile scripts one after the other. A fault ends the run, what was printed before it stays. -/
def compileAll (e : Setting) (json : Bool) : List (String × String) → Outcome → Outcome
  | [], done => done
  | (name, source) :: rest, done =>
    match Source.compile e source with
    | .error f => failed done.output (.fault f)
    | .ok o =>
      compileAll e json rest
        { exitCode := if o.isSuccessful then done.exitCode else 1
          output := done.output ++ (if json then jsonReport name o else textReport name o) }

/-! ### Reading -/

section

variable {m : Type → Type} [Monad m] [Storage m]

/-- The command table at a path, or the built-in one. -/
def loadGrammar : Option String → ExceptT Failure m Grammar
  | none => return .builtin
  | some path => do
    match ← Storage.read (m := m) path with
    | .error e => throw (.grammarAccess path e)
    | .ok text =>
      match Grammar.ofJson text with
      | .ok g => return g
      | .error e => throw (.grammarInvalid path e)

/-- The object library at a path. -/
def loadObjects : Option String → ExceptT Failure m (Option ObjectLibrary)
  | none => return none
  | some path => do
    match ← Storage.read (m := m) path with
    | .error e => throw (.objectsAccess path e)
    | .ok text =>
      match ObjectLibrary.parse? text with
      | some l => return some l
      | none => throw (.objectsInvalid path)

def locateScript (path : String) : ExceptT Failure m String := do
  let path := Path.join (← Storage.currentFolder (m := m)) path
  match ← Storage.kind? (m := m) path with
  | none => throw (.scriptMissing path)
  | some .folder => throw (.scriptNotFile path)
  | some .file => return path

def locateFolder (path : String) : ExceptT Failure m String := do
  let path := Path.join (← Storage.currentFolder (m := m)) path
  match ← Storage.kind? (m := m) path with
  | none => throw (.folderMissing path)
  | some .file => throw (.folderNotFolder path)
  | some .folder => return path

def loadScript (path : String) : ExceptT Failure m String := do
  match ← Storage.read (m := m) path with
  | .ok source => return source
  | .error e => throw (.scriptAccess e)

def scriptEnding : String := ".msci"

def scriptName (path : String) : String :=
  String.ofList (path.toList.map fun c => if c = '\\' then '/' else c)

/-- The scripts in a folder, sorted by name. -/
def loadFolder (folder : String) : ExceptT Failure m (List (String × String)) := do
  let paths := (← Storage.files (m := m) folder).filter fun path =>
    scriptEnding.toList.isSuffixOf path.toList
  let scripts ← paths.foldlM
    (fun (scripts : Std.TreeMap String String) path => do
      return scripts.insert (scriptName path) (← loadScript (Path.join folder path)))
    ∅
  if scripts.isEmpty then throw (.folderEmpty folder)
  return scripts.toList

def loadSelection : Selection → ExceptT Failure m (List (String × String))
  | .script path => do
    let path ← locateScript path
    return [(Path.fileName path, ← loadScript path)]
  | .folder path => do loadFolder (← locateFolder path)

/-! ### Commands -/

def runCompile (r : CompileRequest) : ExceptT Failure m Outcome := do
  let grammar ← loadGrammar r.grammar
  let objects ← loadObjects r.objects
  let scripts ← loadSelection r.selection
  return compileAll { grammar, version := r.version, arguments := r.arguments, objects }
    r.json scripts { exitCode := 0, output := "" }

/-- A text with a line feed at its end, unless it is empty. -/
def endLine (text : String) : String :=
  match text.toList.getLast? with
  | none | some '\n' => text
  | some _ => text ++ "\n"

/-- Carry out `format`. -/
def runFormat (r : FormatRequest) : ExceptT Failure m Outcome := do
  let grammar ← loadGrammar r.grammar
  let path ← locateScript r.script
  let source ← loadScript path
  let text := Source.format grammar r.version r.indent source
  if !r.write then return { exitCode := 0, output := endLine text }
  else if text == source then
    return { exitCode := 0, output := printed ["RESULT:OK", "UNCHANGED:" ++ path] }
  else
    match ← Storage.write (m := m) path text with
    | .ok () => return { exitCode := 0, output := printed ["RESULT:OK", "WROTE:" ++ path] }
    | .error e => return failed (printed ["RESULT:OK"]) (.scriptWrite e)

def perform : Request → ExceptT Failure m Outcome
  | .help => return { exitCode := 0, output := usage }
  | .compile r => runCompile r
  | .format r => runFormat r

/-- Run the program with these arguments. -/
def run (args : List String) : m Outcome := do
  match parse? args with
  | none => return { exitCode := 2, output := "", notice := usage }
  | some request =>
    match ← (perform request).run with
    | .ok outcome => return outcome
    | .error f => return failed "" f

end

end GameScript.CommandLine
