import GameScript.Source
import GameScript.Text.Decimal

/-!
# Command line arguments

The program has two commands, `compile` and `format`, each with options of its own. An option is
written `--name value` or `--name=value`, a switch `--name`. Only `--argument` may be repeated, and
nothing but options is accepted.
-/

namespace GameScript.CommandLine

/-! ### Requests -/

inductive Selection where
  | script (path : String)
  | folder (path : String)
  deriving DecidableEq, Repr

/-- What `compile` is asked to do. -/
structure CompileRequest where
  selection : Selection
  version : Version
  /-- The path of the command table. -/
  grammar : Option String
  /-- The path of the object library. -/
  objects : Option String
  arguments : List String
  /-- Report in JSON. -/
  json : Bool
  deriving DecidableEq, Repr

/-- What `format` is asked to do. -/
structure FormatRequest where
  script : String
  indent : Nat
  /-- Write the result back instead of printing it. -/
  write : Bool
  version : Version
  /-- The path of the command table. -/
  grammar : Option String
  deriving DecidableEq, Repr

/-- What the program is asked to do. -/
inductive Request where
  | help
  | compile (r : CompileRequest)
  | format (r : FormatRequest)
  deriving DecidableEq, Repr

/-! ### Options -/

/-- An option that a command knows. -/
structure OptionDecl where
  name : String
  /-- It stands for itself and takes no value. -/
  isSwitch : Bool := false
  /-- It may be given more than once. -/
  repeatable : Bool := false
  /-- The values that it takes. -/
  accepts : String → Bool := fun _ => true

/-- The indentation that a text asks for: a numeral of 64 bits, with or without a plus sign. -/
def indentWidth? (s : String) : Option Nat :=
  match s.toList with
  | '+' :: digits => Text.boundedNumeral? UInt64.size digits
  | digits => Text.boundedNumeral? UInt64.size digits

def versionOption : OptionDecl :=
  { name := "game-version", accepts := fun s => (Version.parse? s).isSome }

def compileOptions : List OptionDecl :=
  [{ name := "script" }, { name := "scripts-dir" }, versionOption, { name := "syntax" },
    { name := "objects" }, { name := "argument", repeatable := true },
    { name := "json", isSwitch := true }]

def formatOptions : List OptionDecl :=
  [{ name := "script" }, { name := "indent", accepts := fun s => (indentWidth? s).isSome },
    { name := "write", isSwitch := true }, versionOption, { name := "syntax" }]

/-- The options that were given, with their values. -/
abbrev Given := List (String × String)

def isHelp (arg : String) : Bool := arg == "--help" || ['-', 'h'].isPrefixOf arg.toList

/-- An argument that can be the value of the option before it. A lone dash can. -/
def isValue (arg : String) : Bool := arg.toList.head? != some '-' || arg == "-"

/-- The name of an option and the value after its equals sign. -/
def splitOption (arg : String) : Option (String × Option String) :=
  match arg.toList with
  | '-' :: '-' :: cs =>
    let name := String.ofList (cs.takeWhile (· != '='))
    match cs.dropWhile (· != '=') with
    | [] => some (name, none)
    | _ :: value => some (name, some (String.ofList value))
  | _ => none

/-- What reading the options of a command came to. -/
inductive Reading where
  | options (given : Given)
  | help
  | misuse
  deriving DecidableEq, Repr

/-- An option may be given with this value, after those given before. -/
def allowed (d : OptionDecl) (value : String) (given : Given) : Bool :=
  d.accepts value && (d.repeatable || (given.lookup d.name).isNone)

/-- Read options from left to right. The first argument that is wrong or asks for help decides. -/
def readOptions (decls : List OptionDecl) : List String → Given → Reading
  | [], given => .options given
  | arg :: rest, given =>
    if arg == "--" then if rest.isEmpty then .options given else .misuse
    else if isHelp arg then .help
    else
      match splitOption arg with
      | none => .misuse
      | some (name, attached) =>
        match decls.find? fun d => d.name == name, attached with
        | none, _ => .misuse
        | some d, some value =>
          if !d.isSwitch && allowed d value given then
            readOptions decls rest (given ++ [(name, value)]) else .misuse
        | some d, none =>
          if d.isSwitch then
            if allowed d "" given then readOptions decls rest (given ++ [(name, "")]) else .misuse
          else
            match rest with
            | [] => .misuse
            | value :: rest =>
              if isValue value && allowed d value given then
                readOptions decls rest (given ++ [(name, value)])
              else .misuse

/-! ### Commands -/

def givenVersion (given : Given) : Version :=
  ((given.lookup "game-version").bind Version.parse?).getD default

/-- The request for `compile` with these options: either a script or a folder. -/
def compileRequest? (given : Given) : Option Request := do
  let selection ← match given.lookup "script", given.lookup "scripts-dir" with
    | some path, none => some (.script path)
    | none, some path => some (.folder path)
    | _, _ => none
  return .compile
    { selection
      version := givenVersion given
      grammar := given.lookup "syntax"
      objects := given.lookup "objects"
      arguments := (given.filter fun g => g.1 == "argument").map (·.2)
      json := (given.lookup "json").isSome }

/-- The request for `format` with these options. -/
def formatRequest? (given : Given) : Option Request := do
  return .format
    { script := ← given.lookup "script"
      indent := ((given.lookup "indent").bind indentWidth?).getD Source.defaultIndent
      write := (given.lookup "write").isSome
      version := givenVersion given
      grammar := given.lookup "syntax" }

def request? (build : Given → Option Request) : Reading → Option Request
  | .options given => build given
  | .help => some .help
  | .misuse => none

/-- What the arguments ask for, if they make sense. -/
def parse? : List String → Option Request
  | [] => none
  | command :: rest =>
    if isHelp command then some .help
    else if command == "help" then
      match rest with
      | [] => some .help
      | [topic] => if ["compile", "format", "help"].contains topic then some .help else none
      | _ => none
    else if command == "compile" then request? compileRequest? (readOptions compileOptions rest [])
    else if command == "format" then request? formatRequest? (readOptions formatOptions rest [])
    else none

end GameScript.CommandLine
