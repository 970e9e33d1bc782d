import GameScript.Command.Json
import GameScript.Grammar.Json
import GameScript.Json.Writer

/-!
# Test cases

A test case names a script and says what compiling it should give. What a case leaves out is not
checked, the diagnostics excepted: they must be exactly the expected ones.
-/

namespace GameScript

namespace TestCase

structure Finding where
  line : Nat
  code : String
  deriving DecidableEq, Repr

namespace Finding

def of (d : Diagnostic) : Finding := ⟨d.line, d.code⟩

def le (a b : Finding) : Bool := a.line < b.line || (a.line == b.line && !(b.code < a.code))

def toJson (f : Finding) : Json := .obj [("line", .nat f.line), ("code", .str f.code)]

def ofJson? (j : Json) : Option Finding := do
  let r ← j.record? ["line", "code"]
  return ⟨← r.required "line" (Json.asNat? UInt64.size), ← r.required "code" Json.asString?⟩

end Finding

structure Sighting where
  index : UInt16
  text : String
  /-- Where the command may jump to. -/
  destination : Option UInt16
  deriving DecidableEq, Repr

namespace Sighting

/-- What is seen of a command. Only commands with an index are seen. -/
def of? (c : Command) : Option Sighting := c.index.map fun index => ⟨index, c.text, c.destination?⟩

/-- A sighting as JSON. A missing destination is left out. -/
def toJson (s : Sighting) : Json :=
  .obj <| [("index", .word s.index), ("text", .str s.text)] ++
    (s.destination.map fun d => ("destination", .word d)).toList

def ofJson? (j : Json) : Option Sighting := do
  let r ← j.record? ["index", "text", "destination"]
  return ⟨← r.required "index" Json.asWord?, ← r.required "text" Json.asString?,
    ← r.orElse "destination" none (Json.asOption? Json.asWord?)⟩

/-- A command is what a case expects. Without a destination, any will do. -/
def admits (expected actual : Sighting) : Bool :=
  expected.text == actual.text && (expected.destination.isNone ||
    expected.destination == actual.destination)

end Sighting

end TestCase

/-- A script and what is expected of it. -/
structure TestCase where
  schema : String
  /-- The path of the script, from the folder of the case. -/
  script : String
  version : Version
  arguments : List String
  objects : Option ObjectLibrary
  findings : List TestCase.Finding
  standardCount : Option Nat
  commands : List TestCase.Sighting
  /-- The lines of the script, printed back. -/
  rendering : Option (List String)

namespace TestCase

def schemaName : String := "msci-tool-case.v1"

def defaultScript : String := "script.msci"

def fieldNames : List String :=
  ["schemaVersion", "script", "gameVersion", "arguments", "objectLibrary", "expectedErrors",
    "expectedStandardCount", "expectedCommands", "expectedRendering"]

/-- The case that JSON describes. -/
def ofJson? (j : Json) : Option TestCase := do
  let r ← j.record? fieldNames
  let texts := Json.asList? Json.asString?
  return { schema := ← r.required "schemaVersion" Json.asString?,
           script := ← r.orElse "script" defaultScript Json.asString?,
           version := ← r.orElse "gameVersion" default Version.ofJson?,
           arguments := ← r.orElse "arguments" [] texts,
           objects := ← r.orElse "objectLibrary" none (Json.asOption? ObjectLibrary.ofJson?),
           findings := ← r.orElse "expectedErrors" [] (Json.asList? Finding.ofJson?),
           standardCount :=
             ← r.orElse "expectedStandardCount" none (Json.asOption? (Json.asNat? UInt64.size)),
           commands := ← r.orElse "expectedCommands" [] (Json.asList? Sighting.ofJson?),
           rendering := ← r.orElse "expectedRendering" none (Json.asOption? texts) }

/-- A case as JSON. -/
def toJson (c : TestCase) : Json :=
  .obj [("schemaVersion", .str c.schema), ("script", .str c.script),
    ("gameVersion", .str c.version.name), ("arguments", .ofList .str c.arguments),
    ("objectLibrary", .ofOption ObjectLibrary.toJson c.objects),
    ("expectedErrors", .ofList Finding.toJson c.findings),
    ("expectedStandardCount", .ofOption .nat c.standardCount),
    ("expectedCommands", .ofList Sighting.toJson c.commands),
    ("expectedRendering", .ofOption (.ofList .str) c.rendering)]

def setting (c : TestCase) : Setting :=
  { grammar := .builtin, version := c.version, arguments := c.arguments, objects := c.objects }

end TestCase

end GameScript
