import GameScript.Compile
import GameScript.Json.Record

/-!
# Commands and reports in JSON
-/

namespace GameScript

def Json.asWord? (j : Json) : Option UInt16 := (j.asNat? UInt16.size).map UInt16.ofNat

def Json.word (w : UInt16) : Json := .nat w.toNat

namespace ReturnValue

def toJson (v : ReturnValue) : Json :=
  .obj [("returnType", .str v.returnType.name), ("destination", .word v.destination),
    ("conditional", .str v.conditional.name)]

def ofJson? (j : Json) : Option ReturnValue := do
  let r ← j.record? ["returnType", "destination", "conditional"]
  return { returnType := ← r.required "returnType" fun j => j.asVariant?.bind ReturnType.ofName?,
           destination := ← r.required "destination" Json.asWord?,
           conditional :=
             ← r.required "conditional" fun j => j.asVariant?.bind Conditional.ofName? }

end ReturnValue

namespace Command

/-- A command as JSON. An empty expression is left out. -/
def toJson (c : Command) : Json :=
  .obj <|
    [("syntaxId", .nat c.form), ("lineNumber", .nat c.line), ("text", .str c.text),
      ("parameters", .ofList .str c.parameters)] ++
    (if c.evalOrder.isEmpty then [] else [("postfix", .ofList .str c.evalOrder)]) ++
    [("branchLogic", .str c.role.name), ("commandType", .str c.kind.name),
      ("origin", .str c.origin.name), ("commented", .bool c.commented),
      ("index", .ofOption .word c.index),
      ("reference", .ofOption .word c.reference),
      ("returnValue", .ofOption ReturnValue.toJson c.returnValue),
      ("jumpDestination", .ofOption .word c.jump)]

def fieldNames : List String :=
  ["syntaxId", "lineNumber", "text", "parameters", "postfix", "branchLogic", "commandType",
    "origin", "commented", "index", "reference", "returnValue", "jumpDestination"]

/-- The command that JSON describes. -/
def ofJson? (j : Json) : Option Command := do
  let r ← j.record? fieldNames
  let texts := Json.asList? Json.asString?
  return { form := ← r.required "syntaxId" (Json.asNat? UInt32.size),
           line := ← r.required "lineNumber" (Json.asNat? UInt64.size),
           text := ← r.required "text" Json.asString?,
           parameters := ← r.required "parameters" texts,
           evalOrder := ← r.orElse "postfix" [] texts,
           role := ← r.required "branchLogic" fun j => j.asVariant?.bind Role.ofName?,
           kind := ← r.required "commandType" fun j => j.asVariant?.bind CommandKind.ofName?,
           origin := ← r.required "origin" fun j => j.asVariant?.bind Origin.ofName?,
           commented := ← r.required "commented" Json.asBool?,
           index := ← r.optional "index" Json.asWord?,
           reference := ← r.optional "reference" Json.asWord?,
           returnValue := ← r.optional "returnValue" ReturnValue.ofJson?,
           jump := ← r.optional "jumpDestination" Json.asWord? }

end Command

def Diagnostic.toJson (d : Diagnostic) : Json :=
  .obj [("code", .str d.code), ("line", .nat d.line), ("message", .str d.message),
    ("text", .str d.text)]

def Symbol.toJson (s : Symbol) : Json :=
  .obj [("name", .str s.name), ("id", .word s.id), ("kind", .str s.kind.name)]

def Output.fields (o : Output) : List (String × Json) :=
  [("commands", .ofList Command.toJson o.commands.toList),
    ("errors", .ofList Diagnostic.toJson o.log.toList),
    ("symbols", .ofList Symbol.toJson o.symbols), ("standardCount", .nat o.standardCount)]

end GameScript
