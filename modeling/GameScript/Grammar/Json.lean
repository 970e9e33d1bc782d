import GameScript.Grammar.Builtin
import GameScript.Json.Reader
import GameScript.Json.Record

/-!
# Grammars in JSON

A table of commands is an object with a list `syntaxes` of forms. A table that leaves out reserved
commands gets them from the built-in grammar.
-/

namespace GameScript

def Version.ofJson? (j : Json) : Option Version := j.asVariant?.bind Version.ofName?

def ParamKind.ofJson? (j : Json) : Option ParamKind := j.asVariant?.bind ParamKind.ofName?

def ParamDecl.ofJson? (j : Json) : Option ParamDecl := do
  let r ← j.record? ["type", "name"]
  return { kind := ← r.required "type" ParamKind.ofJson?,
           name := ← r.orElse "name" none (Json.asOption? Json.asString?) }

/-- A form. -/
def Form.ofJson? (j : Json) : Option Form := do
  let r ← j.record? ["id", "template", "params", "versions", "group"]
  return { id := ← r.required "id" (Json.asNat? UInt32.size),
           template := ← r.required "template" Json.asString?,
           params := ← r.orElse "params" [] (Json.asList? ParamDecl.ofJson?),
           versions := ← r.orElse "versions" [] (Json.asList? Version.ofJson?),
           group := ← r.orElse "group" none (Json.asOption? Json.asString?) }

def ParamDecl.toJson (p : ParamDecl) : Json :=
  .obj <| [("type", .str p.kind.name)] ++ (p.name.map fun n => ("name", .str n)).toList

def Form.toJson (f : Form) : Json :=
  .obj <|
    [("id", .nat f.id), ("template", .str f.template),
      ("params", .ofList ParamDecl.toJson f.params),
      ("versions", .ofList (fun v => .str v.name) f.versions)] ++
    (f.group.map fun g => ("group", .str g)).toList

namespace Grammar

def formsOfJson? (text : String) : Option (List Form) := do
  let r ← (← Json.parse? text).record? ["syntaxes"]
  r.required "syntaxes" (Json.asList? Form.ofJson?)

def ofJson (text : String) : Except Error Grammar :=
  match formsOfJson? text with
  | none => .error .unreadable
  | some forms => do
    forms.forM check
    return ofForms (withReserved forms)

end Grammar

end GameScript
