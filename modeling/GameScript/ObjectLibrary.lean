import Std.Data.TreeSet
import GameScript.Json.Reader
import GameScript.Json.Record

/-!
# Object libraries

The names of the game objects (`{Argon}`) and script objects (`[TRUE]`) that the target game knows.
Without a library every name is accepted.
-/

namespace GameScript

structure ObjectLibrary where
  gameObjects : Std.TreeSet String := ∅
  scriptObjects : Std.TreeSet String := ∅
  deriving Inhabited

namespace ObjectLibrary

def ofLists (gameObjects scriptObjects : List String) : ObjectLibrary :=
  ⟨.ofList gameObjects, .ofList scriptObjects⟩

def hasGameObject (l : ObjectLibrary) (name : String) : Bool := l.gameObjects.contains name

def hasScriptObject (l : ObjectLibrary) (name : String) : Bool := l.scriptObjects.contains name

/-- A library in JSON: two lists of names, either of which may be left out. -/
def ofJson? (j : Json) : Option ObjectLibrary := do
  let r ← j.record? ["gameObjects", "scriptObjects"]
  let names := Json.asList? Json.asString?
  return ofLists (← r.orElse "gameObjects" [] names) (← r.orElse "scriptObjects" [] names)

def parse? (text : String) : Option ObjectLibrary := (Json.parse? text).bind ofJson?

/-- A library as JSON, each list sorted and without repeats. -/
def toJson (l : ObjectLibrary) : Json :=
  .obj [("gameObjects", .ofList .str l.gameObjects.toList),
    ("scriptObjects", .ofList .str l.scriptObjects.toList)]

end ObjectLibrary

end GameScript
