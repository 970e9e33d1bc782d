/-!
# Game versions

The releases of the game that a script can target, oldest first. Later releases extend the set of
commands.
-/

namespace GameScript

inductive Version where
  | threat
  | reunion
  | terranConflict
  | albionPrelude
  deriving DecidableEq, Repr

namespace Version

/-- The newest release is the default target. -/
instance : Inhabited Version := ⟨.albionPrelude⟩

def all : List Version := [.threat, .reunion, .terranConflict, .albionPrelude]

def name : Version → String
  | .threat => "Threat"
  | .reunion => "Reunion"
  | .terranConflict => "TerranConflict"
  | .albionPrelude => "AlbionPrelude"

def rank : Version → Nat
  | .threat => 0
  | .reunion => 1
  | .terranConflict => 2
  | .albionPrelude => 3

def later (v : Version) : List Version := all.filter fun w => v.rank < w.rank

def ofName? (s : String) : Option Version := all.find? fun v => v.name == s

/-- Lower the ASCII letters and leave out dashes, underscores and spaces. -/
def simplify (s : String) : String :=
  String.ofList ((s.toList.map Char.toLower).filter fun c => c != '-' && c != '_' && c != ' ')

/-- The release that a user means: its name or one of its short names, in any letter case. -/
def parse? (s : String) : Option Version :=
  let key := simplify s
  if key == "threat" || key == "x2" then some .threat
  else if key == "reunion" || key == "x3r" then some .reunion
  else if key == "terranconflict" || key == "x3tc" || key == "tc" then some .terranConflict
  else if key == "albionprelude" || key == "x3ap" || key == "ap" then some .albionPrelude
  else none

def unknownMessage (s : String) : String := "unknown game version \"" ++ s ++ "\""

end Version

end GameScript
