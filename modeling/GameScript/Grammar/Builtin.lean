import GameScript.Grammar

/-!
# The built-in grammar

The commands that the compiler knows without a table of its own. Numbers up to 99 are reserved for
the commands that the compiler gives a meaning to.
-/

namespace GameScript.Grammar

def common (group : String) (id : FormId) (template : String) (kinds : List ParamKind) : Form :=
  { Form.simple id template kinds with group := some group }

def dated (versions : List Version) (group : String) (id : FormId) (template : String)
    (kinds : List ParamKind) : Form :=
  { common group id template kinds with versions := versions }

/-- The forms of the built-in grammar. -/
def builtinForms : List Form := [
  common "structure" 0 "" [],
  common "structure" 1 "" [],
  common "flow" 2 "end" [],
  common "flow" 3 "else" [],
  common "flow" 4 "break" [],
  common "flow" 5 "continue" [],
  common "flow" 6 "" [],
  common "flow" 7 "$0" [.labelName],
  common "flow" 8 "goto label $0" [.labelName],
  common "flow" 9 "gosub $0" [.labelName],
  common "flow" 10 "endsub" [],
  common "flow" 11 "return $0" [.value],
  common "general" 12 "$0 $1" [.retVarIf, .expression],
  common "general" 13 "inc $0 =" [.var],
  common "general" 14 "dec $0 =" [.var],
  common "arrays" 15 "$0 array alloc: size=$1" [.retVar, .number],
  common "arrays" 16 "$0 size of array $1" [.retVarIf, .var],
  common "arrays" 17 "$0 $1[$2]" [.retVarIf, .var, .value],
  common "arrays" 18 "$0[$1] = $2" [.var, .value, .value],
  common "macros" 19 "dim $0 = $1" [.var, .valueList],
  common "macros" 20 "for $0 = $1 to $2" [.var, .number, .number],
  common "macros" 21 "for $0 = $1 to $2 step $3" [.var, .number, .number, .number],
  common "macros" 22 "for each $0 in array $1" [.var, .var],
  common "macros" 23 "for each $0 in array $1 using counter $2" [.var, .var, .var],
  common "logbook" 100 "write to player logbook $0" [.value],
  common "general" 101 "$0 wait $1 ms" [.retVar, .number],
  common "player" 102 "$0 get player ship" [.retVarIf],
  common "objects" 103 "$0 $1 -> get sector" [.retVarIf, .value],
  common "objects" 104 "$0 $1 -> get name" [.retVarIf, .value],
  common "objects" 105 "$0 -> set name to $1" [.value, .value],
  common "ships" 106 "$0 $1 -> is docked" [.retVarIf, .value],
  common "general" 107 "$0 random value from zero to $1 - 1" [.retVar, .number],
  common "scripts" 108 "$0 $1 -> call script $2" [.retVarIfStart, .value, .string],
  common "objects" 109 "$0 $1 -> get owner race" [.retVarIf, .value],
  common "objects" 110 "$0 -> set owner race to $1" [.value, .gameObject],
  common "logbook" 111 "send incoming message $0 to player: display it=$1" [.value, .number],
  common "universe" 112 "$0 find ship: sector=$1 class or type=$2" [.retVarIf, .value, .gameObject],
  common "objects" 113 "$0 $1 -> get true owner" [.retVarIf, .value],
  common "scripts" 114 "$0 get script priority" [.retVar],
  common "objects" 115 "$0 $1 -> is of class $2" [.retVarIf, .value, .gameObject],
  common "universe" 116 "$0 create ship: type=$1 owner=$2 addto=$3 x=$4 y=$5 z=$6"
    [.retVar, .gameObject, .gameObject, .value, .number, .number, .number],
  common "objects" 117 "$0 -> destruct: show no explosion=$1" [.value, .number],
  common "universe" 118 "$0 get sector from universe index: x=$1, y=$2"
    [.retVarIf, .number, .number],
  common "text" 119 "$0 read text: page=$1 id=$2" [.retVarIf, .number, .number],
  common "ships" 120 "$0 $1 -> fly to sector $2" [.retVarIf, .value, .value],
  dated [.terranConflict, .albionPrelude] "ships" 121 "$0 $1 -> get max upgrades for upgrade $2"
    [.retVarIf, .value, .gameObject],
  dated [.threat, .reunion] "ships" 121 "$0 $1 -> get maximum upgrades for upgrade $2"
    [.retVarIf, .value, .gameObject],
  dated [.terranConflict, .albionPrelude] "objects" 122 "$0 $1 -> get distance to $2"
    [.retVarIf, .value, .value],
  common "objects" 123 "$0 -> set relation against $1 to $2" [.value, .gameObject, .scriptObject],
  common "player" 124 "$0 $1 -> get money" [.retVarIf, .value],
  common "player" 125 "$0 get player money" [.retVarIf]]

def builtin : Grammar := ofForms builtinForms

/-- Forms together with the reserved ones that they do not define. -/
def withReserved (forms : List Form) : List Form :=
  forms ++ builtinForms.filter fun f =>
    f.id ≤ FormId.lastReserved && !(forms.any fun g => g.id == f.id)

end GameScript.Grammar
