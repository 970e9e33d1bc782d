import GameScript.Json

/-!
# Records in JSON

A record is written as an object with its fields in any order, or as an array with its fields in the
declared order. Members that are no field of the record are ignored; a field may not be repeated,
and an array may not hold more than the declared fields.
-/

namespace GameScript.Json

structure Record where
  /-- The fields that were given. -/
  fields : List (String × Json)
  /-- Whether they were given in order, as an array. -/
  positional : Bool

def noRepeats : List String → Bool
  | [] => true
  | name :: names => !names.contains name && noRepeats names

def record? (names : List String) : Json → Option Record
  | .obj members =>
    let known := members.filter fun m => names.contains m.1
    if noRepeats (known.map (·.1)) then some ⟨known, false⟩ else none
  | .arr items => if items.length ≤ names.length then some ⟨names.zip items, true⟩ else none
  | _ => none

namespace Record

variable {α : Type}

def required (r : Record) (name : String) (read : Json → Option α) : Option α :=
  (r.fields.lookup name).bind read

/-- A field with a value to fall back on when it is not given. -/
def orElse (r : Record) (name : String) (fallback : α) (read : Json → Option α) : Option α :=
  match r.fields.lookup name with
  | none => some fallback
  | some j => read j

/-- A field whose value may be `null`. An object may leave it out, an array may not. -/
def optional (r : Record) (name : String) (read : Json → Option α) : Option (Option α) :=
  match r.fields.lookup name with
  | none => if r.positional then none else some none
  | some j => asOption? read j

end Record

end GameScript.Json
