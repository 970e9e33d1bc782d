/-!
# JSON documents

The value type shared by everything that is read from or written as JSON: command tables, object
libraries, test cases and compiler reports.

* Objects keep their members in the order written, repeated keys included, so that a reader can
  refuse a repeated field and a writer can fix the order of its fields.
* A number is an integer or a decimal literal. No number of this library has a fractional part, so
  decimals are kept as written and only ever refused.
-/

namespace GameScript

/-- A JSON document. -/
inductive Json where
  | null
  | bool (value : Bool)
  | int (value : Int)
  /-- A number literal with a fraction or an exponent, or a negative zero. -/
  | decimal (literal : String)
  | str (value : String)
  /-- A string literal that denotes no text, because an escape leaves half of a surrogate pair, or
  an object with such a literal as a key. It can be passed over, and is refused wherever it is
  read. -/
  | illFormed
  | arr (items : List Json)
  | obj (members : List (String × Json))
  deriving Inhabited

namespace Json

def nat (n : Nat) : Json := .int n

/-- A value that may be missing; `null` stands for a missing one. -/
def ofOption {α : Type} (write : α → Json) : Option α → Json
  | none => .null
  | some a => write a

def ofList {α : Type} (write : α → Json) (items : List α) : Json := .arr (items.map write)

/-! ### Reading simple values -/

def asString? : Json → Option String
  | .str s => some s
  | _ => none

def asBool? : Json → Option Bool
  | .bool b => some b
  | _ => none

def asNat? (bound : Nat) : Json → Option Nat
  | .int (.ofNat n) => if n < bound then some n else none
  | _ => none

def asList? {α : Type} (read : Json → Option α) : Json → Option (List α)
  | .arr items => items.mapM read
  | _ => none

def asOption? {α : Type} (read : Json → Option α) : Json → Option (Option α)
  | .null => some none
  | j => (read j).map some

/-- The name of a variant without payload: a string, or an object `{"Name": null}`. -/
def asVariant? : Json → Option String
  | .str s => some s
  | .obj [(name, .null)] => some name
  | _ => none

def member? (name : String) : Json → Option Json
  | .obj members => members.lookup name
  | _ => none

end Json

end GameScript
