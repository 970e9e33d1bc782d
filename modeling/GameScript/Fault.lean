import GameScript.Branch

/-!
# Faults

A fault is a broken invariant of the compiler or an impossible return word. Problems of a script are
never faults: they are reported as diagnostics.
-/

namespace GameScript

/-- What broke. -/
inductive Fault where
  /-- The low byte of a return word names no conditional. -/
  | unknownConditional (word : UInt32) (byte : Nat)
  /-- The high byte of a return word names no return type. -/
  | unknownReturnType (word : UInt32) (byte : Nat)
  /-- The return type of a return word is not the one of its conditional. -/
  | mismatchedReturnType (word : UInt32) (found : ReturnType) (conditional : Conditional)
  /-- A walk was advanced after its last node. -/
  | walkExhausted
  /-- A shorthand has no place in the tree. -/
  | detachedShorthand (line : Nat)
  /-- A jump leads nowhere although no problem was reported. -/
  | missingTarget (line : Nat)
  /-- A jump target has no index although no problem was reported. -/
  | missingDestination (line : Nat)
  /-- An assigned variable has no number although no problem was reported. -/
  | missingVariable (line : Nat)
  deriving DecidableEq, Repr

namespace Fault

def hex8 (w : UInt32) : String :=
  let digits := Nat.toDigits 16 w.toNat
  "0x" ++ String.ofList (List.replicate (8 - digits.length) '0' ++ digits)

/-- The text of a fault. -/
def message : Fault → String
  | .unknownConditional word byte =>
    "return value " ++ hex8 word ++ " has unknown conditional " ++ toString byte
  | .unknownReturnType word byte =>
    "return value " ++ hex8 word ++ " has unknown return type " ++ toString byte
  | .mismatchedReturnType word found conditional =>
    "return value " ++ hex8 word ++ " pairs " ++ found.title ++ " with " ++ conditional.title
  | .walkExhausted => "tree iterator advanced past the last node"
  | .detachedShorthand line => "macro on line " ++ toString line ++ " is detached from the tree"
  | .missingTarget line => "no jump target for line " ++ toString line
  | .missingDestination line => "line " ++ toString line ++ " was linked without a destination"
  | .missingVariable line => "assignment on line " ++ toString line ++ " has no variable id"

end Fault

end GameScript
