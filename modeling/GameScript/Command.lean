import GameScript.ReturnValue

/-!
# Compiled commands

A compiled script is a list of commands in the order of execution. It holds the auxiliary commands
too, so that the script can be printed back.
-/

namespace GameScript

/-- A compiled command. -/
structure Command where
  form : Nat
  line : Nat
  text : String
  /-- In physical order. -/
  parameters : List String
  /-- The expression of the command in evaluation order. -/
  evalOrder : List String
  role : Role
  kind : CommandKind
  origin : Origin
  commented : Bool
  /-- The place among the executed commands. -/
  index : Option UInt16
  /-- For an auxiliary command, the executed command that it stands before. For a command generated
  from a shorthand, the first executed command that stands for the shorthand. -/
  reference : Option UInt16
  returnValue : Option ReturnValue
  /-- Where an unconditional jump leads. -/
  jump : Option UInt16
  deriving DecidableEq, Repr

namespace Command

def isStandard (c : Command) : Bool := c.kind == .standard

def isPrintable (c : Command) : Bool := !c.origin.isGenerated

def returnWord? (c : Command) : Option UInt32 := c.returnValue.map (·.encode)

def destination? (c : Command) : Option UInt16 :=
  match c.jump with
  | some d => some d
  | none => (c.returnValue.filter fun v => v.conditional.isJump).map (·.destination)

end Command

end GameScript
