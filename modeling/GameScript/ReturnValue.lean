import GameScript.Fault

/-!
# Return values and return words

The engine reads a 32-bit word for every command with a return slot. From the high byte to the low
one it holds the return type, a 16-bit destination and the conditional. The destination is a command
index for jumps and a variable number for assignments.

`ReturnValue.encode` writes the word and `ReturnValue.decode` reads it back. A word is refused when
one of its bytes names nothing, or when its return type is not the one its conditional determines.
-/

namespace GameScript

/-- The destination written where none could be determined. -/
def unresolved : UInt16 := 0xFFFF

structure ReturnValue where
  returnType : ReturnType
  destination : UInt16
  conditional : Conditional
  deriving DecidableEq, Repr

namespace ReturnValue

def of (conditional : Conditional) (destination : UInt16) : ReturnValue :=
  ⟨conditional.returnType, destination, conditional⟩

def assignment (variableId : UInt16) : ReturnValue := of .assign variableId

def encode (v : ReturnValue) : UInt32 :=
  UInt32.ofNat (v.returnType.byte * 0x1000000 + v.destination.toNat * 0x100 + v.conditional.byte)

/-- The return value of a word. -/
def decode (word : UInt32) : Except Fault ReturnValue :=
  let high := word.toNat / 0x1000000
  let middle := word.toNat / 0x100 % 0x10000
  let low := word.toNat % 0x100
  match Conditional.ofByte? low with
  | none => .error (.unknownConditional word low)
  | some conditional =>
    match ReturnType.ofByte? high with
    | none => .error (.unknownReturnType word high)
    | some returnType =>
      if returnType = conditional.returnType then
        .ok ⟨returnType, UInt16.ofNat middle, conditional⟩
      else .error (.mismatchedReturnType word returnType conditional)

end ReturnValue

end GameScript
