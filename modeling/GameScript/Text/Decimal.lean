/-!
# Decimal numerals

Runs of decimal digits and their values, with the bounds of the machine integers that scripts use.
-/

namespace GameScript.Text

def digitsValue (ds : List Char) : Nat := ds.foldl (fun n d => 10 * n + (d.toNat - '0'.toNat)) 0

/-- The value of a numeral: at least one digit, and nothing else. -/
def numeral? (cs : List Char) : Option Nat :=
  if cs.isEmpty || !cs.all Char.isDigit then none else some (digitsValue cs)

def boundedNumeral? (bound : Nat) (cs : List Char) : Option Nat :=
  (numeral? cs).filter (· < bound)

/-- The value of a numeral that a signed 64-bit integer can hold. -/
def numeral64? (s : String) : Option Int :=
  (boundedNumeral? 0x8000000000000000 s.toList).map Int.ofNat

/-- What a signed 64-bit integer keeps of a result. -/
def wrap64 (n : Int) : Int := n.bmod 0x10000000000000000

def fits32 (n : Int) : Bool := -0x80000000 ≤ n && n < 0x80000000

theorem wrap64_of_natAbs_lt {n : Int} (h : n.natAbs < 0x8000000000000000) : wrap64 n = n := by
  rw [wrap64, Int.bmod_eq_of_le] <;> omega

theorem wrap64_of_fits32 {n : Int} (h : fits32 n = true) : wrap64 n = n := by
  simp only [fits32, Bool.and_eq_true, decide_eq_true_eq] at h
  exact wrap64_of_natAbs_lt (by omega)

end GameScript.Text
