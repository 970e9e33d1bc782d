/-!
# Blank characters and trimming

A character is blank when Unicode gives it the property `White_Space`. Trimming removes blank
characters at the ends of a text and keeps those inside it.
-/

namespace GameScript.Text

/-- The characters with the Unicode property `White_Space`. -/
def isBlank (c : Char) : Bool :=
  let n := c.toNat
  (0x09 ≤ n && n ≤ 0x0D) || n == 0x20 || n == 0x85 || n == 0xA0 || n == 0x1680 ||
    (0x2000 ≤ n && n ≤ 0x200A) || n == 0x2028 || n == 0x2029 || n == 0x202F || n == 0x205F ||
    n == 0x3000

def dropLeft (p : Char → Bool) (cs : List Char) : List Char := cs.dropWhile p

def dropRight (p : Char → Bool) (cs : List Char) : List Char := (cs.reverse.dropWhile p).reverse

def trimChars (cs : List Char) : List Char := dropRight isBlank (dropLeft isBlank cs)

def trim (s : String) : String := String.ofList (trimChars s.toList)

def byteLength (cs : List Char) : Nat := cs.foldl (fun n c => n + c.utf8Size) 0

end GameScript.Text
