import GameScript.Json
import GameScript.Text.Decimal

/-!
# Reading JSON text

`Json.parse?` accepts exactly one document, with blanks around it. Numbers follow the JSON grammar
(`-0`, fractions and exponents give a `decimal`), strings refuse raw control characters, and escapes
above the basic plane come as surrogate pairs.

Nesting and sequences are bounded by a step count equal to the length of the text: every step
consumes a character.
-/

namespace GameScript.Json

def isGap (c : Char) : Bool := c == ' ' || c == '\n' || c == '\t' || c == '\r'

def skipGap (cs : List Char) : List Char := cs.dropWhile isGap

/-! ### Numbers -/

/-- The fraction of a number, if one starts here: a point and at least one digit. -/
def fraction? : List Char → Option (List Char × List Char)
  | '.' :: cs =>
    let ds := cs.takeWhile Char.isDigit
    if ds.isEmpty then none else some ('.' :: ds, cs.dropWhile Char.isDigit)
  | cs => some ([], cs)

/-- The exponent of a number, if one starts here: a mark, an optional sign and at least one
digit. -/
def exponent? (cs : List Char) : Option (List Char × List Char) :=
  let digits (mark rest : List Char) :=
    let ds := rest.takeWhile Char.isDigit
    if ds.isEmpty then none else some (mark ++ ds, rest.dropWhile Char.isDigit)
  match cs with
  | 'e' :: '+' :: r | 'E' :: '+' :: r => digits ['e', '+'] r
  | 'e' :: '-' :: r | 'E' :: '-' :: r => digits ['e', '-'] r
  | 'e' :: r | 'E' :: r => digits ['e'] r
  | r => some ([], r)

/-- The integer part of a number: `0`, or digits that do not start with `0`. -/
def integer? : List Char → Option (List Char × List Char)
  | '0' :: cs => some (['0'], cs)
  | cs =>
    let ds := cs.takeWhile Char.isDigit
    if ds.isEmpty then none else some (ds, cs.dropWhile Char.isDigit)

/-- A number without its sign. -/
def unsigned? (negative : Bool) (cs : List Char) : Option (Json × List Char) := do
  let (whole, cs) ← integer? cs
  let (frac, cs) ← fraction? cs
  let (exp, cs) ← exponent? cs
  let value := Text.digitsValue whole
  if frac.isEmpty && exp.isEmpty && !(negative && value == 0) then
    return (.int (if negative then -value else value), cs)
  let sign := if negative then ['-'] else []
  return (.decimal (String.ofList (sign ++ whole ++ frac ++ exp)), cs)

def number? : List Char → Option (Json × List Char)
  | '-' :: cs => unsigned? true cs
  | cs => unsigned? false cs

/-! ### Strings -/

def hexDigit? (c : Char) : Option Nat :=
  if '0' ≤ c ∧ c ≤ '9' then some (c.toNat - '0'.toNat)
  else if 'a' ≤ c ∧ c ≤ 'f' then some (c.toNat - 'a'.toNat + 10)
  else if 'A' ≤ c ∧ c ≤ 'F' then some (c.toNat - 'A'.toNat + 10)
  else none

def hexUnit? (a b c d : Char) : Option Nat := do
  return ((← hexDigit? a) * 16 + (← hexDigit? b)) * 256 + (← hexDigit? c) * 16 + (← hexDigit? d)

/-- The character that a one-letter escape stands for. -/
def simpleEscape? : Char → Option Char
  | '"' => some '"'
  | '\\' => some '\\'
  | '/' => some '/'
  | 'b' => some '\x08'
  | 'f' => some '\x0c'
  | 'n' => some '\n'
  | 'r' => some '\r'
  | 't' => some '\t'
  | _ => none

def isHighHalf (u : Nat) : Bool := 0xD800 ≤ u && u ≤ 0xDBFF

def isLowHalf (u : Nat) : Bool := 0xDC00 ≤ u && u ≤ 0xDFFF

/-- What was read of a string. -/
structure Gathered where
  /-- The characters, last one first. -/
  chars : List Char
  /-- The first half of a surrogate pair that still waits for its second half. -/
  half : Option Nat
  /-- Every half so far found its partner. -/
  whole : Bool

namespace Gathered

def empty : Gathered := ⟨[], none, true⟩

def push (g : Gathered) (c : Char) : Gathered := ⟨c :: g.chars, none, g.whole && g.half.isNone⟩

/-- Add a code unit that was written as an escape. -/
def pushUnit (g : Gathered) (u : Nat) : Gathered :=
  if isHighHalf u then ⟨g.chars, some u, g.whole && g.half.isNone⟩
  else if isLowHalf u then
    match g.half with
    | some h =>
      ⟨Char.ofNat (0x10000 + (h - 0xD800) * 0x400 + (u - 0xDC00)) :: g.chars, none, g.whole⟩
    | none => { g with whole := false }
  else g.push (Char.ofNat u)

def toJson (g : Gathered) : Json :=
  if g.whole && g.half.isNone then .str (String.ofList g.chars.reverse) else .illFormed

end Gathered

/-- The rest of a string after its opening quote. -/
def stringBody? : List Char → Gathered → Option (Json × List Char)
  | '"' :: cs, g => some (g.toJson, cs)
  | '\\' :: 'u' :: a :: b :: c :: d :: cs, g =>
    match hexUnit? a b c d with
    | none => none
    | some u => stringBody? cs (g.pushUnit u)
  | '\\' :: e :: cs, g =>
    match simpleEscape? e with
    | none => none
    | some c => stringBody? cs (g.push c)
  | c :: cs, g => if c.toNat < 0x20 then none else stringBody? cs (g.push c)
  | [], _ => none

/-! ### Documents -/

/-- The members of an object so far, last one first. There is no list of them once a key was
ill-formed. -/
abbrev Members := Option (List (String × Json))

def Members.add (seen : Members) (key item : Json) : Members :=
  match key with
  | .str name => seen.map ((name, item) :: ·)
  | _ => none

def Members.toJson : Members → Json
  | some seen => .obj seen.reverse
  | none => .illFormed

mutual

/-- A document at the front of `cs`. -/
def value? : Nat → List Char → Option (Json × List Char)
  | 0, _ => none
  | steps + 1, cs =>
    match skipGap cs with
    | 'n' :: 'u' :: 'l' :: 'l' :: r => some (.null, r)
    | 't' :: 'r' :: 'u' :: 'e' :: r => some (.bool true, r)
    | 'f' :: 'a' :: 'l' :: 's' :: 'e' :: r => some (.bool false, r)
    | '"' :: r => stringBody? r .empty
    | '[' :: r =>
      match skipGap r with
      | ']' :: r => some (.arr [], r)
      | r => items? steps r []
    | '{' :: r =>
      match skipGap r with
      | '}' :: r => some (.obj [], r)
      | r => members? steps r (some [])
    | r => number? r

/-- The items of an array up to its closing bracket; `seen` holds the earlier ones, last one
first. -/
def items? : Nat → List Char → List Json → Option (Json × List Char)
  | 0, _, _ => none
  | steps + 1, cs, seen =>
    match value? steps cs with
    | none => none
    | some (item, cs) =>
      match skipGap cs with
      | ',' :: r => items? steps r (item :: seen)
      | ']' :: r => some (.arr (item :: seen).reverse, r)
      | _ => none

/-- The members of an object up to its closing brace; `seen` holds the earlier ones. -/
def members? : Nat → List Char → Members → Option (Json × List Char)
  | 0, _, _ => none
  | steps + 1, cs, seen =>
    match skipGap cs with
    | '"' :: r =>
      match stringBody? r .empty with
      | none => none
      | some (key, r) =>
        match skipGap r with
        | ':' :: r =>
          match value? steps r with
          | none => none
          | some (item, r) =>
            match skipGap r with
            | ',' :: r => members? steps r (seen.add key item)
            | '}' :: r => some ((seen.add key item).toJson, r)
            | _ => none
        | _ => none
    | _ => none

end

/-- The document that `text` holds, if it holds exactly one. -/
def parse? (text : String) : Option Json :=
  let cs := text.toList
  match value? (cs.length + 1) cs with
  | some (j, rest) => if (skipGap rest).isEmpty then some j else none
  | none => none

end GameScript.Json
