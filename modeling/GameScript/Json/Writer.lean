import GameScript.Json

/-!
# Writing JSON text

`Json.render` writes a document without blanks: members in their order, non-ASCII characters as they
are, control characters as the short escapes or as `\u00xx` in lower case.
-/

namespace GameScript.Json

def hexDigit (n : Nat) : Char :=
  if n < 10 then Char.ofNat ('0'.toNat + n) else Char.ofNat ('a'.toNat + (n - 10))

/-- How a character is written inside a string. -/
def escapeChar (c : Char) : List Char :=
  if c = '"' then ['\\', '"']
  else if c = '\\' then ['\\', '\\']
  else if c = '\x08' then ['\\', 'b']
  else if c = '\x0c' then ['\\', 'f']
  else if c = '\n' then ['\\', 'n']
  else if c = '\r' then ['\\', 'r']
  else if c = '\t' then ['\\', 't']
  else if c.toNat < 0x20 then ['\\', 'u', '0', '0', hexDigit (c.toNat / 16),
    hexDigit (c.toNat % 16)]
  else [c]

def quote (s : String) : String := "\"" ++ String.ofList (s.toList.flatMap escapeChar) ++ "\""

mutual

/-- Append a document to `out`. -/
def write (out : String) : Json → String
  | .null => out ++ "null"
  | .bool true => out ++ "true"
  | .bool false => out ++ "false"
  | .int n => out ++ toString n
  | .decimal literal => out ++ literal
  | .str s => out ++ quote s
  | .illFormed => out ++ "null"
  | .arr [] => out ++ "[]"
  | .arr (item :: items) => writeItems (write (out ++ "[") item) items
  | .obj [] => out ++ "\x7b\x7d"
  | .obj ((name, item) :: members) =>
    writeMembers (write (out ++ "\x7b" ++ quote name ++ ":") item) members

def writeItems (out : String) : List Json → String
  | [] => out ++ "]"
  | item :: items => writeItems (write (out ++ ",") item) items

def writeMembers (out : String) : List (String × Json) → String
  | [] => out ++ "\x7d"
  | (name, item) :: members => writeMembers (write (out ++ "," ++ quote name ++ ":") item) members

end

def render (j : Json) : String := write "" j

end GameScript.Json
