import GameScript.Token

/-!
# Writing tokens with canonical spacing

One space between tokens, except around brackets, before commas and after unary operators.
-/

namespace GameScript.Token

/-- No space before this token: closing brackets, commas and the bracket of an index. -/
def hugsLeft (t : Token) : Bool := t.text == ")" || t.text == "]" || t.text == "," || t.text == "["

/-- No space after this token: opening brackets and unary operators. -/
def hugsRight (t : Token) : Bool := t.text == "(" || t.text == "[" || t.kind == .unaryOp

def spacing (t u : Token) : String := if u.hugsLeft || t.hugsRight then "" else " "

/-- Tokens written with canonical spacing. -/
def join : List Token → String
  | [] => ""
  | [t] => t.text
  | t :: u :: ts => t.text ++ spacing t u ++ join (u :: ts)

end GameScript.Token
