import GameScript.Text.Blank

/-!
# Tokens

A token is a piece of a line with its kind, its byte range and its text. The tokens of a line cover
it without gaps, blanks and the comment mark included; the significant tokens are all others.
-/

namespace GameScript

/-- The kinds of token. -/
inductive TokenKind where
  | keyword
  | var
  | label
  | number
  | string
  | text
  | binaryOp
  | unaryOp
  | null
  | gameObject
  | scriptObject
  | comment
  | blank
  deriving DecidableEq, Repr, Inhabited

namespace TokenKind

/-- The name of a kind in reports. -/
def name : TokenKind → String
  | .keyword => "keyword"
  | .var => "variable"
  | .label => "label"
  | .number => "number"
  | .string => "string"
  | .text => "text"
  | .binaryOp => "binaryOp"
  | .unaryOp => "unaryOp"
  | .null => "null"
  | .gameObject => "gameObject"
  | .scriptObject => "scriptObject"
  | .comment => "comment"
  | .blank => "whitespace"

def isSignificant : TokenKind → Bool
  | .blank | .comment => false
  | _ => true

/-- Kinds of operators, brackets and commas included. -/
def isOperator : TokenKind → Bool
  | .binaryOp | .unaryOp => true
  | _ => false

def isOperand : TokenKind → Bool
  | .var | .number | .string | .null | .gameObject | .scriptObject => true
  | _ => false

def isLiteral : TokenKind → Bool
  | .number | .string | .null | .gameObject | .scriptObject => true
  | _ => false

end TokenKind

/-- A piece of a line. -/
structure Token where
  kind : TokenKind
  /-- Byte offset of the first character. -/
  start : Nat
  /-- Byte offset after the last character. -/
  stop : Nat
  text : String
  deriving DecidableEq, Repr, Inhabited

namespace Token

/-- A token that stands in no line. -/
def detached (kind : TokenKind) (text : String) : Token := ⟨kind, 0, text.utf8ByteSize, text⟩

def is (t : Token) (kind : TokenKind) (text : String) : Bool := t.kind == kind && t.text == text

def stripLeft (c : Char) : List Char → List Char
  | d :: cs => if d = c then cs else d :: cs
  | [] => []

def stripRight (c : Char) (cs : List Char) : List Char := (stripLeft c cs.reverse).reverse

/-- The characters of a token without its delimiters. -/
def payload (kind : TokenKind) (cs : List Char) : List Char :=
  match kind with
  | .string => stripRight '\'' (stripLeft '\'' cs)
  | .var => Text.dropLeft (· == '$') cs
  | .label => Text.dropRight (· == ':') cs
  | .gameObject => stripRight '}' (stripLeft '{' cs)
  | .scriptObject => Text.dropRight (· == ']') (Text.dropLeft (· == '[') cs)
  | .comment => Text.trimChars (Text.dropLeft (· == '*') cs)
  | _ => cs

/-- The text of a token without its delimiters: a name without `$` or `:`, a string without
quotes. -/
def value (t : Token) : String := String.ofList (payload t.kind t.text.toList)

/-- An operand is complete after this token, so that a following `-` subtracts. -/
def endsOperand (t : Token) : Bool :=
  match t.kind with
  | .binaryOp | .unaryOp => t.text == ")" || t.text == "]"
  | .keyword | .text | .label => false
  | _ => true

def significant (ts : List Token) : List Token := ts.filter fun t => t.kind.isSignificant

def comment? (ts : List Token) : Option Token := ts.find? fun t => t.kind == .comment

def at? (ts : List Token) (offset : Nat) : Option Token :=
  ts.find? fun t => t.start ≤ offset && offset < t.stop

end Token

end GameScript
