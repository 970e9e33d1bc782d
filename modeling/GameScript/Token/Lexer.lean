import GameScript.Token

/-!
# Splitting a line into tokens

`Token.tokenize` cuts a line into tokens that cover it from its first to its last byte. At each
place the first rule that applies decides, in the order of `lexeme`: blanks, strings, numbers,
keywords, labels, operators, variables, game objects, script objects, and free text for all else.

A line whose first character after blanks is `*` is a comment. When the whole comment is wanted it
is one token; otherwise only the mark is, and the rest is cut like any line, so that a command that
was commented out can be recognised.
-/

namespace GameScript.Token

/-! ### Character classes -/

def isGap (c : Char) : Bool := c == ' ' || c == '\t' || c == '\r'

def isNameChar (c : Char) : Bool := c.isAlphanum || c == '_' || c == '.'

/-- The characters that start a label or the name of a script object. -/
def startsName (c : Char) : Bool := c.isAlpha || c == '_'

def endsText (c : Char) : Bool :=
  Text.isBlank c || c == '=' || c == ',' || c == '(' || c == ')' || c == '\'' ||
  c == '[' || c == ']'

def continuesName : List Char → Bool
  | c :: _ => isNameChar c
  | [] => false

/-! ### Vocabulary -/

def keywords : List String :=
  ["if", "not", "while", "skip", "else", "end", "break", "continue", "return", "gosub", "endsub",
    "goto", "START", "dim", "for", "each", "in", "to", "step"]

def wordOperators : List String := ["mod", "AND", "OR"]

/-- The operators written with symbols. One that starts another comes after it. -/
def symbolOperators : List String :=
  ["==", "!=", "<=", ">=", "<", ">", "=", "+", "-", "*", "/", "&", "|", "^", "!", "~", "(",
    ")", "[", "]", ","]

/-! ### Rules

Each rule gives the number of characters of the token it finds at the front of `cs`. -/

/-- The length of a text from its opening character through the first `close`, or to the end of the
line. `cs` starts after the opening character. -/
def delimitedLength (close : Char) (cs : List Char) : Nat :=
  let inner := (cs.takeWhile (· != close)).length
  if inner = cs.length then inner + 1 else inner + 2

def string? : List Char → Option Nat
  | '\'' :: cs => some (delimitedLength '\'' cs)
  | _ => none

/-- Digits that no name goes on after. -/
def number? (cs : List Char) : Option Nat :=
  let n := (cs.takeWhile Char.isDigit).length
  if n = 0 || continuesName (cs.drop n) then none else some n

def wordLength (cs : List Char) : Nat := (cs.takeWhile Char.isAlpha).length

def word (cs : List Char) : String := String.ofList (cs.takeWhile Char.isAlpha)

/-- The word `null` or a keyword. A word before a colon or an opening parenthesis is neither. -/
def keyword? (cs : List Char) : Option (TokenKind × Nat) :=
  let n := wordLength cs
  let rest := cs.drop n
  if n = 0 || continuesName rest || rest.head? == some ':' || rest.head? == some '(' then none
  else if word cs == "null" then some (.null, n)
  else if keywords.contains (word cs) then some (.keyword, n)
  else none

def label? : List Char → Option Nat
  | c :: cs =>
    let n := (cs.takeWhile isNameChar).length
    if startsName c && (cs.drop n).head? == some ':' then some (n + 2) else none
  | [] => none

/-- A name in square brackets. Blanks may stand inside the name. -/
def scriptObject? : List Char → Option Nat
  | '[' :: c :: cs =>
    let n := (cs.takeWhile fun c => isNameChar c || c == ' ').length
    if startsName c && (cs.drop n).head? == some ']' then some (n + 3) else none
  | _ => none

/-- Whether an operator is unary. A minus is, unless an operand stands before it. -/
def operatorKind (afterOperand : Bool) (symbol : String) : TokenKind :=
  if symbol == "!" || symbol == "~" || (symbol == "-" && !afterOperand) then .unaryOp else .binaryOp

/-- An operator. An arrow is none, and neither is the bracket of a script object. -/
def operator? (afterOperand : Bool) (cs : List Char) : Option (TokenKind × Nat) :=
  let n := wordLength cs
  if n ≠ 0 then
    if wordOperators.contains (word cs) && !continuesName (cs.drop n) then some (.binaryOp, n)
    else none
  else if ['-', '>'].isPrefixOf cs then none
  else if (scriptObject? cs).isSome then none
  else
    match symbolOperators.find? fun symbol => symbol.toList.isPrefixOf cs with
    | some symbol => some (operatorKind afterOperand symbol, symbol.length)
    | none => none

def varLength? : List Char → Option Nat
  | '$' :: cs =>
    let n := (cs.takeWhile isNameChar).length
    if n = 0 then none else some (n + 1)
  | _ => none

def gameObject? : List Char → Option Nat
  | '{' :: cs => some (delimitedLength '}' cs)
  | _ => none

/-- Free text: up to the next delimiter, and at least one character. -/
def textLength (cs : List Char) : Nat := max 1 (cs.takeWhile fun c => !endsText c).length

def gap? (cs : List Char) : Option Nat :=
  let n := (cs.takeWhile isGap).length
  if n = 0 then none else some n

/-- The kind and length of the token at the front of `cs`. -/
def lexeme (afterOperand : Bool) (cs : List Char) : TokenKind × Nat :=
  let found : Option (TokenKind × Nat) :=
    (gap? cs).map (.blank, ·)
      <|> (string? cs).map (.string, ·)
      <|> (number? cs).map (.number, ·)
      <|> keyword? cs
      <|> (label? cs).map (.label, ·)
      <|> operator? afterOperand cs
      <|> (varLength? cs).map (.var, ·)
      <|> (gameObject? cs).map (.gameObject, ·)
      <|> (scriptObject? cs).map (.scriptObject, ·)
  found.getD (.text, textLength cs)

/-! ### Lines -/

def ofChars (kind : TokenKind) (start : Nat) (cs : List Char) : Token :=
  let text := String.ofList cs
  ⟨kind, start, start + text.utf8ByteSize, text⟩

/-- Whether an operand stands before what follows `t`. Blanks and comments change nothing. -/
def afterOperand (before : Bool) (t : Token) : Bool :=
  if t.kind.isSignificant then t.endsOperand else before

/-- Cut characters into tokens, starting at a byte offset. Every token takes at least one
character. -/
def lex (offset : Nat) (operandBefore : Bool) : List Char → List Token
  | [] => []
  | c :: cs =>
    let (kind, n) := lexeme operandBefore (c :: cs)
    let t := ofChars kind offset (c :: cs.take (n - 1))
    t :: lex t.stop (afterOperand operandBefore t) (cs.drop (n - 1))
termination_by cs => cs.length
decreasing_by exact Nat.lt_succ_of_le (by rw [List.length_drop]; exact Nat.sub_le ..)

/-- Cut characters after the leading blanks of a line. -/
def lexBody (wholeComment : Bool) (offset : Nat) : List Char → List Token
  | '*' :: cs =>
    if wholeComment then [ofChars .comment offset ('*' :: cs)]
    else
      let mark := ofChars .comment offset ['*']
      mark :: lex mark.stop false cs
  | cs => lex offset false cs

/-- The tokens of a line. With `wholeComment`, a comment is a single token. -/
def tokenize (line : String) (wholeComment : Bool) : List Token :=
  let cs := line.toList
  match cs.takeWhile isGap with
  | [] => lexBody wholeComment 0 cs
  | gap =>
    let t := ofChars .blank 0 gap
    t :: lexBody wholeComment t.stop (cs.dropWhile isGap)

end GameScript.Token
