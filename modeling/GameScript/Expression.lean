import GameScript.Token

/-!
# Expressions in evaluation order

`Expression.evalOrder` turns the tokens of an infix expression into the order in which the engine
evaluates them: operands first, every operator after its operands. Binary operators associate to the
left; unary operators bind tightest.

The tokens are read once, from left to right. Operators wait on a stack until an operator that binds
no tighter, a closing parenthesis or the end of the expression releases them.
-/

namespace GameScript

/-- Why tokens are no expression. -/
inductive ExpressionError where
  /-- An operand or opening parenthesis follows a complete operand. -/
  | operatorMissing (before : String)
  /-- A binary operator or closing parenthesis follows no operand. -/
  | operandMissing (before : String)
  /-- The expression ends where an operand should stand. -/
  | incomplete
  /-- A closing parenthesis has no opening one. -/
  | unopened
  /-- An opening parenthesis has no closing one. -/
  | unclosed
  /-- An operator of the language that has no meaning inside expressions. -/
  | operatorInvalid (operator : String)
  /-- A token that is neither operand nor operator. -/
  | tokenInvalid (text : String)
  deriving DecidableEq, Repr

namespace ExpressionError

def code : ExpressionError → String
  | .operatorMissing _ => "EXPRESSION_OPERATOR_MISSING"
  | .operandMissing _ | .incomplete => "EXPRESSION_OPERAND_MISSING"
  | .unopened | .unclosed => "EXPRESSION_PARENTHESIS_UNBALANCED"
  | .operatorInvalid _ => "EXPRESSION_OPERATOR_INVALID"
  | .tokenInvalid _ => "EXPRESSION_TOKEN_INVALID"

/-- The text of the diagnostic. -/
def message : ExpressionError → String
  | .operatorMissing before => "Expected an operator before '" ++ before ++ "'."
  | .operandMissing before => "Expected a value before '" ++ before ++ "'."
  | .incomplete => "Expression is incomplete."
  | .unopened => "Closing bracket has no matching opening bracket."
  | .unclosed => "Opening bracket is never closed."
  | .operatorInvalid operator => "Operator '" ++ operator ++ "' cannot be used in an expression."
  | .tokenInvalid text => "'" ++ text ++ "' is not valid in an expression."

end ExpressionError

namespace Expression

/-- How tight a binary operator binds. -/
def binaryLevel? (operator : String) : Option Nat :=
  if operator == "*" || operator == "/" || operator == "mod" then some 7
  else if operator == "+" || operator == "-" then some 6
  else if operator == "<" || operator == ">" || operator == "<=" || operator == ">=" then some 5
  else if operator == "==" || operator == "!=" then some 4
  else if operator == "&" then some 3
  else if operator == "|" || operator == "^" then some 2
  else if operator == "AND" then some 1
  else if operator == "OR" then some 0
  else none

def unaryLevel : Nat := 8

/-- How tight a waiting operator binds. An opening parenthesis has no level. -/
def level? (t : Token) : Option Nat :=
  if t.kind = .unaryOp then some unaryLevel else binaryLevel? t.text

/-- The state of the reading. -/
structure Yard where
  /-- What was released so far, last one first. -/
  output : List Token
  /-- The waiting operators and opening parentheses, last one first. -/
  waiting : List Token
  /-- Whether an operand must come next. -/
  wantsOperand : Bool

def Yard.empty : Yard := ⟨[], [], true⟩

/-- Release the waiting operators that bind at least as tight as `level`. -/
def release (level : Nat) : List Token → List Token → List Token × List Token
  | output, [] => (output, [])
  | output, t :: waiting =>
    match level? t with
    | some l => if level ≤ l then release level (t :: output) waiting else (output, t :: waiting)
    | none => (output, t :: waiting)

/-- Release the waiting operators back to the opening parenthesis, and drop it. -/
def releaseGroup? : List Token → List Token → Option (List Token × List Token)
  | _, [] => none
  | output, t :: waiting =>
    if t.text == "(" then some (output, waiting) else releaseGroup? (t :: output) waiting

def releaseAll? : List Token → List Token → Option (List Token)
  | output, [] => some output
  | output, t :: waiting => if t.text == "(" then none else releaseAll? (t :: output) waiting

/-- Read one token. -/
def read (s : Yard) (t : Token) : Except ExpressionError Yard :=
  if t.kind.isOperand then
    if s.wantsOperand then .ok { s with output := t :: s.output, wantsOperand := false }
    else .error (.operatorMissing t.text)
  else if t.kind = .unaryOp then
    if s.wantsOperand then .ok { s with waiting := t :: s.waiting }
    else .error (.operatorMissing t.text)
  else if t.kind = .binaryOp then
    if t.text == "(" then
      if s.wantsOperand then .ok { s with waiting := t :: s.waiting }
      else .error (.operatorMissing t.text)
    else if t.text == ")" then
      if s.wantsOperand then .error (.operandMissing t.text)
      else
        match releaseGroup? s.output s.waiting with
        | some (output, waiting) => .ok { s with output, waiting }
        | none => .error .unopened
    else
      match binaryLevel? t.text with
      | none => .error (.operatorInvalid t.text)
      | some level =>
        if s.wantsOperand then .error (.operandMissing t.text)
        else
          let (output, waiting) := release level s.output s.waiting
          .ok ⟨output, t :: waiting, true⟩
  else .error (.tokenInvalid t.text)

def finish (s : Yard) : Except ExpressionError (List Token) :=
  if s.wantsOperand then .error .incomplete
  else
    match releaseAll? s.output s.waiting with
    | some output => .ok output.reverse
    | none => .error .unclosed

/-- The tokens of an infix expression in evaluation order. -/
def evalOrder (ts : List Token) : Except ExpressionError (List Token) := do
  finish (← ts.foldlM read Yard.empty)

end Expression

end GameScript
