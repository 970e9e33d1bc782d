import GameScript.Form
import GameScript.Token.Spacing

/-!
# Statements

A statement is one line of a script, recognised as a command, a comment or a blank line. Its
parameters are the tokens bound to the parameters of its form, in physical order.
-/

namespace GameScript

/-! ### Number literals -/

namespace Token

/-- The number that tokens spell, with an optional unary minus, within 64 bits. -/
def literalNumber? : List Token → Option Int
  | [n] => if n.kind = .number then Text.numeral64? n.text else none
  | [m, n] =>
    if m.is .unaryOp "-" && n.kind = .number then (Text.numeral64? n.text).map Int.neg else none
  | _ => none

def isLiteral : List Token → Bool
  | [t] => t.kind.isLiteral
  | ts => (literalNumber? ts).isSome

def isComma (t : Token) : Bool := t.is .binaryOp ","

/-- The runs of tokens between commas, empty ones included. -/
def splitCommas : List Token → List (List Token)
  | [] => [[]]
  | t :: ts =>
    if t.isComma then [] :: splitCommas ts
    else
      match splitCommas ts with
      | run :: runs => (t :: run) :: runs
      | [] => [[t]]

end Token

/-! ### Parameters -/

structure Parameter where
  kind : ParamKind
  tokens : List Token
  deriving DecidableEq, Repr

namespace Parameter

def text (p : Parameter) : String := Token.join p.tokens

def soleVariable? (p : Parameter) : Option Token :=
  match p.tokens with
  | [t] => if t.kind = .var then some t else none
  | _ => none

def label? (p : Parameter) : Option String :=
  match p.tokens with
  | [t] => if t.kind = .label then some t.value else none
  | _ => none

def literalNumber? (p : Parameter) : Option Int := Token.literalNumber? p.tokens

def isLiteral (p : Parameter) : Bool := Token.isLiteral p.tokens

def items (p : Parameter) : List (List Token) :=
  (Token.splitCommas p.tokens).filter fun run => !run.isEmpty

end Parameter

/-! ### Statements -/

structure Extent where
  start : Nat := 0
  stop : Nat := 0
  deriving DecidableEq, Repr

/-- A line of a script. -/
structure Statement where
  /-- Counted from 1. -/
  line : Nat
  form : FormId
  conditional : Conditional
  role : Role
  kind : CommandKind
  /-- The line is a command that was commented out. -/
  commented : Bool
  /-- In physical order. -/
  parameters : List Parameter
  /-- The canonical text without the comment mark; the body of a comment. -/
  text : String
  extent : Extent
  deriving DecidableEq, Repr

namespace Statement

def nop (line : Nat) : Statement :=
  ⟨line, FormId.nop, .discard, .idle, .auxiliary, false, [], "", {}⟩

def hiddenJump (line : Nat) : Statement :=
  ⟨line, FormId.hiddenJump, .discard, .plain, .standard, false, [], "", {}⟩

instance : Inhabited Statement := ⟨nop 0⟩

def isComment (s : Statement) : Bool := s.form == FormId.comment

def isRecognised (s : Statement) : Bool := s.form != FormId.unrecognised

/-- The statement is executed unless it is commented out. -/
def isStandard (s : Statement) : Bool := s.kind == .standard

def display (s : Statement) : String :=
  if s.isComment then if s.text.isEmpty then "*" else "* " ++ s.text
  else if s.commented then "* " ++ s.text
  else s.text

def returnSlot? (s : Statement) : Option Parameter :=
  s.parameters.find? fun p => p.kind.isReturnSlot

def assigned? (s : Statement) : Option Token :=
  if s.conditional = .assign then s.returnSlot?.bind fun p => p.tokens.head? else none

/-- All variables in the parameters, in physical order. -/
def vars (s : Statement) : List Token :=
  (s.parameters.flatMap (·.tokens)).filter fun t => t.kind == .var

def label? (s : Statement) : Option String := s.parameters.head?.bind (·.label?)

/-- The role and kind of a command, from its form and conditional. -/
def classify (form : FormId) (conditional : Conditional) (commented : Bool) : Role × CommandKind :=
  if commented || form == FormId.nop || form == FormId.comment then (.idle, .auxiliary)
  else if form == FormId.endBlock then (.close, .auxiliary)
  else if form == FormId.elseBlock then (.otherwise, .auxiliary)
  else if form == FormId.breakLoop then (.leave, .standard)
  else if form == FormId.continueLoop then (.again, .standard)
  else if form == FormId.unrecognised then (.plain, .standard)
  else if form.isLoopShorthand then (.loop, .standard)
  else (conditional.role, .standard)

end Statement

end GameScript
