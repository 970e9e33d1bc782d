import GameScript.Grammar
import GameScript.Statement

/-!
# Fitting a line to a form

`Entry.fit?` walks the template of a form and the tokens of a line together. A literal takes the
token with its text; a parameter takes as many tokens as its kind asks for. The form fits when all
tokens are taken.
-/

namespace GameScript

namespace ParamKind

/-- The conditionals that are spelled with keywords. One that starts another comes after it. -/
def spelled : List Conditional :=
  [.skipIfNot, .skipIf, .elseIfNot, .elseIf, .ifNot, .ifTrue, .whileNot, .whileTrue, .start]

def startsWith : List String → List Token → Bool
  | [], _ => true
  | _ :: _, [] => false
  | w :: ws, t :: ts => t.is .keyword w && startsWith ws ts

/-- The conditional at the front of the tokens and the number of tokens that spell it. -/
def conditionalAt (ts : List Token) : Conditional × Nat :=
  match spelled.find? fun c => startsWith c.keywords ts with
  | some c => (c, c.keywords.length)
  | none =>
    match ts with
    | v :: e :: _ => if v.kind = .var && e.is .binaryOp "=" then (.assign, 2) else (.discard, 0)
    | _ => (.discard, 0)

def returnLength? (kind : ParamKind) (ts : List Token) : Option (Conditional × Nat) :=
  let (c, n) := conditionalAt ts
  if kind.allows c then some (c, n) else none

/-- The tokens of a value: an operand, or a number with a unary minus. -/
def valueLength? : List Token → Option Nat
  | t :: ts =>
    if t.is .unaryOp "-" then
      match ts with
      | n :: _ => if n.kind = .number then some 2 else none
      | [] => none
    else if t.kind.isOperand then some 1
    else none
  | [] => none

/-- The tokens of one or more values between commas. -/
def valueListLength? (ts : List Token) : Option Nat :=
  match valueLength? ts with
  | none => none
  | some n =>
    match h : ts.drop n with
    | t :: rest => if t.isComma then (valueListLength? rest).map (n + 1 + ·) else some n
    | [] => some n
termination_by ts.length
decreasing_by
  have := congrArg List.length h
  simp only [List.length_drop, List.length_cons] at this
  omega

/-- The tokens of an expression: up to the token `stop`, at least one, all operands or operators. -/
def expressionLength? (stop : Option String) (ts : List Token) : Option Nat :=
  let inner := ts.takeWhile fun t => stop != some t.text
  if inner.isEmpty || !(inner.all fun t => t.kind.isOperand || t.kind.isOperator) then none
  else some inner.length

/-- The tokens that a parameter takes, other than a return slot. `stop` is the next literal. -/
def takeLength? (kind : ParamKind) (stop : Option String) (ts : List Token) : Option Nat :=
  match kind with
  | .expression => expressionLength? stop ts
  | .valueList => valueListLength? ts
  | .labelName => match ts with
    | t :: _ => if t.kind = .label then some 1 else none
    | [] => none
  | _ => valueLength? ts

end ParamKind

structure Fit where
  conditional : Conditional
  /-- The tokens bound to each parameter so far. -/
  slots : List (Option (List Token))
  deriving DecidableEq, Repr

namespace Fit

def empty (f : Form) : Fit := ⟨.discard, f.params.map fun _ => none⟩

def bind (m : Fit) (index : Nat) (ts : List Token) : Fit :=
  { m with slots := m.slots.set index (some ts) }

/-- The parameters of the form. One that its template does not show is empty. -/
def parameters (m : Fit) (f : Form) : List Parameter :=
  (f.params.zip m.slots).map fun (p, ts) => ⟨p.kind, ts.getD []⟩

end Fit

namespace Entry

/-- Fit the remaining pieces of a template to the remaining tokens. -/
def fitPieces? (f : Form) : List Piece → List Token → Fit → Option Fit
  | [], [], m => some m
  | [], _ :: _, _ => none
  | .literal _ :: _, [], _ => none
  | .literal text :: ps, t :: ts, m => if t.text == text then fitPieces? f ps ts m else none
  | .slot index :: ps, ts, m =>
    match f.kindAt? index with
    | none => none
    | some kind =>
      if kind.isReturnSlot then
        match kind.returnLength? ts with
        | none => none
        | some (c, n) =>
          fitPieces? f ps (ts.drop n) { m.bind index (ts.take n) with conditional := c }
      else
        match kind.takeLength? (ps.findSome? Piece.literal?) ts with
        | none => none
        | some n => fitPieces? f ps (ts.drop n) (m.bind index (ts.take n))

def fit? (e : Entry) (ts : List Token) : Option Fit :=
  fitPieces? e.form e.pieces ts (Fit.empty e.form)

/-- The canonical tokens of a command: the template with its parameters filled in. -/
def fill (e : Entry) (parameters : List Parameter) : List Token :=
  e.pieces.flatMap fun piece =>
    match piece with
    | .literal text => [Token.detached .text text]
    | .slot index => (parameters[index]?.map (·.tokens)).getD []

def render (e : Entry) (parameters : List Parameter) : String := Token.join (e.fill parameters)

end Entry

structure Recognition where
  entry : Entry
  fit : Fit
  /-- The release knows the command. -/
  supported : Bool

/-- The first candidate that fits among those the release knows, or else among all. -/
def Grammar.recognise? (g : Grammar) (v : Version) (ts : List Token) : Option Recognition :=
  (g.candidates.findSome? fun e =>
      if e.form.supports v then (e.fit? ts).map fun m => ⟨e, m, true⟩ else none)
    <|> g.candidates.findSome? fun e => (e.fit? ts).map fun m => ⟨e, m, false⟩

end GameScript
