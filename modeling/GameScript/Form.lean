import GameScript.Branch
import GameScript.Text.Decimal
import GameScript.Token.Lexer
import GameScript.Version

/-!
# Command forms

A form describes one command of the language: its number, a template that shows how it is written,
and the kinds of its parameters. In a template `$0`, `$1`, ... stand for the parameters; everything
else is literal. The parameters are declared in physical order, the order in which the engine stores
them; the template shows them in display order.
-/

namespace GameScript

/-! ### Numbers of forms -/

abbrev FormId := Nat

namespace FormId

/-- A blank line. -/
abbrev nop : FormId := 0
/-- A comment. -/
abbrev comment : FormId := 1
/-- The command `end`. -/
abbrev endBlock : FormId := 2
/-- The command `else`. -/
abbrev elseBlock : FormId := 3
/-- The command `break`. -/
abbrev breakLoop : FormId := 4
/-- The command `continue`. -/
abbrev continueLoop : FormId := 5
/-- An unconditional jump that no line spells. -/
abbrev hiddenJump : FormId := 6
/-- A label definition. -/
abbrev defineLabel : FormId := 7
/-- The command `goto label`. -/
abbrev gotoLabel : FormId := 8
/-- The command `gosub`. -/
abbrev gosub : FormId := 9
/-- The command `endsub`. -/
abbrev endsub : FormId := 10
/-- The command `return`. -/
abbrev leaveScript : FormId := 11
/-- An expression, assigned, tested or discarded. -/
abbrev expression : FormId := 12
/-- The shorthand `dim`. -/
abbrev dim : FormId := 19
/-- The shorthand `for`. -/
abbrev forLoop : FormId := 20
/-- The shorthand `for` with a step. -/
abbrev forLoopStep : FormId := 21
/-- The shorthand `for each`. -/
abbrev forEach : FormId := 22
/-- The shorthand `for each` with a counter. -/
abbrev forEachCounter : FormId := 23
/-- The last number reserved for the compiler. -/
abbrev lastReserved : FormId := 99
abbrev unrecognised : FormId := 0xFFFFFFFF

def isLoopShorthand (id : FormId) : Bool :=
  id == forLoop || id == forLoopStep || id == forEach || id == forEachCounter

/-- The shorthands: commands that are expanded into other commands. -/
def isShorthand (id : FormId) : Bool := id == dim || isLoopShorthand id

/-- The forms that are never recognised by their template. -/
def isUnmatchable (id : FormId) : Bool := id == nop || id == comment || id == hiddenJump

end FormId

/-! ### Parameters -/

/-- The kinds of parameter. -/
inductive ParamKind where
  /-- Receives the result: `$var =` or nothing. -/
  | retVar
  /-- Receives or tests the result: also `if`, `while`, `skip if`, `else if` and their `not`
  forms. -/
  | retVarIf
  /-- Receives, tests or starts: also `START`. -/
  | retVarIfStart
  | var
  | value
  | number
  | string
  | labelName
  | expression
  | valueList
  | gameObject
  | scriptObject
  deriving DecidableEq, Repr, Inhabited

namespace ParamKind

def all : List ParamKind :=
  [.retVar, .retVarIf, .retVarIfStart, .var, .value, .number, .string, .labelName, .expression,
    .valueList, .gameObject, .scriptObject]

/-- The name of a kind in tables and reports. -/
def name : ParamKind → String
  | .retVar => "RetVar"
  | .retVarIf => "RetVarIf"
  | .retVarIfStart => "RetVarIfStart"
  | .var => "Var"
  | .value => "Value"
  | .number => "Number"
  | .string => "String"
  | .labelName => "LabelName"
  | .expression => "Expression"
  | .valueList => "ValueList"
  | .gameObject => "GameObject"
  | .scriptObject => "ScriptObject"

def ofName? (s : String) : Option ParamKind := all.find? fun k => k.name == s

/-- The kinds that receive the result of a command. -/
def isReturnSlot : ParamKind → Bool
  | .retVar | .retVarIf | .retVarIfStart => true
  | _ => false

/-- A parameter of this kind may spell this conditional. -/
def allows : ParamKind → Conditional → Bool
  | .retVar, c => c == .assign || c == .discard
  | .retVarIf, c => c != .start
  | .retVarIfStart, _ => true
  | _, _ => false

end ParamKind

structure ParamDecl where
  kind : ParamKind
  name : Option String := none
  deriving DecidableEq, Repr

/-! ### Templates -/

inductive Piece where
  | literal (text : String)
  | slot (index : Nat)
  deriving DecidableEq, Repr

namespace Piece

/-- The number in a placeholder such as `$0`. -/
def placeholder? (t : Token) : Option Nat :=
  if t.kind = .var then Text.boundedNumeral? UInt64.size t.value.toList else none

def ofToken (t : Token) : Piece :=
  match placeholder? t with
  | some index => .slot index
  | none => .literal t.text

def isLiteral : Piece → Bool
  | .literal _ => true
  | .slot _ => false

def literal? : Piece → Option String
  | .literal text => some text
  | .slot _ => none

end Piece

/-! ### Forms -/

/-- The description of one command. -/
structure Form where
  id : FormId
  template : String
  /-- In physical order. -/
  params : List ParamDecl := []
  /-- The releases that know the command. None means all of them. -/
  versions : List Version := []
  group : Option String := none
  deriving DecidableEq, Repr

namespace Form

/-- A form with parameters of these kinds, known to all releases. -/
def simple (id : FormId) (template : String) (kinds : List ParamKind) : Form :=
  ⟨id, template, kinds.map fun k => ⟨k, none⟩, [], none⟩

def pieces (f : Form) : List Piece :=
  (Token.significant (Token.tokenize f.template true)).map Piece.ofToken

def supports (f : Form) (v : Version) : Bool := f.versions.isEmpty || f.versions.contains v

def hasExpression (f : Form) : Bool := f.params.any fun p => p.kind == .expression

def returnSlot? (f : Form) : Option Nat := f.params.findIdx? fun p => p.kind.isReturnSlot

def kindAt? (f : Form) (index : Nat) : Option ParamKind := f.params[index]?.map (·.kind)

end Form

end GameScript
