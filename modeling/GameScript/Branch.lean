/-!
# How commands branch

* `Role` is the part a command plays in the block structure of a script.
* `Conditional` is what stands before a command: an assignment, a branching keyword, or nothing.
* `ReturnType` is how the engine uses the result of a command. It is determined by the conditional.
* `CommandKind` and `Origin` say whether a command is executed and where it came from.
-/

namespace GameScript

/-! ### Roles in the block structure -/

/-- The part a command plays in the block structure. -/
inductive Role where
  /-- Executed, without any part in the structure. -/
  | plain
  /-- Not executed and without any part in the structure. -/
  | idle
  /-- Written `if`. -/
  | branch
  /-- Written `while`. -/
  | loop
  /-- Written `skip if`. -/
  | skip
  /-- Written `else`. -/
  | otherwise
  /-- Written `else if`. -/
  | elseBranch
  /-- Written `end`. -/
  | close
  /-- Written `break`. -/
  | leave
  /-- Written `continue`. -/
  | again
  deriving DecidableEq, Repr, Inhabited

namespace Role

def all : List Role :=
  [.plain, .idle, .branch, .loop, .skip, .otherwise, .elseBranch, .close, .leave, .again]

/-- The name of a role in reports. -/
def name : Role → String
  | .plain => "none"
  | .idle => "nop"
  | .branch => "if"
  | .loop => "while"
  | .skip => "skipIf"
  | .otherwise => "else"
  | .elseBranch => "elseIf"
  | .close => "end"
  | .leave => "break"
  | .again => "continue"

/-- The name of a role in outlines. -/
def title : Role → String
  | .plain => "None"
  | .idle => "Nop"
  | .branch => "If"
  | .loop => "While"
  | .skip => "SkipIf"
  | .otherwise => "Else"
  | .elseBranch => "ElseIf"
  | .close => "End"
  | .leave => "Break"
  | .again => "Continue"

def ofName? (s : String) : Option Role := all.find? fun r => r.name == s

/-- Roles whose commands are followed by a body that a keyword closes. -/
def opensBlock : Role → Bool
  | .branch | .loop | .otherwise | .elseBranch => true
  | _ => false

/-- Roles that an `else` can follow: `if` and `else if`. -/
def isTest : Role → Bool
  | .branch | .elseBranch => true
  | _ => false

/-- Roles that continue a chain of tests: `else` and `else if`. -/
def continuesChain : Role → Bool
  | .otherwise | .elseBranch => true
  | _ => false

end Role

/-! ### Return types -/

/-- How the engine uses the result of a command. -/
inductive ReturnType where
  | assignment
  | discard
  | jumpIfTrue
  | jumpIfFalse
  deriving DecidableEq, Repr, Inhabited

namespace ReturnType

def all : List ReturnType := [.assignment, .discard, .jumpIfTrue, .jumpIfFalse]

/-- The byte the engine reads. -/
def byte : ReturnType → Nat
  | .assignment => 0
  | .discard => 1
  | .jumpIfTrue => 2
  | .jumpIfFalse => 3

def ofByte? (b : Nat) : Option ReturnType := all.find? fun t => t.byte == b

def name : ReturnType → String
  | .assignment => "ASSIGNMENT"
  | .discard => "DISCARD"
  | .jumpIfTrue => "JUMP_IF_TRUE"
  | .jumpIfFalse => "JUMP_IF_FALSE"

/-- The name of a return type in messages. -/
def title : ReturnType → String
  | .assignment => "Assignment"
  | .discard => "Discard"
  | .jumpIfTrue => "JumpIfTrue"
  | .jumpIfFalse => "JumpIfFalse"

def ofName? (s : String) : Option ReturnType := all.find? fun t => t.name == s

end ReturnType

/-! ### Conditionals -/

/-- What is done with the result of a command. -/
inductive Conditional where
  /-- Written `$var =`. -/
  | assign
  /-- Nothing is written before the command. -/
  | discard
  /-- Written `START`. -/
  | start
  /-- Written `if`. -/
  | ifTrue
  /-- Written `if not`. -/
  | ifNot
  /-- Written `else if`. -/
  | elseIf
  /-- Written `else if not`. -/
  | elseIfNot
  /-- Written `skip if`. -/
  | skipIf
  /-- Written `skip if not`. -/
  | skipIfNot
  /-- Written `while`. -/
  | whileTrue
  /-- Written `while not`. -/
  | whileNot
  deriving DecidableEq, Repr, Inhabited

namespace Conditional

def all : List Conditional :=
  [.assign, .discard, .start, .ifTrue, .ifNot, .elseIf, .elseIfNot, .skipIf, .skipIfNot, .whileTrue,
    .whileNot]

/-- The byte the engine reads. -/
def byte : Conditional → Nat
  | .assign => 0
  | .discard => 1
  | .start => 2
  | .ifTrue => 3
  | .ifNot => 4
  | .elseIf => 5
  | .elseIfNot => 6
  | .skipIf => 7
  | .skipIfNot => 8
  | .whileTrue => 9
  | .whileNot => 10

def ofByte? (b : Nat) : Option Conditional := all.find? fun c => c.byte == b

/-- The name of a conditional in reports. -/
def name : Conditional → String
  | .assign => "NONE"
  | .discard => "DISCARD"
  | .start => "START"
  | .ifTrue => "IF"
  | .ifNot => "IF_NOT"
  | .elseIf => "ELSE_IF"
  | .elseIfNot => "ELSE_IF_NOT"
  | .skipIf => "SKIP_IF"
  | .skipIfNot => "SKIP_IF_NOT"
  | .whileTrue => "WHILE"
  | .whileNot => "WHILE_NOT"

/-- The name of a conditional in messages. -/
def title : Conditional → String
  | .assign => "None"
  | .discard => "Discard"
  | .start => "Start"
  | .ifTrue => "If"
  | .ifNot => "IfNot"
  | .elseIf => "ElseIf"
  | .elseIfNot => "ElseIfNot"
  | .skipIf => "SkipIf"
  | .skipIfNot => "SkipIfNot"
  | .whileTrue => "While"
  | .whileNot => "WhileNot"

def ofName? (s : String) : Option Conditional := all.find? fun c => c.name == s

def role : Conditional → Role
  | .ifTrue | .ifNot => .branch
  | .elseIf | .elseIfNot => .elseBranch
  | .whileTrue | .whileNot => .loop
  | .skipIf | .skipIfNot => .skip
  | .assign | .discard | .start => .plain

/-- The keywords that spell a conditional. An assignment and a discarded result have none. -/
def keywords : Conditional → List String
  | .assign | .discard => []
  | .start => ["START"]
  | .ifTrue => ["if"]
  | .ifNot => ["if", "not"]
  | .elseIf => ["else", "if"]
  | .elseIfNot => ["else", "if", "not"]
  | .skipIf => ["skip", "if"]
  | .skipIfNot => ["skip", "if", "not"]
  | .whileTrue => ["while"]
  | .whileNot => ["while", "not"]

def isJump : Conditional → Bool
  | .assign | .discard | .start => false
  | _ => true

/-- How the engine uses the result of a command with this conditional. A test jumps over its body,
so `if` jumps when the result is false; `skip if` jumps when it is true. -/
def returnType : Conditional → ReturnType
  | .assign => .assignment
  | .start | .discard => .discard
  | .ifTrue | .whileTrue | .elseIf | .skipIfNot => .jumpIfFalse
  | .ifNot | .whileNot | .elseIfNot | .skipIf => .jumpIfTrue

end Conditional

/-! ### Kinds and origins of commands -/

/-- Standard commands are executed and numbered, auxiliary ones are not. -/
inductive CommandKind where
  | standard
  | auxiliary
  deriving DecidableEq, Repr, Inhabited

namespace CommandKind

def name : CommandKind → String
  | .standard => "standard"
  | .auxiliary => "auxiliary"

def ofName? (s : String) : Option CommandKind :=
  [.standard, .auxiliary].find? fun (k : CommandKind) => k.name == s

end CommandKind

/-- Where a command came from. -/
inductive Origin where
  /-- A line of the script. -/
  | source
  /-- A line of the script whose shorthand was expanded. -/
  | header
  /-- Generated from a shorthand. -/
  | expanded
  /-- A jump inserted at the end of a branch or loop. -/
  | hiddenJump
  deriving DecidableEq, Repr, Inhabited

namespace Origin

def all : List Origin := [.source, .header, .expanded, .hiddenJump]

def name : Origin → String
  | .source => "source"
  | .header => "macroHeader"
  | .expanded => "expanded"
  | .hiddenJump => "hiddenJump"

/-- The name of an origin in outlines. -/
def title : Origin → String
  | .source => "Source"
  | .header => "MacroHeader"
  | .expanded => "Expanded"
  | .hiddenJump => "HiddenJump"

def ofName? (s : String) : Option Origin := all.find? fun o => o.name == s

def isGenerated : Origin → Bool
  | .expanded | .hiddenJump => true
  | _ => false

end Origin

end GameScript
