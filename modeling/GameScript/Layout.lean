import GameScript.Branch

/-!
# Indentation

The indentation of a line is its depth in the block structure. It is rebuilt from the roles of the
lines alone, one line after the other: `Indentation.before` makes room for a line that closes
something, `Indentation.after` takes in what the line opens.

A `skip if` indents the lines up to the first executed one. The body of a subroutine is indented
once, from its label to the `endsub` outside of all blocks.
-/

namespace GameScript

inductive Level where
  /-- A block that a keyword closes. -/
  | block
  /-- A `skip if` that waits for an executed line. -/
  | skip
  deriving DecidableEq, Repr

/-- The state between two lines. -/
structure Indentation where
  /-- Innermost first. -/
  levels : List Level := []
  inSubroutine : Bool := false
  /-- The spaces for each level. -/
  width : Nat
  deriving DecidableEq, Repr

/-- What matters about a line for the indentation. -/
structure LineShape where
  role : Role
  kind : CommandKind
  commented : Bool
  /-- The line defines the label of a subroutine. -/
  startsSubroutine : Bool
  /-- The line is an `endsub`. -/
  endsSubroutine : Bool
  deriving DecidableEq, Repr

namespace Indentation

def start (width : Nat) : Indentation := { width }

def depth (i : Indentation) : Nat := i.levels.length

def spaces (i : Indentation) : Nat := (i.depth + if i.inSubroutine then 1 else 0) * i.width

def closes : Role → Bool
  | .otherwise | .elseBranch | .close => true
  | _ => false

/-- Close a block, with the `skip if`s inside it that still wait. -/
def closeLevel (levels : List Level) : List Level := (levels.dropWhile (· == .skip)).drop 1

def before (i : Indentation) (role : Role) (endsSubroutine : Bool) : Indentation :=
  let levels := if closes role then closeLevel i.levels else i.levels
  { i with levels, inSubroutine := i.inSubroutine && !(endsSubroutine && levels.isEmpty) }

def endsSkip (role : Role) (kind : CommandKind) (commented : Bool) : Bool :=
  (kind == .standard && !commented) || role == .leave || role == .again

def dropSkip : List Level → List Level
  | .skip :: levels => levels
  | levels => levels

/-- The state after a line was displayed. -/
def after (i : Indentation) (role : Role) (kind : CommandKind) (commented startsSubroutine : Bool) :
    Indentation :=
  let levels := if endsSkip role kind commented then dropSkip i.levels else i.levels
  let levels :=
    if role.opensBlock then .block :: levels
    else if role = .skip then .skip :: levels
    else levels
  { i with levels, inSubroutine := i.inSubroutine || startsSubroutine }

/-- Display a line: the state in which it is displayed, and the state after it. -/
def pass (i : Indentation) (l : LineShape) : Indentation × Indentation :=
  let shown := i.before l.role l.endsSubroutine
  (shown, shown.after l.role l.kind l.commented l.startsSubroutine)

end Indentation

end GameScript
