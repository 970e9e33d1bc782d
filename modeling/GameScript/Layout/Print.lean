import Std.Data.TreeSet
import GameScript.Command
import GameScript.Layout
import GameScript.Statement.Reader

/-!
# Printing scripts

A script is printed with canonical indentation, either from its source lines or from the commands
that it was compiled to. Both ways give each line its shape and text and share the rest.
-/

namespace GameScript

structure Printed where
  shape : LineShape
  /-- A line without text is printed empty, without indentation. -/
  text : Option String

namespace Layout

def indent (spaces : Nat) : Option String → String
  | none => ""
  | some text => "".pushn ' ' spaces ++ text

def printLine : Indentation × Array String → Printed → Indentation × Array String
  | (i, out), p =>
    let (shown, next) := i.pass p.shape
    (next, out.push (indent shown.spaces p.text))

def print (width : Nat) (lines : List Printed) : List String :=
  (lines.foldl printLine (.start width, #[])).2.toList

/-! ### From source lines -/

def calledBy (statements : List Statement) : Std.TreeSet String :=
  .ofList <| (statements.filter fun s => !s.commented && s.form == FormId.gosub).filterMap fun s =>
    s.parameters.head?.map (·.text)

/-- How a statement is printed. -/
def ofStatement (called : Std.TreeSet String) (s : Statement) : Printed where
  shape :=
    { role := s.role
      kind := s.kind
      commented := s.commented
      startsSubroutine :=
        !s.commented && s.form == FormId.defineLabel && s.parameters.head?.any fun p =>
          called.contains p.text
      endsSubroutine := !s.commented && s.form == FormId.endsub }
  text := if s.form = FormId.nop then none else some s.display

/-- Indent a script anew. Lines that are not recognised keep their text. -/
def format (g : Grammar) (v : Version) (width : Nat) (lines : List String) : List String :=
  let statements := (Statement.readAll g v lines).map (·.statement)
  let called := calledBy statements
  print width (statements.map (ofStatement called))

/-! ### From commands -/

def calledByCommands (commands : List Command) : Std.TreeSet String :=
  .ofList <| (commands.filter fun c => !c.commented && c.form == FormId.gosub).filterMap fun c =>
    c.parameters.head?

def displayCommand (c : Command) : Option String :=
  if c.form = FormId.nop then none
  else if c.form = FormId.comment then some (if c.text.isEmpty then "*" else "* " ++ c.text)
  else if c.commented then some ("* " ++ c.text)
  else some c.text

/-- How a command is printed. -/
def ofCommand (called : Std.TreeSet String) (c : Command) : Printed where
  shape :=
    { role := c.role
      kind := c.kind
      commented := c.commented
      startsSubroutine :=
        !c.commented && c.form == FormId.defineLabel && c.parameters.head?.any fun label =>
          called.contains label
      endsSubroutine := !c.commented && c.form == FormId.endsub }
  text := displayCommand c

/-- Print compiled commands as source. Generated commands are left out; the header of a shorthand
stands for what it was expanded into. -/
def render (width : Nat) (commands : List Command) : List String :=
  let called := calledByCommands commands
  print width ((commands.filter (·.isPrintable)).map (ofCommand called))

end Layout

end GameScript
