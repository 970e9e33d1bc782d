import GameScript.Session

/-!
# Constants

A variable is a constant when the script writes it once and that one write assigns a fixed value
outside of all blocks. Arguments are never constants.
-/

namespace GameScript

/-- The names of the variables that a statement writes: the one its result is assigned to, and every
parameter that has to be a variable. -/
def Statement.written (s : Statement) : List String :=
  let assigned := s.assigned?.toList
  let others := (s.parameters.filter fun p => p.kind == .var).filterMap (·.soleVariable?)
  (assigned ++ others).map (·.value)

namespace Session

def recordWrite (id : NodeId) (symbols : SymbolTable) (name : String) : SymbolTable :=
  symbols.modifyVariable name fun v =>
    { v with writes := v.writes + 1, firstWrite := v.firstWrite <|> some id }

def recordWrites (s : Session) (id : NodeId) : Session :=
  let n := s.node id
  if n.isLive && n.statement.isRecognised then
    { s with symbols := n.statement.written.foldl (recordWrite id) s.symbols }
  else s

/-- The node assigns a fixed value outside of all blocks. -/
def assignsConstant (n : Node) : Bool :=
  n.statement.form == FormId.expression && n.statement.conditional == .assign &&
    ((n.statement.parameters.find? fun p => p.kind == .expression).any fun p => p.isLiteral) &&
    n.parent == some Tree.root

def markConstant (t : Tree) (v : Symbol) : Symbol :=
  match v.firstWrite with
  | some writer =>
    if v.kind = .var && v.writes = 1 && assignsConstant (t.node writer) then
      { v with kind := .constant }
    else v
  | none => v

def identifyConstants (s : Session) : Session :=
  let s := s.tree.preorder.foldl recordWrites s
  { s with symbols := s.symbols.mapVariables (markConstant s.tree) }

end Session

end GameScript
