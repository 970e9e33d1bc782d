import GameScript.Session

/-!
# Emitting commands

Writes the nodes of the tree as commands, in the order of execution.
-/

namespace GameScript.Session

/-- The index of the first executed command at or after a node. -/
def referenceAt? (s : Session) (o : Order) (id : NodeId) : Option UInt16 :=
  match o.upcoming[o.place id]? with
  | some (some next) => (s.node next).index
  | some none => some (UInt16.ofNat (min s.standardCount 0xFFFF))
  | none => none

/-- What a command refers to: a generated one to what stands for its shorthand, an auxiliary one to
what follows it, an executed one to nothing. -/
def reference? (s : Session) (o : Order) (id : NodeId) : Option UInt16 :=
  let n := s.node id
  match n.header with
  | some header => s.referenceAt? o header
  | none => if n.isLive then none else s.referenceAt? o id

/-- The command of a node. -/
def commandOf (s : Session) (o : Order) (id : NodeId) : Command :=
  let n := s.node id
  { form := n.statement.form
    line := n.statement.line
    text := n.statement.text
    parameters := n.statement.parameters.map (·.text)
    evalOrder := n.evalOrder.map (·.text)
    role := n.statement.role
    kind := n.statement.kind
    origin := n.origin
    commented := n.statement.commented
    index := n.index
    reference := s.reference? o id
    returnValue := n.returnValue
    jump := n.jump }

def emit (s : Session) : Session :=
  let o := Order.of s.tree
  { s with commands := (o.nodes.map (s.commandOf o)).toArray }

end GameScript.Session
