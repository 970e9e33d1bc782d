import GameScript.Session

/-!
# Destinations

Turns jump targets into indices and packs the return values of commands. What could not be resolved
because of a reported problem gets the unresolved destination.
-/

namespace GameScript.Session

def word16? (n : Nat) : Option UInt16 := if n < UInt16.size then some (UInt16.ofNat n) else none

def targetIndex? (s : Session) : Target → Option UInt16
  | .node id => (s.node id).index
  | .endOfScript => word16? s.standardCount

/-- The destination of a jump. -/
def destination (s : Session) (id : NodeId) : Except Fault UInt16 :=
  let n := s.node id
  if n.hasError then .ok unresolved
  else
    match n.target.bind s.targetIndex? with
    | some d => .ok d
    | none =>
      if s.hasProblems then .ok unresolved else .error (.missingDestination n.statement.line)

/-- The return value of a command with a return slot. -/
def returnValueOf (s : Session) (id : NodeId) : Except Fault ReturnValue :=
  let n := s.node id
  let conditional := n.statement.conditional
  if conditional = .assign then
    match n.statement.assigned?.bind fun t => s.symbols.findVariable? t.value with
    | some v => .ok (.assignment v.id)
    | none =>
      if n.hasError || s.hasProblems then .ok (.assignment unresolved)
      else .error (.missingVariable n.statement.line)
  else if conditional.isJump then do
    return .of conditional (← s.destination id)
  else .ok (.of conditional 0)

def jumpsAlways (form : FormId) : Bool :=
  form == FormId.hiddenJump || form == FormId.breakLoop || form == FormId.continueLoop ||
    form == FormId.gotoLabel || form == FormId.gosub

/-- Give a label the index of its definition. -/
def placeLabel (s : Session) (id : NodeId) : Session :=
  let n := s.node id
  match n.statement.label?, n.index with
  | some label, some index =>
    if s.labels[label]? = some id then
      { s with symbols := s.symbols.modifyLabel label fun symbol => { symbol with id := index } }
    else s
  | _, _ => s

/-- Resolve one node. -/
def resolveNode (s : Session) (id : NodeId) : Except Fault Session :=
  let n := s.node id
  if !n.isLive then .ok s
  else if n.is FormId.defineLabel then .ok (s.placeLabel id)
  else if n.statement.returnSlot?.isSome then do
    let value ← s.returnValueOf id
    return s.modify id fun n => { n with returnValue := some value }
  else if jumpsAlways n.statement.form then do
    let d ← s.destination id
    return s.modify id fun n => { n with jump := some d }
  else .ok s

def resolve (s : Session) : Except Fault Session := s.tree.preorder.foldlM resolveNode s

end GameScript.Session
