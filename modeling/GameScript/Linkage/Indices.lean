import GameScript.Session

/-!
# Indices

Numbers the executed commands in the order of execution. The largest word marks unresolved
destinations, so there are 65535 indices.
-/

namespace GameScript.Session

def indexLimit : Nat := unresolved.toNat

structure Numbering where
  session : Session
  next : Nat := 0
  /-- The lack of indices was reported. -/
  reported : Bool := false

/-- Number one node. -/
def numberNode (n : Numbering) (id : NodeId) : Numbering :=
  if !(n.session.node id).isLive then n
  else if n.next < indexLimit then
    let index := UInt16.ofNat n.next
    { n with
      session := n.session.modify id fun m => { m with index := some index }
      next := n.next + 1 }
  else if n.reported then n
  else { n with session := n.session.report id (.scriptTooLong indexLimit), reported := true }

def assignIndices (s : Session) : Session :=
  let n := s.tree.preorder.foldl numberNode { session := s }
  { n.session with standardCount := n.next }

end GameScript.Session
