import GameScript.Session

/-!
# Jump targets

Finds the node where every jump leads.

* `if` and `else if` lead past their body: to the `else if` that follows, or else to the first
  command after the keyword that closes the body.
* `while` and `skip if` lead to the first command after everything below them.
* `break` leads after the loop, `continue` to its head, a label jump to the definition of the label.
* A hidden jump leads to the head of its loop, or after the chain of branches that it stands in.
-/

namespace GameScript

namespace Tree

/-- The last block of the chain of branches that a block belongs to, if an `end` closes the chain.
At most `steps` blocks are passed. -/
def chainEnd? (t : Tree) : Nat → NodeId → Option NodeId
  | 0, _ => none
  | steps + 1, id =>
    if t.isClosed id then some id
    else
      match t.next? id with
      | none => none
      | some next =>
        if (t.role id).isTest && (t.role next).continuesChain then t.chainEnd? steps next else none

/-- The target of a test: what runs when its body is not entered. -/
def testTarget? (t : Tree) (o : Order) (id : NodeId) : Option Target :=
  if t.isClosed id then some (o.afterSubtree t id)
  else
    match t.next? id with
    | none => none
    | some next =>
      match t.role next with
      | .elseBranch => some (.node next)
      | .otherwise => some (o.targetFrom (o.place next + 1))
      | _ => none

def hiddenTarget? (t : Tree) (o : Order) (id : NodeId) : Option Target := do
  let parent ← t.parent? id
  match t.role parent with
  | .loop => some (.node parent)
  | .branch | .elseBranch => (t.chainEnd? t.size parent).map (o.afterSubtree t)
  | _ => none

/-- Whether a node jumps, and where to. `none` is a jump without a target. -/
def target? (t : Tree) (o : Order) (labels : Std.TreeMap String NodeId) (id : NodeId) :
    Option (Option Target) :=
  let n := t.node id
  if n.statement.form = FormId.hiddenJump then (t.hiddenTarget? o id).map some
  else if n.statement.form = FormId.gotoLabel || n.statement.form = FormId.gosub then
    (n.statement.label?.bind fun label => labels[label]?).map fun definition =>
      some (.node definition)
  else
    match n.role with
    | .branch | .elseBranch => (t.testTarget? o id).map some
    | .loop | .skip => some (some (o.afterSubtree t id))
    | .leave => (t.enclosingLoop? id).map fun head => some (o.afterSubtree t head)
    | .again => (t.enclosingLoop? id).map fun head => some (.node head)
    | _ => some none

end Tree

namespace Session

/-- Link one node. A jump without a target is a fault, unless problems were reported that explain
it. -/
def linkNode (o : Order) (s : Session) (id : NodeId) : Except Fault Session :=
  let n := s.node id
  if n.hasError || !n.isLive then .ok s
  else
    match s.tree.target? o s.labels id with
    | some none => .ok s
    | some (some target) => .ok (s.modify id fun n => { n with target := some target })
    | none =>
      if s.hasProblems then .ok (s.modify id fun n => { n with hasError := true })
      else .error (.missingTarget n.statement.line)

def link (s : Session) : Except Fault Session :=
  let o := Order.of s.tree
  o.nodes.foldlM (linkNode o) s

end Session

end GameScript
