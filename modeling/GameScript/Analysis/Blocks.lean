import GameScript.Session

/-!
# Block structure

Checks that every block is closed, that `else`, `else if` and `end` belong to a block, that
`skip if` skips exactly one plain command, and that `break` and `continue` stand inside a loop.
-/

namespace GameScript.Tree

/-- The block ends with its own `end` or is continued by an `else` or `else if`. -/
def isCompleted (t : Tree) (id : NodeId) (role : Role) : Bool :=
  t.isClosed id || (role.isTest && (t.next? id).any fun next => (t.role next).continuesChain)

/-- How to name the opener of a block: a generated loop by its shorthand, others by their
keyword. -/
def openerText (t : Tree) (id : NodeId) (role : Role) : String :=
  let n := t.node id
  match if n.origin = .expanded then n.header else none with
  | some header => (t.node header).statement.text
  | none =>
    match role with
    | .branch => "if"
    | .elseBranch => "else if"
    | .otherwise => "else"
    | _ => "while"

def unclosed? (t : Tree) (id : NodeId) (role : Role) : Option Problem :=
  if t.isCompleted id role then none else some (.blockUnclosed (t.openerText id role))

/-- An `else` or `else if` follows a branch that is still open. -/
def continuesBranch (t : Tree) (id : NodeId) : Bool :=
  (t.previous? id).any fun previous => (t.role previous).isTest && !t.isClosed previous

/-- An `end` is the last child of a block. -/
def endsBlock (t : Tree) (id : NodeId) : Bool :=
  (t.parent? id).any fun parent =>
    parent != root && (t.role parent).opensBlock && t.lastChild? parent == some id

/-- The problem of a `skip if`, judged by what it skips. -/
def skipProblem? (t : Tree) (id : NodeId) : Option Problem :=
  let children := (t.children id).toList
  let skipped := children.filter fun child => (t.node child).isLive
  let isBlock (child : NodeId) : Bool :=
    let n := t.node child
    n.role.opensBlock || n.origin == .expanded
  if 1 < skipped.length || skipped.any isBlock ||
      children.any fun child => (t.node child).origin == .header then some .skipBlock
  else if skipped.isEmpty then some .skipEmpty
  else none

/-- The problem of a node in the block structure. -/
def blockProblem? (t : Tree) (id : NodeId) : Option Problem :=
  let role := t.role id
  match role with
  | .otherwise => if t.continuesBranch id then t.unclosed? id role else some .elseUnmatched
  | .elseBranch => if t.continuesBranch id then t.unclosed? id role else some .elseIfUnmatched
  | .close => if t.endsBlock id then none else some .endUnmatched
  | .branch | .loop => t.unclosed? id role
  | .skip => t.skipProblem? id
  | .leave => if (t.enclosingLoop? id).isSome then none else some .breakOutsideLoop
  | .again => if (t.enclosingLoop? id).isSome then none else some .continueOutsideLoop
  | .plain | .idle => none

end GameScript.Tree

namespace GameScript.Session

def checkBlock (s : Session) (id : NodeId) : Session :=
  if (s.node id).statement.commented then s
  else
    match s.tree.blockProblem? id with
    | some p => s.report id p
    | none => s

def checkBlocks (s : Session) : Session := s.tree.preorder.foldl checkBlock s

end GameScript.Session
