import GameScript.Shorthand
import GameScript.Statement.Reader

/-!
# Expanding shorthands in a tree

`Session.expand` replaces every shorthand by what it stands for. The line of the shorthand stays in
the tree as an auxiliary header. The generated commands follow it and carry its line number; the
body of a loop moves below the generated head, after the lines that start each round.

A shorthand that cannot be expanded is reported and left as it is.
-/

namespace GameScript

structure Generated where
  before : List Statement
  head : Option Statement
  round : List Statement
  deriving DecidableEq, Repr

namespace Generated

/-- Read a generated line. It must be a command without problems. -/
def readLine (e : Setting) (number : Nat) (line : String) : Except Problem Statement :=
  let r := Statement.read e.grammar e.version number line
  if r.diagnostic.isNone && r.statement.isRecognised then .ok r.statement
  else .error (.expansionFailed line)

/-- Read the lines of an expansion. The first line that cannot be read is reported. -/
def read (e : Setting) (number : Nat) (x : Expansion) : Except Problem Generated := do
  let before ← x.before.mapM (readLine e number)
  let head ← match x.head with
    | some line => some <$> readLine e number line
    | none => pure none
  let round ← x.round.mapM (readLine e number)
  return ⟨before, head, round⟩

end Generated

namespace Tree

def generatedNode (header : NodeId) (s : Statement) : Node :=
  { statement := s, origin := .expanded, header := some header }

/-- Insert generated nodes below `parent`, from a position on. -/
def insertGenerated (header parent : NodeId) : Tree → Nat → List Statement → Tree
  | t, _, [] => t
  | t, position, s :: rest =>
    let (t, id) := t.create (generatedNode header s)
    insertGenerated header parent (t.insert parent position id) (position + 1) rest

def appendGenerated (header parent : NodeId) (t : Tree) (statements : List Statement) : Tree :=
  statements.foldl (fun t s => (t.addChild parent (generatedNode header s)).1) t

def appendAll (t : Tree) (parent : NodeId) (ids : List NodeId) : Tree :=
  ids.foldl (fun t id => t.append parent id) t

/-- The header of a shorthand is no longer executed. -/
def retire (t : Tree) (header : NodeId) : Tree :=
  t.modify header fun n =>
    { n with origin := .header, statement := { n.statement with kind := .auxiliary } }

/-- Put the statements that stand for a shorthand behind its header. -/
def replace (t : Tree) (parent header : NodeId) (g : Generated) : Tree :=
  let (t, body) := t.takeChildren header
  let t := t.retire header
  let position := (t.position? header).getD 0 + 1
  let t := insertGenerated header parent t position g.before
  match g.head with
  | none => t.appendAll header body
  | some head =>
    let (t, id) := t.create (generatedNode header head)
    let t := t.insert parent (position + g.before.length) id
    (appendGenerated header id t g.round).appendAll id body

end Tree

namespace Session

/-- Mark the names of all variables of the script as taken. -/
def seedNames (s : Session) : Session :=
  let taken := s.tree.preorder.foldl
    (fun used id => (s.node id).statement.vars.foldl (fun used t => used.insert t.value) used)
    s.names.used
  { s with names := { s.names with used := taken } }

def isPendingShorthand (n : Node) : Bool :=
  n.origin == .source && !n.statement.commented && n.diagnostic.isNone &&
  n.statement.form.isShorthand

/-- Expand one shorthand. -/
def expandOne (e : Setting) (s : Session) (header : NodeId) : Except Fault Session :=
  let statement := (s.node header).statement
  match statement.plan s.names with
  | .error p => .ok (s.report header p)
  | .ok (x, names) =>
    let s := { s with names }
    match Generated.read e statement.line x with
    | .error p => .ok (s.report header p)
    | .ok g =>
      match s.tree.parent? header with
      | none => .error (.detachedShorthand statement.line)
      | some parent => .ok { s with tree := s.tree.replace parent header g }

/-- Expand all shorthands, in the order of execution. -/
def expand (e : Setting) (s : Session) : Except Fault Session :=
  let s := s.seedNames
  (s.tree.preorder.filter fun id => isPendingShorthand (s.node id)).foldlM (expandOne e) s

end Session

end GameScript
