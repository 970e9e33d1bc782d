import GameScript.Statement.Reader
import GameScript.Tree

/-!
# Nesting statements

`Tree.nest` hangs the statements of a script under the blocks they belong to.

* `if`, `while` and `skip if` open a block, `else` and `else if` close the branch before them and
  open the next one, `end` closes a block and becomes its last child.
* A `skip if` holds the statements up to the first executed one. A closing keyword ends it early.
* A closing keyword that fits nothing stays where it stands, so that no line is lost.
* A branch that an `else` or `else if` closes ends with a hidden jump past the chain, and a loop
  ends with a hidden jump back to its head.
-/

namespace GameScript

structure Nesting where
  tree : Tree
  /-- The blocks that are not closed yet, innermost first, without the root. -/
  pending : List NodeId

namespace Nesting

def empty : Nesting := ⟨.empty, []⟩

def top (pending : List NodeId) : NodeId := pending.head?.getD Tree.root

def closeSkips (t : Tree) (pending : List NodeId) : List NodeId :=
  pending.dropWhile fun id => t.role id == .skip

def addJump (t : Tree) (block : NodeId) (line : Nat) : Tree :=
  (t.addChild block { statement := .hiddenJump line, origin := .hiddenJump }).1

def addAlternative (t : Tree) (pending : List NodeId) (id : NodeId) (line : Nat) : Nesting :=
  match closeSkips t pending with
  | [] => ⟨t.append Tree.root id, []⟩
  | block :: outer =>
    if (t.role block).isTest then ⟨(addJump t block line).append (top outer) id, id :: outer⟩
    else ⟨t.append block id, block :: outer⟩

def addEnd (t : Tree) (pending : List NodeId) (id : NodeId) (line : Nat) : Nesting :=
  match closeSkips t pending with
  | [] => ⟨t.append Tree.root id, []⟩
  | block :: outer =>
    let t := if t.role block == .loop then addJump t block line else t
    ⟨t.append block id, outer⟩

def addInner (t : Tree) (pending : List NodeId) (id : NodeId) (s : Statement) : Nesting :=
  let block := top pending
  let t := t.append block id
  let pending := if s.isStandard && t.role block == .skip then pending.drop 1 else pending
  ⟨t, if s.role.opensBlock || s.role == .skip then id :: pending else pending⟩

/-- Add the next line. -/
def add (n : Nesting) (r : Reading) : Nesting :=
  let s := r.statement
  let (t, id) := n.tree.create { statement := s, origin := .source, diagnostic := r.diagnostic }
  match s.role with
  | .otherwise | .elseBranch => addAlternative t n.pending id s.line
  | .close => addEnd t n.pending id s.line
  | _ => addInner t n.pending id s

end Nesting

def Tree.nest (readings : List Reading) : Tree := (readings.foldl Nesting.add .empty).tree

end GameScript
