import GameScript.Problem
import GameScript.ReturnValue
import GameScript.Statement

/-!
# Command trees

Statements nest: the body of a block hangs under the statement that opens it. The nodes of a tree
are kept in one store and named by their place in it, in the order of their creation. Node 0 is the
root, which stands for the whole script.

Each node knows its parent and its children. The operations here do not keep the two in step by
themselves: a node is created detached, and attached by `append` or `insert`.
-/

namespace GameScript

/-- The name of a node: its place in the store. -/
abbrev NodeId := Nat

inductive Target where
  | node (id : NodeId)
  | endOfScript
  deriving DecidableEq, Repr

/-- A statement in the tree, with what the compiler found out about it. -/
structure Node where
  statement : Statement
  origin : Origin
  parent : Option NodeId := none
  children : Array NodeId := #[]
  /-- A problem was reported against the node. -/
  hasError : Bool := false
  /-- The problem found while reading the line. -/
  diagnostic : Option Diagnostic := none
  /-- The shorthand that the node was generated from. -/
  header : Option NodeId := none
  /-- The expression of the node in evaluation order. -/
  evalOrder : List Token := []
  target : Option Target := none
  /-- The place among the executed commands. -/
  index : Option UInt16 := none
  returnValue : Option ReturnValue := none
  jump : Option UInt16 := none
  deriving DecidableEq, Repr

namespace Node

instance : Inhabited Node := ⟨{ statement := .nop 0, origin := .source }⟩

/-- The role in the block structure. The header of a shorthand has none: what it was expanded into
has taken its place. -/
def role (n : Node) : Role := if n.origin = .header then .idle else n.statement.role

def isLive (n : Node) : Bool := n.statement.isStandard && !n.statement.commented

/-- The node is a command of this form that is not commented out. -/
def is (n : Node) (form : FormId) : Bool := !n.statement.commented && n.statement.form == form

end Node

structure Tree where
  nodes : Array Node
  deriving DecidableEq, Repr

namespace Tree

def root : NodeId := 0

def empty : Tree := ⟨#[default]⟩

instance : Inhabited Tree := ⟨empty⟩

/-- The number of nodes, the root included. -/
def size (t : Tree) : Nat := t.nodes.size

def isEmpty (t : Tree) : Bool := t.size == 1

def node (t : Tree) (id : NodeId) : Node := t.nodes.getD id default

def modify (t : Tree) (id : NodeId) (f : Node → Node) : Tree := ⟨t.nodes.modify id f⟩

def children (t : Tree) (id : NodeId) : Array NodeId := (t.node id).children

def parent? (t : Tree) (id : NodeId) : Option NodeId := (t.node id).parent

def role (t : Tree) (id : NodeId) : Role := (t.node id).role

/-! ### Building -/

/-- Create a detached node. -/
def create (t : Tree) (n : Node) : Tree × NodeId :=
  let id := t.nodes.size
  (⟨t.nodes.push n⟩, id)

def append (t : Tree) (parent child : NodeId) : Tree :=
  (t.modify child fun n => { n with parent := some parent }).modify parent fun n =>
    { n with children := n.children.push child }

/-- Put `child` among the children of `parent` at a position, or last if there are fewer. -/
def insert (t : Tree) (parent : NodeId) (position : Nat) (child : NodeId) : Tree :=
  (t.modify child fun n => { n with parent := some parent }).modify parent fun n =>
    { n with children :=
        n.children.insertIdx (min position n.children.size) child (Nat.min_le_right ..) }

def addChild (t : Tree) (parent : NodeId) (n : Node) : Tree × NodeId :=
  let (t, id) := t.create n
  (t.append parent id, id)

/-- Detach all children of a node and give them back in order. -/
def takeChildren (t : Tree) (id : NodeId) : Tree × List NodeId :=
  let children := (t.children id).toList
  let t := t.modify id fun n => { n with children := #[] }
  (children.foldl (fun t child => t.modify child fun n => { n with parent := none }) t, children)

/-! ### Neighbours -/

def position? (t : Tree) (id : NodeId) : Option Nat := do
  (t.children (← t.parent? id)).idxOf? id

def previous? (t : Tree) (id : NodeId) : Option NodeId := do
  let siblings := t.children (← t.parent? id)
  match ← siblings.idxOf? id with
  | 0 => none
  | position + 1 => siblings[position]?

def next? (t : Tree) (id : NodeId) : Option NodeId := do
  let siblings := t.children (← t.parent? id)
  siblings[(← siblings.idxOf? id) + 1]?

def lastChild? (t : Tree) (id : NodeId) : Option NodeId := (t.children id).back?

/-- A node and the nodes above it, at most `steps` of them. -/
def climb (t : Tree) : Nat → Option NodeId → List NodeId
  | 0, _ => []
  | _, none => []
  | steps + 1, some id => id :: climb t steps (t.parent? id)

/-- The nodes above a node, nearest first. -/
def ancestors (t : Tree) (id : NodeId) : List NodeId := t.climb t.size (t.parent? id)

/-- The last node below a node, in at most `steps` levels. -/
def descend (t : Tree) : Nat → NodeId → NodeId
  | 0, id => id
  | steps + 1, id =>
    match t.lastChild? id with
    | none => id
    | some child => descend t steps child

def lastOfSubtree (t : Tree) (id : NodeId) : NodeId := t.descend t.size id

def isClosed (t : Tree) (id : NodeId) : Bool :=
  match t.lastChild? id with
  | none => false
  | some last => t.role last == .close

def enclosingLoop? (t : Tree) (id : NodeId) : Option NodeId :=
  (t.ancestors id).find? fun a => t.role a == .loop

end Tree

end GameScript
