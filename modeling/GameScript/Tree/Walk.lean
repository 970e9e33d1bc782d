import GameScript.Tree

/-!
# Walking a tree

A walk visits a node and everything below it. It keeps the nodes still to visit in a list. Going
through a tree in depth visits the children of a node right after it, so that nodes come in the
order in which they are executed; going in breadth visits them after all nodes that wait already.
-/

namespace GameScript

inductive Strategy where
  | depth
  | breadth
  deriving DecidableEq, Repr

structure Walk where
  strategy : Strategy
  /-- The nodes to visit next, in order. -/
  waiting : List NodeId

namespace Walk

def start (strategy : Strategy) (id : NodeId) : Walk := ⟨strategy, [id]⟩

def hasNext (w : Walk) : Bool := !w.waiting.isEmpty

def follow (strategy : Strategy) (children waiting : List NodeId) : List NodeId :=
  match strategy with
  | .depth => children ++ waiting
  | .breadth => waiting ++ children

def next? (t : Tree) (w : Walk) : Option (NodeId × Walk) :=
  match w.waiting with
  | [] => none
  | id :: waiting => some (id, ⟨w.strategy, follow w.strategy (t.children id).toList waiting⟩)

/-- Visit the next node, which the caller knows to exist. -/
def advance (t : Tree) (w : Walk) : Except Fault (NodeId × Walk) :=
  match w.next? t with
  | some found => .ok found
  | none => .error .walkExhausted

/-- Visit at most `steps` nodes; `seen` holds those visited before. -/
def collect (t : Tree) : Nat → Walk → Array NodeId → Array NodeId
  | 0, _, seen => seen
  | steps + 1, w, seen =>
    match w.next? t with
    | none => seen
    | some (id, w) => collect t steps w (seen.push id)

end Walk

namespace Tree

/-- A node and everything below it. A subtree has no more nodes than the store. -/
def walk (t : Tree) (strategy : Strategy) (start : NodeId) : List NodeId :=
  (Walk.collect t t.size (.start strategy start) #[]).toList

/-- All nodes but the root, in the order of execution. -/
def preorder (t : Tree) : List NodeId := (t.walk .depth root).drop 1

def outlineLine (t : Tree) (depth : Nat) (id : NodeId) : String :=
  let n := t.node id
  "".pushn ' ' (2 * depth) ++ "[" ++ toString n.statement.line ++ "] " ++ n.origin.title ++ " " ++
    n.role.title ++
    " " ++ n.statement.display ++ "\n"

def outlineBelow (t : Tree) : Nat → Nat → NodeId → String
  | 0, _, _ => ""
  | levels + 1, depth, id =>
    (t.children id).foldl
      (fun out child => out ++ t.outlineLine depth child ++ outlineBelow t levels (depth + 1) child)
      ""

def outline (t : Tree) : String := t.outlineBelow t.size 0 root

end Tree

/-! ### The order of execution -/

/-- The nodes of a tree in the order of execution, with what comes at or after each place. -/
structure Order where
  nodes : List NodeId
  /-- The place of each node. A node that is not in the tree is beyond the end. -/
  places : Array Nat
  /-- The first numbered node at or after each place, the end included. -/
  upcoming : Array (Option NodeId)

namespace Order

def placesOf (size : Nat) (nodes : List NodeId) : Array Nat :=
  (nodes.zipIdx).foldl (fun places (id, place) => places.setIfInBounds id place)
    (Array.replicate size (nodes.length + 1))

/-- The first numbered node of each suffix. -/
def upcomingOf (t : Tree) (nodes : List NodeId) : List (Option NodeId) :=
  nodes.foldr (fun id later => (if (t.node id).index.isSome then some id
    else later.head?.join) :: later)
    [none]

def of (t : Tree) : Order :=
  let nodes := t.preorder
  ⟨nodes, placesOf t.size nodes, (upcomingOf t nodes).toArray⟩

def place (o : Order) (id : NodeId) : Nat := o.places.getD id (o.nodes.length + 1)

def targetFrom (o : Order) (place : Nat) : Target :=
  match (o.upcoming[place]?).join with
  | some id => .node id
  | none => .endOfScript

/-- The first numbered node after a node and everything below it. -/
def afterSubtree (o : Order) (t : Tree) (id : NodeId) : Target :=
  o.targetFrom (o.place (t.lastOfSubtree id) + 1)

end Order

end GameScript
