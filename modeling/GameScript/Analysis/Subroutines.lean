import Std.Data.TreeSet
import GameScript.Session

/-!
# Subroutines

A label that some `gosub` calls starts a subroutine. A subroutine must come to an `endsub`, a
`return` or a `goto` outside of all blocks before the next subroutine starts or the script ends. A
jump target after such a command makes the code that follows reachable again. Before the first
subroutine an `endsub` has no place.
-/

namespace GameScript.Session

/-- The labels that some `gosub` calls. -/
def calledLabels (t : Tree) : Std.TreeSet String :=
  (t.walk .depth Tree.root).foldl
    (fun called id =>
      let n := t.node id
      match if n.is FormId.gosub then n.statement.label? else none with
      | some label => called.insert label
      | none => called)
    ∅

/-- What is known after some statements outside of all blocks. -/
structure Course where
  /-- The label of the subroutine that goes on, and whether it has come to its end. -/
  current : Option (NodeId × Bool) := none
  /-- The labels of subroutines that run into what follows them, last one first. -/
  unterminated : List NodeId := []
  /-- The `endsub`s before the first subroutine, last one first. -/
  stray : List NodeId := []

namespace Course

def finish (c : Course) : Course :=
  match c.current with
  | some (label, false) => { c with unterminated := label :: c.unterminated, current := none }
  | _ => { c with current := none }

def passLabel (called : Std.TreeSet String) (c : Course) (id : NodeId) (label : String) : Course :=
  if called.contains label then { c.finish with current := some (id, false) }
  else { c with current := c.current.map fun (start, _) => (start, false) }

/-- The `endsub`s of a subtree, in the order of execution. -/
def endsubs (t : Tree) (id : NodeId) : List NodeId :=
  (t.walk .depth id).filter fun below => (t.node below).is FormId.endsub

/-- Pass a statement outside of all blocks, with everything below it. -/
def pass (t : Tree) (called : Std.TreeSet String) (c : Course) (id : NodeId) : Course :=
  let n := t.node id
  if n.statement.commented then c
  else if n.is FormId.defineLabel then c.passLabel called id (n.statement.label?.getD "")
  else
    match c.current with
    | some (start, ended) =>
      let ends := n.is FormId.endsub || n.is FormId.leaveScript || n.is FormId.gotoLabel
      { c with current := some (start, ended || ends) }
    | none => { c with stray := (endsubs t id).reverse ++ c.stray }

end Course

/-- Check that subroutines come to an end. -/
def checkSubroutines (s : Session) : Session :=
  let t := s.tree
  let course := ((t.children Tree.root).foldl (Course.pass t (calledLabels t)) {}).finish
  let reportLabel (s : Session) (id : NodeId) : Session :=
    s.report id (.subroutineUnterminated ((t.node id).statement.label?.getD ""))
  let s := course.unterminated.reverse.foldl reportLabel s
  course.stray.reverse.foldl (fun s id => s.report id .endsubOutsideSubroutine) s

end GameScript.Session
