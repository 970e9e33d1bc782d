import Std.Data.TreeSet
import GameScript.Command
import GameScript.Grammar
import GameScript.ObjectLibrary
import GameScript.Symbol
import GameScript.Tree.Walk

/-!
# Compilation sessions

A compilation starts from a `Setting`, which stays as it is, and works on a `Session`, which
collects the results: the tree with what is known about its nodes, the diagnostics, the symbols and
at last the commands.
-/

namespace GameScript

/-- What a script is compiled with. -/
structure Setting where
  grammar : Grammar
  version : Version
  /-- The names of the arguments. They are numbered before all other variables. -/
  arguments : List String := []
  /-- Without a library every object name is accepted. -/
  objects : Option ObjectLibrary := none

/-! ### Names for generated variables -/

/-- Names that start like this belong to the compiler. -/
def reservedMark : String := "__"

def iteratorName (n : Nat) : String := reservedMark ++ "msci_iterator" ++ toString n

structure NameSupply where
  /-- The number to try next. -/
  next : Nat := 0
  /-- The names that are taken. -/
  used : Std.TreeSet String := ∅

namespace NameSupply

/-- The first number from `n` whose name is free, or the one after `steps` taken ones. -/
def firstFree (used : Std.TreeSet String) : Nat → Nat → Nat
  | 0, n => n
  | steps + 1, n => if used.contains (iteratorName n) then firstFree used steps (n + 1) else n

/-- A name that is not taken. Among one more candidates than taken names, one is free. -/
def fresh (s : NameSupply) : String × NameSupply :=
  let n := firstFree s.used s.used.size s.next
  (iteratorName n, ⟨n + 1, s.used.insert (iteratorName n)⟩)

end NameSupply

/-! ### Sessions -/

/-- The state of a compilation. -/
structure Session where
  tree : Tree
  log : DiagnosticLog := #[]
  symbols : SymbolTable := .empty
  /-- The node that defines each label. -/
  labels : Std.TreeMap String NodeId := ∅
  /-- The number of executed commands. -/
  standardCount : Nat := 0
  commands : Array Command := #[]
  names : NameSupply := {}

namespace Session

def start (t : Tree) : Session := { tree := t }

def node (s : Session) (id : NodeId) : Node := s.tree.node id

def modify (s : Session) (id : NodeId) (f : Node → Node) : Session :=
  { s with tree := s.tree.modify id f }

def report (s : Session) (id : NodeId) (p : Problem) : Session :=
  let statement := (s.node id).statement
  { s with
    tree := s.tree.modify id fun n => { n with hasError := true }
    log := s.log.push (.of p statement.line statement.display) }

def hasProblems (s : Session) : Bool := !s.log.isEmpty

end Session

end GameScript
