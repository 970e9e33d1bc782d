import GameScript.Analysis.Blocks
import GameScript.Analysis.Constants
import GameScript.Analysis.Names
import GameScript.Analysis.Parameters
import GameScript.Analysis.Subroutines
import GameScript.Command.Emission
import GameScript.Linkage.Destinations
import GameScript.Linkage.Indices
import GameScript.Linkage.Targets
import GameScript.Shorthand.Expand
import GameScript.Tree.Nesting

/-!
# Compiling scripts

A script is read line by line, nested into a tree, freed of shorthands and then worked on by a fixed
sequence of passes. Problems of the script never stop the sequence.
-/

namespace GameScript

/-- A step of the work on a tree. -/
inductive Pass where
  | identifyNames
  | identifyConstants
  | checkParameters
  | checkBlocks
  | checkSubroutines
  | assignIndices
  | link
  | resolve
  | emit
  deriving DecidableEq, Repr

namespace Pass

/-- The passes in the order in which they run. -/
def all : List Pass :=
  [.identifyNames, .identifyConstants, .checkParameters, .checkBlocks, .checkSubroutines,
    .assignIndices, .link, .resolve, .emit]

/-- The name of a pass in reports. -/
def name : Pass → String
  | .identifyNames => "variable-identifier"
  | .identifyConstants => "constant-identifier"
  | .checkParameters => "command-verifier"
  | .checkBlocks => "logic-verifier"
  | .checkSubroutines => "termination-verifier"
  | .assignIndices => "node-indexer"
  | .link => "node-linker"
  | .resolve => "linkage-finalizer"
  | .emit => "command-generator"

def ofName? (s : String) : Option Pass := all.find? fun p => p.name == s

/-- Run a pass. -/
def run (e : Setting) (s : Session) : Pass → Except Fault Session
  | .identifyNames => .ok (s.identifyNames e)
  | .identifyConstants => .ok s.identifyConstants
  | .checkParameters => .ok (s.checkParameters e)
  | .checkBlocks => .ok s.checkBlocks
  | .checkSubroutines => .ok s.checkSubroutines
  | .assignIndices => .ok s.assignIndices
  | .link => s.link
  | .resolve => s.resolve
  | .emit => .ok s.emit

end Pass

def Session.runPasses (e : Setting) (s : Session) : Except Fault Session :=
  Pass.all.foldlM (Pass.run e) s

structure Output where
  commands : Array Command
  log : DiagnosticLog
  symbols : List Symbol
  /-- The number of executed commands. -/
  standardCount : Nat

namespace Output

def isSuccessful (o : Output) : Bool := o.log.isEmpty

/-- The commands that the engine executes, in the order of their indices. -/
def executed (o : Output) : List Command := o.commands.toList.filter fun c => c.index.isSome

def ofSession (s : Session) : Output := ⟨s.commands, s.log, s.symbols.toList, s.standardCount⟩

end Output

/-- The tree of a script, before shorthands are expanded. -/
def buildTree (e : Setting) (lines : List String) : Tree :=
  .nest (Statement.readAll e.grammar e.version lines)

def compile (e : Setting) (lines : List String) : Except Fault Output := do
  let s ← (Session.start (buildTree e lines)).expand e
  return .ofSession (← s.runPasses e)

end GameScript
