import GameScript.Session

/-!
# Variables and labels

Numbers the variables of a script, arguments first and the others in the order of appearance, and
finds the definition of every label. Reported are variables with a reserved name, labels defined
twice and jumps to labels that are not defined.
-/

namespace GameScript.Session

/-- The name of an argument, without leading dollar signs. -/
def argumentName (argument : String) : String :=
  String.ofList (Text.dropLeft (· == '$') argument.toList)

def declareArguments (arguments : List String) (t : SymbolTable) : SymbolTable :=
  arguments.foldl (fun t a => (t.declareVariable (argumentName a) .argument).1) t

/-- Number variables. The answer is false if a number was missing for one of them. -/
def declareVariables (t : SymbolTable) (tokens : List Token) : SymbolTable × Bool :=
  tokens.foldl
    (fun (t, ok) token =>
      let (t, id) := t.declareVariable token.value .var
      (t, ok && id.isSome))
    (t, true)

def reserved? (tokens : List Token) : Option Token :=
  tokens.find? fun t => reservedMark.toList.isPrefixOf t.value.toList

def isUserWritten (n : Node) : Bool := n.origin == .source || n.origin == .header

def defineLabel (s : Session) (id : NodeId) (label : String) : Session :=
  if s.symbols.hasLabel label then s.report id (.labelDuplicate label)
  else { s with symbols := (s.symbols.declareLabel label).1, labels := s.labels.insert label id }

/-- Number the variables of a node and report what is wrong with them. -/
def declareNode (s : Session) (id : NodeId) : Session :=
  let n := s.node id
  let tokens := n.statement.vars
  let (symbols, ok) := declareVariables s.symbols tokens
  let s := { s with symbols }
  let s :=
    match if isUserWritten n then reserved? tokens else none with
    | some t => s.report id (.nameReserved t.text reservedMark)
    | none => s
  if ok then s else s.report id .variableLimit

/-- Visit one node. `jumps` holds the jumps to labels so far, last one first. -/
def identifyNode : Session × List (NodeId × String) → NodeId → Session × List (NodeId × String)
  | (s, jumps), id =>
    let statement := (s.node id).statement
    if statement.commented || !statement.isRecognised then (s, jumps)
    else
      let s := s.declareNode id
      match statement.label? with
      | none => (s, jumps)
      | some label =>
        if statement.form = FormId.defineLabel then (s.defineLabel id label, jumps)
        else if statement.form = FormId.gotoLabel || statement.form = FormId.gosub then
          (s, (id, label) :: jumps)
        else (s, jumps)

def checkJump (s : Session) (jump : NodeId × String) : Session :=
  if s.labels.contains jump.2 then s else s.report jump.1 (.labelUndefined jump.2)

def identifyNames (e : Setting) (s : Session) : Session :=
  let s := { s with symbols := declareArguments e.arguments s.symbols }
  let (s, jumps) := s.tree.preorder.foldl identifyNode (s, [])
  jumps.reverse.foldl checkJump s

end GameScript.Session
