import GameScript.Source
import GameScript.TestCase
import GameScript.Text.Escaped

/-!
# Test reports

What compiling the script of a test case gave, and how it differs from what the case expects. Of
several differences the first one counts, in the order diagnostics, number of commands, commands,
printed lines.
-/

namespace GameScript.TestCase

structure Report where
  findings : List Finding
  standardCount : Nat
  commands : List Sighting
  rendering : List String
  deriving DecidableEq, Repr

namespace Report

def of (o : Output) : Report :=
  { findings := o.log.toList.map Finding.of
    standardCount := o.standardCount
    commands := o.executed.filterMap Sighting.of?
    rendering := Source.render Source.defaultIndent o }

def toJson (r : Report) : Json :=
  .obj [("errors", .ofList Finding.toJson r.findings), ("standardCount", .nat r.standardCount),
    ("commands", .ofList Sighting.toJson r.commands), ("rendering", .ofList .str r.rendering)]

end Report

/-- A difference between a case and a report. -/
inductive Mismatch where
  /-- Both lists are sorted. -/
  | findings (expected actual : List Finding)
  | standardCount (expected actual : Nat)
  | missingCommand (index : UInt16)
  | command (expected actual : Sighting)
  /-- The first line that differs, counted from 1. -/
  | rendering (line : Nat) (expected actual : Option String)
  deriving DecidableEq, Repr

/-- The text of a difference. -/
def Mismatch.message : Mismatch → String
  | .findings expected actual =>
    "Diagnostics differ. expected=" ++ (Json.ofList Finding.toJson expected).render ++ " actual=" ++
      (Json.ofList Finding.toJson actual).render
  | .standardCount expected actual =>
    "Expected " ++ toString expected ++ " standard commands, actual " ++ toString actual ++ "."
  | .missingCommand index => "No standard command at index " ++ toString index.toNat ++ "."
  | .command expected actual =>
    "Command mismatch at index " ++ toString expected.index.toNat ++ ". expected=" ++
      expected.toJson.render ++
      " actual=" ++ actual.toJson.render
  | .rendering line expected actual =>
    "Rendering differs at line " ++ toString line ++ ". expected=" ++ Text.quotedOption expected ++
      " actual=" ++
      Text.quotedOption actual

def checkFindings (c : TestCase) (r : Report) : Except Mismatch Unit :=
  let expected := c.findings.mergeSort Finding.le
  let actual := r.findings.mergeSort Finding.le
  if expected = actual then .ok () else .error (.findings expected actual)

def checkCount (c : TestCase) (r : Report) : Except Mismatch Unit :=
  match c.standardCount with
  | none => .ok ()
  | some expected =>
    if expected = r.standardCount then .ok () else .error (.standardCount expected r.standardCount)

def checkCommand (r : Report) (expected : Sighting) : Except Mismatch Unit :=
  match r.commands.find? fun actual => actual.index == expected.index with
  | none => .error (.missingCommand expected.index)
  | some actual => if expected.admits actual then .ok () else .error (.command expected actual)

def checkLines (line : Nat) : List String → List String → Except Mismatch Unit
  | [], [] => .ok ()
  | expected, [] => .error (.rendering line expected.head? none)
  | [], actual => .error (.rendering line none actual.head?)
  | e :: expected, a :: actual =>
    if e = a then checkLines (line + 1) expected actual
    else .error (.rendering line (some e) (some a))

/-- Compare a report with what a case expects. -/
def check (c : TestCase) (r : Report) : Except Mismatch Unit := do
  c.checkFindings r
  c.checkCount r
  c.commands.forM (checkCommand r)
  match c.rendering with
  | none => return
  | some expected => checkLines 1 expected r.rendering

end GameScript.TestCase
