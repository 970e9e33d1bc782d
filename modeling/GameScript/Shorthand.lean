import GameScript.Problem
import GameScript.Session

/-!
# Shorthands

`dim`, `for` and `for each` are shorthands: each stands for lines of plain commands.

* `dim $a = v, w` allocates an array and fills it.
* `for $i = A to B step S` keeps the limit in a generated variable, sets `$i` one step before `A`,
  and loops while the limit is ahead; each round first takes a step.
* `for each $x in array $a` counts a variable down from the size of the array, and each round takes
  the element at that index.
-/

namespace GameScript

/-- The lines that stand for a shorthand. -/
structure Expansion where
  /-- The lines before the loop, or all lines if there is no loop. -/
  before : List String
  /-- The head of the loop. -/
  head : Option String
  /-- The lines at the start of every round, ahead of the body. -/
  round : List String
  deriving DecidableEq, Repr

namespace Expansion

/-- The expansion of `dim`. -/
def dim (array : String) (items : List (List Token)) : Expansion :=
  let fill (item : List Token) (index : Nat) : String :=
    array ++ "[" ++ toString index ++ "] = " ++ Token.join item
  { before :=
      (array ++ " = array alloc: size=" ++ toString items.length) ::
        items.zipIdx.map fun (item, index) => fill item index
    head := none
    round := [] }

structure Step where
  text : String
  /-- Its value, if it is a literal. -/
  value : Option Int

def Step.one : Step := ⟨"1", some 1⟩

def Step.of (p : Parameter) : Step := ⟨p.text, p.literalNumber?⟩

/-- The loop counts down. A step that is no literal is taken to count up. -/
def Step.descends (s : Step) : Bool := s.value.any (· < 0)

def Step.magnitude (s : Step) : String :=
  match s.value with
  | some v => toString v.natAbs
  | none => s.text

/-- The value one step before the first round. -/
def startValue (initial : Parameter) (s : Step) : String :=
  match initial.literalNumber?, s.value with
  | some a, some v => toString (Text.wrap64 (a - v))
  | _, _ => initial.text ++ (if s.descends then " + " else " - ") ++ s.magnitude

def counted (counter : String) (initial limit : Parameter) (s : Step) (iterator : String) :
    Expansion :=
  { before := [iterator ++ " = " ++ limit.text, counter ++ " = " ++ startValue initial s]
    head := some ("while " ++ counter ++ (if s.descends then " > " else " < ") ++ iterator)
    round := [counter ++ " = " ++ counter ++ (if s.descends then " - " else " + ") ++ s.magnitude] }

def each (item array counter : String) : Expansion :=
  { before := [counter ++ " = size of array " ++ array]
    head := some ("while " ++ counter)
    round := ["dec " ++ counter ++ " =", item ++ " = " ++ array ++ "[" ++ counter ++ "]"] }

end Expansion

def NameSupply.freshVariable (s : NameSupply) : String × NameSupply :=
  let (name, s) := s.fresh
  ("$" ++ name, s)

namespace Statement

/-- The expansion of a counted loop with these parameters. A literal step of zero is refused. -/
def planCounted (names : NameSupply) (counter initial limit : Parameter) (step : Expansion.Step) :
    Except Problem (Expansion × NameSupply) :=
  if step.value = some 0 then .error .stepZero
  else
    let (iterator, names) := names.freshVariable
    .ok (.counted counter.text initial limit step iterator, names)

/-- The expansion of a shorthand. A shorthand that lacks a parameter cannot be expanded. -/
def plan (s : Statement) (names : NameSupply) : Except Problem (Expansion × NameSupply) :=
  let lacking : Except Problem (Expansion × NameSupply) := .error (.expansionFailed s.text)
  if s.form = FormId.dim then
    match s.parameters with
    | [] => lacking
    | array :: rest => .ok (.dim array.text ((rest.head?.map (·.items)).getD []), names)
  else if s.form = FormId.forLoop then
    match s.parameters with
    | counter :: initial :: limit :: _ => planCounted names counter initial limit .one
    | _ => lacking
  else if s.form = FormId.forLoopStep then
    match s.parameters with
    | counter :: initial :: limit :: step :: _ => planCounted names counter initial limit (.of step)
    | _ => lacking
  else if s.form = FormId.forEach then
    match s.parameters with
    | item :: array :: _ =>
      let (counter, names) := names.freshVariable
      .ok (.each item.text array.text counter, names)
    | _ => lacking
  else if s.form = FormId.forEachCounter then
    match s.parameters with
    | item :: array :: counter :: _ => .ok (.each item.text array.text counter.text, names)
    | _ => lacking
  else lacking

end Statement

end GameScript
