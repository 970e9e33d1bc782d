import Std.Data.TreeMap
import GameScript.Tree

/-!
# Symbols

Variables and labels have names in two separate spaces. Variables are numbered in the order in which
they are declared; a number is a 16-bit word, so there are at most 65536 of them. The number of a
label is the index of the command that defines it.
-/

namespace GameScript

inductive SymbolKind where
  | argument
  | constant
  | var
  | label
  deriving DecidableEq, Repr, Inhabited

namespace SymbolKind

def name : SymbolKind → String
  | .argument => "argument"
  | .constant => "constant"
  | .var => "variable"
  | .label => "label"

def ofName? (s : String) : Option SymbolKind :=
  [.argument, .constant, .var, .label].find? fun (k : SymbolKind) => k.name == s

end SymbolKind

/-- A name with its number. -/
structure Symbol where
  name : String
  /-- The number of a variable, or the index of a label. -/
  id : UInt16
  kind : SymbolKind
  /-- How many commands write the variable. -/
  writes : Nat := 0
  /-- The first of them. -/
  firstWrite : Option NodeId := none
  deriving DecidableEq, Repr, Inhabited

/-- The variables and labels of a script, each in the order of declaration. -/
structure SymbolTable where
  vars : Array Symbol := #[]
  /-- The place of each variable name. -/
  varPlaces : Std.TreeMap String Nat := ∅
  labels : Array Symbol := #[]
  /-- The place of each label name. -/
  labelPlaces : Std.TreeMap String Nat := ∅
  deriving Inhabited

namespace SymbolTable

/-- The number of variables that can be told apart. -/
def variableLimit : Nat := UInt16.size

def empty : SymbolTable := {}

def findVariable? (t : SymbolTable) (name : String) : Option Symbol := do
  t.vars[← t.varPlaces[name]?]?

def findLabel? (t : SymbolTable) (name : String) : Option Symbol := do
  t.labels[← t.labelPlaces[name]?]?

/-- The number of a variable. A new name gets the next number, while there is one. -/
def declareVariable (t : SymbolTable) (name : String) (kind : SymbolKind) :
    SymbolTable × Option UInt16 :=
  match t.findVariable? name with
  | some symbol => (t, some symbol.id)
  | none =>
    let place := t.vars.size
    if place < variableLimit then
      let id := UInt16.ofNat place
      ({ t with
          vars := t.vars.push { name, id, kind }
          varPlaces := t.varPlaces.insert name place }, some id)
    else (t, none)

def hasLabel (t : SymbolTable) (name : String) : Bool := t.labelPlaces.contains name

/-- Declare a label. The answer is false if it was declared before. -/
def declareLabel (t : SymbolTable) (name : String) : SymbolTable × Bool :=
  if t.hasLabel name then (t, false)
  else
    let place := t.labels.size
    ({ t with
        labels := t.labels.push { name, id := 0, kind := .label }
        labelPlaces := t.labelPlaces.insert name place }, true)

def modifyVariable (t : SymbolTable) (name : String) (f : Symbol → Symbol) : SymbolTable :=
  match t.varPlaces[name]? with
  | some place => { t with vars := t.vars.modify place f }
  | none => t

def modifyLabel (t : SymbolTable) (name : String) (f : Symbol → Symbol) : SymbolTable :=
  match t.labelPlaces[name]? with
  | some place => { t with labels := t.labels.modify place f }
  | none => t

def mapVariables (t : SymbolTable) (f : Symbol → Symbol) : SymbolTable :=
  { t with vars := t.vars.map f }

/-- All symbols, variables first. -/
def toList (t : SymbolTable) : List Symbol := t.vars.toList ++ t.labels.toList

end SymbolTable

end GameScript
