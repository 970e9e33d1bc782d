import GameScript.Form

/-!
# Grammars

A grammar is a list of forms. A line is read as the first candidate that fits it. Candidates are
ordered from specific to general: forms without an expression come first, then those with more
literal pieces, then those declared earlier.
-/

namespace GameScript

structure Entry where
  form : Form
  pieces : List Piece
  deriving DecidableEq, Repr

namespace Entry

def of (f : Form) : Entry := ⟨f, f.pieces⟩

def literalCount (e : Entry) : Nat := e.pieces.countP Piece.isLiteral

/-- `a` is tried no later than `b` on account of their templates. -/
def before (a b : Entry) : Bool :=
  match a.form.hasExpression, b.form.hasExpression with
  | false, true => true
  | true, false => false
  | _, _ => b.literalCount ≤ a.literalCount

def insert (e : Entry) : List Entry → List Entry
  | [] => [e]
  | f :: es => if e.before f then e :: f :: es else f :: insert e es

/-- Order entries from specific to general. Entries that tie keep their order. -/
def sort (es : List Entry) : List Entry := es.foldr insert []

end Entry

structure Grammar where
  /-- In the order of declaration. -/
  entries : List Entry
  /-- The entries a line can be read as, in the order in which they are tried. -/
  candidates : List Entry
  deriving DecidableEq, Repr

namespace Grammar

def ofForms (forms : List Form) : Grammar :=
  let entries := forms.map Entry.of
  ⟨entries, Entry.sort (entries.filter fun e => !e.form.id.isUnmatchable)⟩

/-- The form with a number, preferably one that the release knows. -/
def form? (g : Grammar) (id : FormId) (v : Version) : Option Form :=
  let variants := (g.entries.map (·.form)).filter fun f => f.id == id
  variants.find? (·.supports v) <|> variants.head?

/-! ### Checking placeholders -/

/-- Why a list of forms is no grammar. -/
inductive Error where
  /-- The text does not describe a list of forms. -/
  | unreadable
  /-- A template has a placeholder without a parameter. -/
  | unknownPlaceholder (id : FormId) (index : Nat)
  /-- A template has a placeholder twice. -/
  | duplicatePlaceholder (id : FormId) (index : Nat)
  /-- A parameter has no placeholder. -/
  | unusedParameter (id : FormId)
  deriving DecidableEq, Repr

/-- The text of an error. -/
def Error.message : Error → String
  | .unreadable => "Failed to parse syntax table"
  | .unknownPlaceholder id index =>
    "Syntax " ++ toString id ++ " references parameter $" ++ toString index ++
      " which is not declared."
  | .duplicatePlaceholder id index =>
    "Syntax " ++ toString id ++ " references parameter $" ++ toString index ++ " more than once."
  | .unusedParameter id =>
    "Syntax " ++ toString id ++ " declares parameters its template never uses."

/-- Check the remaining pieces of a template; `seen` holds the placeholders before them. -/
def checkPieces (f : Form) : List Piece → List Nat → Except Error Unit
  | [], seen => if seen.length = f.params.length then .ok () else .error (.unusedParameter f.id)
  | .literal _ :: ps, seen => checkPieces f ps seen
  | .slot index :: ps, seen =>
    if f.params.length ≤ index then .error (.unknownPlaceholder f.id index)
    else if seen.contains index then .error (.duplicatePlaceholder f.id index)
    else checkPieces f ps (index :: seen)

/-- Every parameter of the form has exactly one placeholder. -/
def check (f : Form) : Except Error Unit := checkPieces f f.pieces []

end Grammar

end GameScript
