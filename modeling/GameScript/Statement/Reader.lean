import GameScript.Problem
import GameScript.Statement.Fit

/-!
# Reading lines

`Statement.read` recognises one line. A blank line is a `nop`. A line with a comment mark is a
command that was commented out if a form fits the rest of it, and a comment otherwise. A line that
no form fits is kept as an unrecognised statement and reported.

A commented line is never reported.
-/

namespace GameScript

structure Reading where
  statement : Statement
  diagnostic : Option Diagnostic
  deriving DecidableEq, Repr

namespace Statement

def extentOf (line : String) : Extent :=
  let cs := line.toList
  let stop := Text.byteLength (Text.dropRight Text.isBlank cs)
  let start := Text.byteLength (cs.takeWhile Text.isBlank)
  ⟨min start stop, stop⟩

def commentBody (line : String) : String :=
  String.ofList (Text.trimChars ((line.toList.dropWhile Token.isGap).drop 1))

def comment (number : Nat) (line : String) : Statement :=
  { nop number with form := FormId.comment, text := commentBody line, extent := extentOf line }

def unrecognised (number : Nat) (line : String) : Statement :=
  let (role, kind) := classify FormId.unrecognised .discard false
  ⟨number, FormId.unrecognised, .discard, role, kind, false, [], Text.trim line, extentOf line⟩

def ofRecognition (number : Nat) (line : String) (commented : Bool) (r : Recognition) : Statement :=
  let id := r.entry.form.id
  let parameters := r.fit.parameters r.entry.form
  let (role, kind) := classify id r.fit.conditional commented
  ⟨number, id, r.fit.conditional, role, kind, commented, parameters, r.entry.render parameters,
    extentOf line⟩

def unterminated? (ts : List Token) : Option Token :=
  ts.find? fun t => t.kind == .gameObject && t.text.toList.getLast? != some '}'

/-- The problem of a recognised command: an unterminated object comes first. -/
def problem? (v : Version) (ts : List Token) (r : Recognition) : Option Problem :=
  match unterminated? ts with
  | some t => some (.objectUnterminated t.text)
  | none => if r.supported then none else some (.versionUnsupported v)

/-- Read one line. -/
def read (g : Grammar) (v : Version) (number : Nat) (line : String) : Reading :=
  let tokens := Token.tokenize line false
  let commented := (Token.comment? tokens).isSome
  let ts := Token.significant tokens
  if ts.isEmpty then ⟨if commented then comment number line else nop number, none⟩
  else
    match g.recognise? v ts with
    | none =>
      if commented then ⟨comment number line, none⟩
      else
        let s := unrecognised number line
        ⟨s, some (.of .unrecognised number s.text)⟩
    | some r =>
      let s := ofRecognition number line commented r
      let found := if commented then none else problem? v ts r
      ⟨s, found.map fun p => .of p number s.text⟩

def readAll (g : Grammar) (v : Version) (lines : List String) : List Reading :=
  (lines.zipIdx 1).map fun (line, number) => read g v number line

end Statement

end GameScript
