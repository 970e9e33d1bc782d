import GameScript.Session

/-!
# Parameters and expressions

Checks that parameters are of their declared types, that number literals fit in 32 bits and that
object names are known, and puts expressions into evaluation order. Problems found while reading a
line are reported here too.
-/

namespace GameScript

namespace Token

/-- A number literal with its sign, whatever its size. -/
def numericLiteral? : List Token → Option (Bool × Token)
  | [n] => if n.kind = .number then some (false, n) else none
  | [m, n] => if m.is .unaryOp "-" && n.kind = .number then some (true, n) else none
  | _ => none

def literalFits (negative : Bool) (digits : String) : Bool :=
  match Text.numeral64? digits with
  | some v => Text.fits32 (if negative then -v else v)
  | none => false

/-- The object names that the library does not know. -/
def unknownObjects (objects : Option ObjectLibrary) (ts : List Token) : List Problem :=
  match objects with
  | none => []
  | some library =>
    let known (t : Token) : Bool :=
      match t.kind with
      | .gameObject => library.hasGameObject t.value
      | .scriptObject => library.hasScriptObject t.value
      | _ => true
    (ts.filter fun t => !known t).map fun t => .objectUnknown t.text

/-- The number literals of an expression that do not fit in 32 bits, each with its unary minus.
`minus` is the token before `ts`, if it is a unary minus. -/
def oversized : Option Token → List Token → List Problem
  | _, [] => []
  | minus, t :: ts =>
    let rest := oversized (if t.is .unaryOp "-" then some t else none) ts
    if t.kind = .number && !literalFits minus.isSome t.text then
      .outOfRange (join (minus.toList ++ [t])) :: rest
    else rest

end Token

namespace ParamKind

/-- What a parameter of this kind must be, if tokens are not it. -/
def mismatch? (kind : ParamKind) (ts : List Token) : Option String :=
  let only (k : TokenKind) : Bool :=
    match ts with
    | [t] => t.kind == k
    | _ => false
  match kind with
  | .var => if only .var then none else some "a variable"
  | .number => if (Token.numericLiteral? ts).isSome || only .var then none else some "a number"
  | .string => if only .string || only .var then none else some "a string"
  | .gameObject => if only .gameObject || only .var then none else some "a game object"
  | .scriptObject => if only .scriptObject || only .var then none else some "a script object"
  | _ => none

def valueProblems (objects : Option ObjectLibrary) (ts : List Token) : List Problem :=
  let range :=
    match Token.numericLiteral? ts with
    | some (negative, n) =>
      if Token.literalFits negative n.text then [] else [.outOfRange (Token.join ts)]
    | none => []
  range ++ Token.unknownObjects objects ts

def problems (objects : Option ObjectLibrary) (kind : ParamKind) (ts : List Token) : List Problem :=
  if kind = .valueList then (Token.splitCommas ts).flatMap (valueProblems objects)
  else
    ((kind.mismatch? ts).map fun expected => .typeMismatch expected (Token.join ts)).toList ++
      valueProblems objects ts

end ParamKind

namespace Session

structure Findings where
  problems : List Problem := []
  evalOrder : List Token := []

/-- Check one parameter. The types of generated parameters are not checked. -/
def checkParameter (objects : Option ObjectLibrary) (generated : Bool) (f : Findings)
    (p : Parameter) : Findings :=
  if p.kind = .expression then
    match Expression.evalOrder p.tokens with
    | .ok order =>
      ⟨f.problems ++ Token.oversized none p.tokens ++ Token.unknownObjects objects order, order⟩
    | .error e => { f with problems := f.problems ++ [.expression e] }
  else if generated then f
  else { f with problems := f.problems ++ p.kind.problems objects p.tokens }

/-- Check the parameters of a node. -/
def checkNode (e : Setting) (s : Session) (id : NodeId) : Session :=
  let n := s.node id
  if n.statement.commented || n.origin == .hiddenJump then s
  else
    match n.diagnostic with
    | some d =>
      let s := s.modify id fun n => { n with hasError := true }
      { s with log := s.log.push d }
    | none =>
      let found :=
        n.statement.parameters.foldl (checkParameter e.objects (n.origin == .expanded)) {}
      let s := s.modify id fun n => { n with evalOrder := found.evalOrder }
      found.problems.foldl (fun s p => s.report id p) s

def checkParameters (e : Setting) (s : Session) : Session := s.tree.preorder.foldl (checkNode e) s

end Session

end GameScript
