import GameScript.Expression
import GameScript.Version

/-!
# Problems of scripts and their diagnostics

A `Problem` is what is wrong with a command. Its code and wording are fixed here. A `Diagnostic` is
a problem reported against a line, and a log keeps diagnostics in the order of reporting.
-/

namespace GameScript

/-- What can be wrong with a command. -/
inductive Problem where
  /-- No form of the grammar fits the line. -/
  | unrecognised
  /-- A game object has no closing brace. -/
  | objectUnterminated (text : String)
  /-- The command belongs to other releases. -/
  | versionUnsupported (version : Version)
  /-- The step of a counted loop is the literal zero. -/
  | stepZero
  /-- A line generated from a shorthand is no command. -/
  | expansionFailed (line : String)
  /-- A variable has a name that is reserved for the compiler. -/
  | nameReserved (variableText : String) (reserved : String)
  /-- There are more variables than numbers for them. -/
  | variableLimit
  /-- A label is defined twice. -/
  | labelDuplicate (label : String)
  /-- A jump names a label that is not defined. -/
  | labelUndefined (label : String)
  /-- A parameter is no expression. -/
  | expression (error : ExpressionError)
  /-- A parameter is not of its declared type. -/
  | typeMismatch (expected : String) (found : String)
  /-- A number literal needs more than 32 bits. -/
  | outOfRange (literal : String)
  /-- An object is not in the library. -/
  | objectUnknown (text : String)
  | elseUnmatched
  | elseIfUnmatched
  | endUnmatched
  /-- A block has no `end`. -/
  | blockUnclosed (opener : String)
  | skipEmpty
  | skipBlock
  | breakOutsideLoop
  | continueOutsideLoop
  /-- A subroutine can run into what follows it. -/
  | subroutineUnterminated (label : String)
  | endsubOutsideSubroutine
  /-- There are more commands than indices. -/
  | scriptTooLong (limit : Nat)
  deriving DecidableEq, Repr

namespace Problem

/-- The stable code of a problem. -/
def code : Problem → String
  | .unrecognised => "SYNTAX_UNRECOGNISED"
  | .objectUnterminated _ => "SYNTAX_OBJECT_UNTERMINATED"
  | .versionUnsupported _ => "SYNTAX_VERSION_UNSUPPORTED"
  | .stepZero => "MACRO_STEP_ZERO"
  | .expansionFailed _ => "MACRO_EXPANSION_FAILED"
  | .nameReserved _ _ => "VARIABLE_NAME_RESERVED"
  | .variableLimit => "VARIABLE_LIMIT_EXCEEDED"
  | .labelDuplicate _ => "LABEL_DUPLICATE"
  | .labelUndefined _ => "LABEL_UNDEFINED"
  | .expression e => e.code
  | .typeMismatch _ _ => "PARAM_TYPE_MISMATCH"
  | .outOfRange _ => "PARAM_OUT_OF_RANGE"
  | .objectUnknown _ => "OBJECT_UNKNOWN"
  | .elseUnmatched => "LOGIC_ELSE_UNMATCHED"
  | .elseIfUnmatched => "LOGIC_ELSE_IF_UNMATCHED"
  | .endUnmatched => "LOGIC_END_UNMATCHED"
  | .blockUnclosed _ => "LOGIC_BLOCK_UNCLOSED"
  | .skipEmpty => "LOGIC_SKIP_IF_EMPTY"
  | .skipBlock => "LOGIC_SKIP_IF_BRANCH"
  | .breakOutsideLoop => "LOGIC_BREAK_OUTSIDE_LOOP"
  | .continueOutsideLoop => "LOGIC_CONTINUE_OUTSIDE_LOOP"
  | .subroutineUnterminated _ => "SUBROUTINE_UNTERMINATED"
  | .endsubOutsideSubroutine => "ENDSUB_OUTSIDE_SUBROUTINE"
  | .scriptTooLong _ => "SCRIPT_TOO_LONG"

/-- The text of a problem. -/
def message : Problem → String
  | .unrecognised => "Unrecognised command."
  | .objectUnterminated text => "Object name " ++ text ++ " is missing its closing '\x7d'."
  | .versionUnsupported version => "Command is not available in " ++ version.name ++ "."
  | .stepZero => "Loop step must not be zero."
  | .expansionFailed line => "Could not expand macro into '" ++ line ++ "'."
  | .nameReserved variableText reserved =>
    "Variable \"" ++ variableText ++ "\" uses the reserved prefix \"" ++ reserved ++ "\"."
  | .variableLimit => "Script uses more variables than the engine can address."
  | .labelDuplicate label => "Label \"" ++ label ++ "\" is already defined."
  | .labelUndefined label => "Label \"" ++ label ++ "\" is not defined."
  | .expression e => e.message
  | .typeMismatch expected found => "Expected " ++ expected ++ ", found '" ++ found ++ "'."
  | .outOfRange literal => "Number " ++ literal ++ " does not fit in 32 bits."
  | .objectUnknown text => "Unknown object name " ++ text ++ "."
  | .elseUnmatched => "'else' has no matching 'if'."
  | .elseIfUnmatched => "'else if' has no matching 'if'."
  | .endUnmatched => "'end' has no matching 'if' or 'while'."
  | .blockUnclosed opener => "'" ++ opener ++ "' is never closed by 'end'."
  | .skipEmpty => "'skip if' must be followed by a command to skip."
  | .skipBlock => "'skip if' cannot skip a block or macro."
  | .breakOutsideLoop => "'break' can only be used inside a loop."
  | .continueOutsideLoop => "'continue' can only be used inside a loop."
  | .subroutineUnterminated label =>
    "Subroutine \"" ++ label ++ "\" does not end with 'endsub' or 'return'."
  | .endsubOutsideSubroutine => "'endsub' is not inside a subroutine."
  | .scriptTooLong limit => "Scripts are limited to " ++ toString limit ++ " commands."

end Problem

/-- A problem reported against a line. -/
structure Diagnostic where
  code : String
  line : Nat
  message : String
  /-- The command as it is displayed. -/
  text : String
  deriving DecidableEq, Repr, Inhabited

namespace Diagnostic

def of (problem : Problem) (line : Nat) (text : String) : Diagnostic :=
  ⟨problem.code, line, problem.message, text⟩

def display (d : Diagnostic) : String :=
  "line " ++ toString d.line ++ ": " ++ d.code ++ ": " ++ d.message

end Diagnostic

abbrev DiagnosticLog := Array Diagnostic

def DiagnosticLog.hasCode (log : DiagnosticLog) (code : String) : Bool :=
  log.any fun d => d.code == code

end GameScript
