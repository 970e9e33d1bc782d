import GameScript.Json.Reader
import GameScript.Json.Writer
import GameScript.Json.Record
import GameScript.Text.Lines
import GameScript.Text.Escaped
import GameScript.ReturnValue
import GameScript.Token.Lexer
import GameScript.Token.Spacing
import GameScript.Expression
import GameScript.Problem
import GameScript.Grammar.Json
import GameScript.Statement.Reader
import GameScript.Tree.Walk
import GameScript.Tree.Nesting
import GameScript.Symbol
import GameScript.ObjectLibrary
import GameScript.Compile
import GameScript.Command.Json
import GameScript.Layout.Print
import GameScript.Source
import GameScript.Storage.Memory
import GameScript.Failure
import GameScript.TestCase.Run
import GameScript.CommandLine.Run
import GameScript.Main
import GameScript.Proofs.Compile.Acceptance
import GameScript.Proofs.Compile.Brackets
import GameScript.Proofs.Compile.Typing
import GameScript.Proofs.Execution.Simulation
import GameScript.Proofs.Layout.Levels
import GameScript.Proofs.Layout.Printing
import GameScript.Proofs.Layout.Depth
import GameScript.Proofs.Passes.Subroutines
import GameScript.Proofs.Execution.Subroutines
import GameScript.Proofs.Execution.Arithmetic
import GameScript.Proofs.Execution.Counting
import GameScript.Proofs.Execution.Ranges
import GameScript.Proofs.Symbols.Labels
import GameScript.Proofs.Compile.Limits
import GameScript.Proofs.Symbols.Reserved
import GameScript.Proofs.Expression.Grammar
import GameScript.Proofs.Token.Cover
import GameScript.Proofs.Statement.Filling
import GameScript.Proofs.Statement.Conditionals
import GameScript.Proofs.Statement.Selection
import GameScript.Proofs.Tree.Traversal
import GameScript.Proofs.Expression.Spacing
import GameScript.Proofs.Layout.Idempotence
import GameScript.Proofs.Layout.Recompiling
import GameScript.Proofs.Compile.Numbering
import GameScript.Proofs.Compile.Libraries
import GameScript.Proofs.Shorthand.Frame
import GameScript.Proofs.Shorthand.Iterators
import GameScript.Proofs.Statement.Commenting
import GameScript.Proofs.Symbols.Constants
import GameScript.Proofs.Compile.ReturnWords
import GameScript.Proofs.Statement.Margins
