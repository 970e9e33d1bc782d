import GameScript.Compile
import GameScript.Layout.Print
import GameScript.Text.Lines

/-!
# Whole scripts

Compiling and formatting the text of a script file.
-/

namespace GameScript.Source

def defaultIndent : Nat := 2

def compile (e : Setting) (source : String) : Except Fault Output :=
  GameScript.compile e (Text.lines source)

/-- Indent the text of a script anew. A line feed at the end is kept. -/
def format (g : Grammar) (v : Version) (width : Nat) (source : String) : String :=
  let text := Text.unlines (Layout.format g v width (Text.lines source))
  if source.toList.getLast? = some '\n' then text ++ "\n" else text

def render (width : Nat) (o : Output) : List String := Layout.render width o.commands.toList

end GameScript.Source
