/-!
# The lines of a text

A line ends at a line feed, and a carriage return right before the line feed belongs to the line
break. The last line needs no line feed; a text that ends with one has no empty line after it.
-/

namespace GameScript.Text

def dropReturn (cs : List Char) : List Char :=
  match cs.getLast? with
  | some '\r' => cs.dropLast
  | _ => cs

/-- Cut characters at line feeds. `line` holds the characters of the current line and `done` the
finished lines, both last one first. -/
def cutLines : List Char → List Char → List (List Char) → List (List Char)
  | [], [], done => done.reverse
  | [], line, done => (line.reverse :: done).reverse
  | '\n' :: cs, line, done => cutLines cs [] (dropReturn line.reverse :: done)
  | c :: cs, line, done => cutLines cs (c :: line) done

def lines (s : String) : List String := (cutLines s.toList [] []).map String.ofList

def unlines (ls : List String) : String := "\n".intercalate ls

end GameScript.Text
