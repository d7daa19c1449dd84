import Snippet.Text.Blank
import Snippet.Text.Lines

/-!
The standard input of a run: lines given beforehand and handed out one at a time.
-/

namespace Snippet

structure Stdin where
  lines : List String
deriving Repr, DecidableEq

namespace Stdin

def cleanLine (line : List Char) : String :=
  String.ofList (Text.dropEndWhile (· == '\r') line)

def ofText (text : String) : Stdin := ⟨(Text.lines text.toList).map cleanLine⟩

def pop (s : Stdin) : Option String × Stdin :=
  match s.lines with
  | [] => (none, s)
  | line :: rest => (some line, ⟨rest⟩)

def isEmpty (s : Stdin) : Bool := s.lines.isEmpty

end Stdin

end Snippet
