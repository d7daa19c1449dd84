/-!
The lines of a text. A line ends at a newline or at a carriage return with a newline after it; a
newline at the very end starts no further line.
-/

namespace Snippet.Text

def splitNewlinesAfter (done : List (List Char)) (current : List Char) :
    List Char → List (List Char)
  -- The parts of a text between its newlines: one more than there are newlines. `current` is the
  -- part being read and `done` the parts already read, both in reverse.
  | [] => (current.reverse :: done).reverse
  | '\n' :: rest => splitNewlinesAfter (current.reverse :: done) [] rest
  | c :: rest => splitNewlinesAfter done (c :: current) rest

def splitNewlines (s : List Char) : List (List Char) := splitNewlinesAfter [] [] s

def dropCarriageReturn (line : List Char) : List Char :=
  match line.reverse with
  | '\r' :: rest => rest.reverse
  | _ => line

def linesOfParts : List (List Char) → List (List Char)
  -- The lines among the parts between newlines: the last part is a line only when it is not empty,
  -- and it has no ending to remove.
  | [] => []
  | [last] => if last.isEmpty then [] else [last]
  | part :: rest => dropCarriageReturn part :: linesOfParts rest

def lines (s : List Char) : List (List Char) := linesOfParts (splitNewlines s)

end Snippet.Text
