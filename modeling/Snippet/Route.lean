import Snippet.Text.Case

/-!
Which interpreter runs a language, and which language a file is written in.
-/

namespace Snippet

inductive Scanned where
  | python
  | java
  | cpp
deriving DecidableEq, Repr

inductive Route where
  /-- Evaluated as JavaScript. -/
  | evaluate
  /-- Scanned line by line with the grammar of a language. -/
  | scan (language : Scanned)
  /-- Searched for the idioms of printing. -/
  | idioms
deriving DecidableEq, Repr

namespace Route

def table : List (String × Route) :=
  [("javascript", .evaluate), ("js", .evaluate),
   ("python", .scan .python), ("py", .scan .python),
   ("java", .scan .java),
   ("cpp", .scan .cpp), ("c++", .scan .cpp), ("c", .scan .cpp)]

def ofTag (tag : String) : Route := (table.lookup tag).getD .idioms

end Route

def pathParts (path : List Char) : List (List Char) :=
  (path.splitOn '/').filter fun part => !part.isEmpty && part != ['.']

def fileExtension (name : List Char) : List Char :=
  if name == ['.', '.'] then []
  else
    let backward := name.reverse
    let extension := backward.takeWhile (· != '.')
    if backward.length ≤ extension.length + 1 then [] else extension.reverse

def languageOfPath (path : String) : String :=
  -- The tag of the language that a file's name stands for, which is its extension if no other is
  -- known.
  let name := (pathParts path.toList).getLast?.getD []
  let extension := String.ofList (Text.lower (fileExtension name))
  if extension == "js" || extension == "mjs" || extension == "cjs" then "javascript"
  else if extension == "py" then "python"
  else if extension == "cc" || extension == "cxx" || extension == "hpp" then "cpp"
  else if extension == "h" then "c"
  else extension

end Snippet
