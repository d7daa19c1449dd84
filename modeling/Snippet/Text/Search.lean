/-!
Searching a text: the character at a place, where another text occurs first and last, and the parts
between its occurrences.
-/

namespace Snippet.Text

def charAt? (s : String) (i : Nat) : Option Char := (s.drop i).front?

def breakOn? (needle passed : List Char) : List Char → Option (List Char × List Char)
  -- What stands before the first occurrence of `needle` and what stands after it; `passed` has been
  -- read already, its last character first.
  | [] => if needle.isEmpty then some (passed.reverse, []) else none
  | c :: rest =>
    if needle.isPrefixOf (c :: rest) then
      some (passed.reverse, (c :: rest).drop needle.length)
    else breakOn? needle (c :: passed) rest

def firstIndex? (needle : List Char) (start : Nat) : List Char → Option Nat
  -- The first place, counted from `start`, at which `needle` occurs.
  | [] => if needle.isEmpty then some start else none
  | c :: rest =>
    if needle.isPrefixOf (c :: rest) then some start else firstIndex? needle (start + 1) rest

def lastIndex? (needle : List Char) (start : Nat) (found : Option Nat) : List Char → Option Nat
  -- The last place, counted from `start`, at which `needle` occurs, or the one found before.
  | [] => if needle.isEmpty then some start else found
  | c :: rest =>
    lastIndex? needle (start + 1) (if needle.isPrefixOf (c :: rest) then some start else found) rest

def splitWithin (separator : List Char) (done : List (List Char)) :
    Nat → List Char → List (List Char)
  -- The parts between the occurrences of a separator, at most `fuel` of which are looked for;
  -- `done` holds the parts before, the last one first.
  | 0, s => (s :: done).reverse
  | fuel + 1, s =>
    match breakOn? separator [] s with
    | none => (s :: done).reverse
    | some (part, rest) => splitWithin separator (part :: done) fuel rest

def splitOn (separator s : List Char) : List (List Char) := splitWithin separator [] s.length s

def replaceAll (needle replacement s : List Char) : List Char :=
  -- The text with every occurrence of `needle` replaced.
  replacement.intercalate (splitOn needle s)

end Snippet.Text
