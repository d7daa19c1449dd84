import Snippet.Text.Blank

/-!
Cutting a line where a mark stands outside quotes and, for separators, outside brackets. The state of
the reader says how deep it is in brackets and whether it is inside a quoted literal.
-/

namespace Snippet.Scan

structure Nesting where
  /-- How many brackets are open. -/
  depth : Nat := 0
  /-- The quote that is open. -/
  quote : Option Char := none
  /-- The next character is escaped. -/
  escaped : Bool := false
deriving DecidableEq, Repr

def Nesting.inQuote (n : Nesting) (q c : Char) : Nesting :=
  -- The state after a character inside a literal opened by `q`.
  if n.escaped then { n with escaped := false }
  else if c == '\\' then { n with escaped := true }
  else if c == q then { n with quote := none }
  else n

def isQuote (c : Char) : Bool := c == '"' || c == '\''

def Nesting.step (opens closes : Char → Bool) (n : Nesting) (c : Char) : Nesting :=
  match n.quote with
  | some q => n.inQuote q c
  | none =>
    if isQuote c then { n with quote := some c }
    else if opens c then { n with depth := n.depth + 1 }
    else if closes c then { n with depth := n.depth - 1 }
    else n

def isMark (opens closes : Char → Bool) (c : Char) : Bool := isQuote c || opens c || closes c

def opensAny (c : Char) : Bool := c == '(' || c == '[' || c == '{'

def closesAny (c : Char) : Bool := c == ')' || c == ']' || c == '}'

def splitAfter (separator : List Char) (n : Nesting) (skip : Nat) (part : List Char)
    (parts : List (List Char)) : List Char → List (List Char)
  -- The parts of a text between separators outside quotes and brackets. `skip` counts the
  -- characters of a separator that are still to be passed, `part` is the part being read and
  -- `parts` are those read before it, both in reverse.
  | [] => (part.reverse :: parts).reverse
  | c :: rest =>
    if 0 < skip then splitAfter separator n (skip - 1) part parts rest
    else if n.quote.isNone && !isMark opensAny closesAny c && n.depth == 0
        && separator.isPrefixOf (c :: rest) then
      splitAfter separator n (separator.length - 1) [] (part.reverse :: parts) rest
    else splitAfter separator (n.step opensAny closesAny c) 0 (c :: part) parts rest

def splitTopLevel (separator text : List Char) : List (List Char) :=
  splitAfter separator {} 0 [] [] text

def beforeMarkerAfter (marker : List Char) (n : Nesting) (passed : List Char) :
    List Char → List Char
  -- The text before the first marker outside quotes; `passed` is reversed.
  | [] => passed.reverse
  | c :: rest =>
    if n.quote.isNone && !isQuote c && marker.isPrefixOf (c :: rest) then passed.reverse
    else
      beforeMarkerAfter marker (n.step (fun _ => false) (fun _ => false) c) (c :: passed) rest

def beforeMarker (marker text : List Char) : List Char := beforeMarkerAfter marker {} [] text

def opensStatement (c : Char) : Bool := c == '(' || c == '['

def closesStatement (c : Char) : Bool := c == ')' || c == ']'

def endsStatement (c : Char) : Bool := c == ';' || c == '{' || c == '}'

def statementsAfter (n : Nesting) (part : List Char) (parts : List (List Char)) :
    List Char → List (List Char)
  -- The statements of a line; `part` and `parts` are reversed.
  | [] => (part.reverse :: parts).reverse
  | c :: rest =>
    if n.quote.isNone && n.depth == 0 && endsStatement c then
      statementsAfter n [] (part.reverse :: parts) rest
    else statementsAfter (n.step opensStatement closesStatement c) (c :: part) parts rest

def splitStatements (line : List Char) : List (List Char) := statementsAfter {} [] [] line

end Snippet.Scan
