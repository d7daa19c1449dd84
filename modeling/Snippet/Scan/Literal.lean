import Snippet.Text.Blank
import Snippet.Text.Escape
import Snippet.Number.Reader

/-!
The values that a scanned program can be seen to have, and how a language prints them.
-/

namespace Snippet.Scan

inductive Literal where
  -- A known value. A number is kept as the text that the language prints.
  | text (s : List Char)
  | number (s : List Char)
  | bool (b : Bool)
  | null
deriving DecidableEq, Repr

structure Style where
  trueText : String
  falseText : String
  nullText : String
  /-- What separates arguments, and what is printed between them. -/
  separator : Option (String × String)
  /-- Bare words that print a line break. -/
  lineBreaks : List String
  /-- Calls of one argument that print their argument. -/
  wrappers : List String
  /-- Whether literals with an `f` in front hold variables in braces. -/
  interpolates : Bool
  /-- Whether a whole floating number prints with `.0` at its end. -/
  pointsWhole : Bool

def Literal.render (style : Style) : Literal → List Char
  | .text s => s
  | .number s => s
  | .bool true => style.trueText.toList
  | .bool false => style.falseText.toList
  | .null => style.nullText.toList

def Literal.float? : Literal → Option Float
  | .text s => Number.readFloat? (Text.trim s)
  | .number s => Number.readFloat? (Text.trim s)
  | .bool b => some (if b then 1.0 else 0.0)
  | .null => none

def Literal.size : Literal → Nat
  | .text s => Text.byteSize s
  | .number s => Text.byteSize s
  | _ => 8

abbrev Store := List (List Char × Literal)

def Store.get? (store : Store) (name : List Char) : Option Literal := store.lookup name

def Store.forget (store : Store) (name : List Char) : Store := store.filter (·.1 != name)

def Store.put (store : Store) (name : List Char) (value : Literal) : Store :=
  (name, value) :: store.forget name

def Store.size (store : Store) : Nat :=
  store.foldl (fun n entry => n + Text.byteSize entry.1 + entry.2.size) 0

def isName : List Char → Bool
  | [] => false
  | c :: rest => (c.isAlpha || c == '_') && rest.all fun x => x.isAlphanum || x == '_'

end Snippet.Scan
