import Snippet.Scan.Literal
import Snippet.Pattern

/-!
What the scanner knows of a language: how its statements are told apart, which of them print, assign
and read, and what it says when nothing was printed.
-/

namespace Snippet.Scan

inductive Conversion where
  /-- The whole line. -/
  | line
  /-- The first word. -/
  | token
  /-- The first word, as a number if it reads as one. -/
  | value
  /-- The first word as an integer, if it is one. -/
  | integer
  /-- The first word as a floating number, if it is one. -/
  | float
deriving DecidableEq, Repr

structure Slot where
  /-- The variable that gets the value. -/
  name : Option (List Char)
  /-- A term printed in front of the line. -/
  prompt : Option (List Char)
  conversion : Conversion
deriving DecidableEq, Repr

structure PrintRule where
  -- A statement that prints the arguments captured as `args`.
  pattern : Pattern
  /-- The first argument is a format. -/
  formatted : Bool

structure InputRule where
  pattern : Pattern
  /-- The lines it reads, in order. -/
  slots : Pattern.Match → List Slot

structure EntryPoint where
  pattern : Pattern
  warning : String

structure Grammar where
  /-- What starts a comment that ends with its line. -/
  comment : String
  /-- Whether a line holds several statements that end in semicolons. -/
  semicolons : Bool
  /-- Statements that are passed over. -/
  skip : Pattern
  prints : List PrintRule
  /-- Captures `name`, `value` and, where it is given, `type`. -/
  assignment : Pattern
  inputs : List InputRule
  style : Style
  entryPoint : Option EntryPoint
  /-- Captures `name`, which the report on missing output uses. -/
  program : Option Pattern
  noOutput : Option (List Char) → String

end Snippet.Scan
