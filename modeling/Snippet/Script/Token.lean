import Snippet.Number.Notation

/-!
The tokens of a script, the lines they stand on, and the faults that make a text no script.
-/

namespace Snippet.Script

inductive Chunk where
  | text (s : String)
  | code (s : String)
deriving DecidableEq, Repr

inductive Token where
  | number (x : Float)
  | string (s : String)
  | template (chunks : List Chunk)
  | word (name : String)
  | mark (text : String)
  /-- The end of the text. -/
  | stop
deriving Repr

structure Placed where
  token : Token
  line : Nat
deriving Repr

def marks : List String :=
  [">>>", "===", "!==", "**=", "...", "=>", "==", "!=", "<=", ">=", "&&", "||", "??", "?.", "++",
   "--", "+=", "-=", "*=", "/=", "%=", "**", "<<", ">>", "\x7b", "\x7d", "(", ")", "[", "]", ";",
   ",", "<", ">", "+", "-", "*", "/", "%", "&", "|", "^", "!", "~", "?", ":", "=", "."]

inductive SyntaxError where
  | unterminatedComment
  | unterminatedString
  | unterminatedTemplate
  | unterminatedSubstitution
  | invalidEscape
  | invalidRadixNumber
  | invalidNumber (text : String)
  | invalidCharacter (c : Char)
  | unexpectedEnd
  | unexpectedNumber (x : Float)
  | unexpectedString
  | unexpectedToken (text : String)
  | nestingTooDeep
  | namelessFunction
  | moduleSyntax
  | missingInitializer
  | missingHandler
  | inheritance
  | superclass
  | invalidTarget
  /-- Reading did not end within the rounds set for it. -/
  | exhausted
deriving Repr

def numberText (x : Float) : List Char :=
  -- The text of a number as scripts print it: positional from one millionth up to below `10 ^ 21`,
  -- scientific elsewhere. A whole number below `2 ^ 53` has no shorter text than its digits.
  if Number.isExact x then Number.integerText (Number.toInt64Clamped x)
  else
    match Number.Binary.ofFloat? x with
    | none =>
      if x.isNaN then "NaN".toList else Number.signed (Number.isNegative x) "Infinity".toList
    | some b =>
      let d := b.shortest .up
      let e := d.scale
      Number.signed b.negative
        (if e < -6 || 21 ≤ e then d.scientific ['+'] else d.positional)

def SyntaxError.message : SyntaxError → String
  | .unterminatedComment => "Unterminated comment"
  | .unterminatedString => "Unterminated string literal"
  | .unterminatedTemplate => "Unterminated template literal"
  | .unterminatedSubstitution => "Unterminated template substitution"
  | .invalidEscape => "Invalid escape sequence"
  | .invalidRadixNumber => "Invalid number literal"
  | .invalidNumber text => s!"Invalid number literal '{text}'"
  | .invalidCharacter c => s!"Invalid or unexpected token '{c}'"
  | .unexpectedEnd => "Unexpected end of input"
  | .unexpectedNumber x => s!"Unexpected number '{String.ofList (numberText x)}'"
  | .unexpectedString => "Unexpected string"
  | .unexpectedToken text => s!"Unexpected token '{text}'"
  | .nestingTooDeep => "Maximum nesting depth exceeded"
  | .namelessFunction => "Function statements require a function name"
  | .moduleSyntax => "Modules are not supported"
  | .missingInitializer => "Missing initializer in const declaration"
  | .missingHandler => "Missing catch or finally after try"
  | .inheritance => "Class inheritance is not supported"
  | .superclass => "'super' is not supported"
  | .invalidTarget => "Invalid left-hand side in assignment"
  | .exhausted => "Reading did not end"

structure SyntaxFault where
  error : SyntaxError
  line : Nat
deriving Repr

end Snippet.Script
