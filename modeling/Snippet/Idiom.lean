import Snippet.Pattern
import Snippet.Text.Escape
import Snippet.Report

/-!
The idioms of printing in common languages. A source in an unknown language is searched for each
idiom in turn, and what is printed by the matches makes up the output, idiom by idiom. A match that
overlaps one claimed before is dropped.
-/

namespace Snippet.Idiom

open Pattern

def literalBody (quote : Char) (key : String) : Pattern :=
  seq
    [char quote,
     .capture key
       (.many
         (.either (.one fun c => c != quote && c != '\\' && c != '\n')
           (.both (char '\\') (.one (· != '\n'))))),
     char quote]

def literal : Pattern := .either (literalBody '"' "double") (literalBody '\'' "single")

def apart : Pattern :=
  .either .lineStart (.one fun c => c != '.' && !Text.isWordChar c)

def maybeParen : Pattern := seq [blanks, optional (char '('), blanks]

def paren : Pattern := seq [blanks, char '(', blanks]

def wholeWord (text : String) : Pattern := .both .wordEdge (word text)

def openings : List Pattern :=
  [seq [wholeWord "echo", someBlanks],
   seq [apart, word "puts", maybeParen],
   seq [wholeWord "println!", paren],
   seq [wholeWord "fmt.Print", optional (words ["ln", "f"]), paren],
   seq [wholeWord "Console.Write", optional (word "Line"), paren],
   seq [wholeWord "console.log", paren],
   seq [wholeWord "System.out.print", optional (word "ln"), paren],
   seq [apart, word "println", maybeParen],
   seq [apart, word "print", maybeParen],
   seq [apart, word "printf", maybeParen],
   seq [apart, word "say", someBlanks],
   seq [wholeWord "Write-Host", someBlanks],
   seq [wholeWord "IO.puts", maybeParen],
   seq [wholeWord "putStrLn", someBlanks, optional (char '('), blanks]]

def idioms : List Pattern := openings.map fun opening => .both opening literal

structure Range where
  start : Nat
  stop : Nat
deriving DecidableEq, Repr

def Range.overlaps (a b : Range) : Bool := a.start < b.stop && b.start < a.stop

structure Claims where
  /-- The claimed ranges, the latest first. -/
  ranges : List Range
  /-- The records, the latest first. -/
  records : List (List Char)

def Claims.add (claims : Claims) (m : Match) : Claims :=
  let range : Range := ⟨m.start, m.stop⟩
  if claims.ranges.any range.overlaps then claims
  else
    match (m.get? "double").or (m.get? "single") with
    | some body =>
      ⟨range :: claims.ranges, Text.asRecord (Text.unescape body) :: claims.records⟩
    | none => claims

def claimAll (idioms : List Pattern) (source : List Char) : Claims :=
  idioms.foldl (fun claims idiom => (idiom.findAll source).foldl Claims.add claims) ⟨[], []⟩

def diagnostic (language source stdin : String) : String :=
  let provided := if Text.isBlankText stdin.toList then "no" else "yes"
  s!"No output statements recognized for language '{language}'.\n"
    ++ s!"Input provided: {provided}\nSource length: {source.length} characters"

def outputOf (language source stdin : String) : String :=
  let claims := claimAll idioms source.toList
  if claims.ranges.isEmpty then diagnostic language source stdin
  else String.ofList claims.records.reverse.flatten

def simulate (language source stdin : String) : Draft :=
  let output := outputOf language source stdin
  { output := some output
    error := some ""
    exitCode := some 0
    memory := some (source.utf8ByteSize + output.utf8ByteSize)
    status := some Status.simulated }

end Snippet.Idiom
