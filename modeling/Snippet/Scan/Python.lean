import Snippet.Scan.Grammar

/-! The scanner's rules for Python. -/

namespace Snippet.Scan.Python

open Pattern

def style : Style :=
  { trueText := "True"
    falseText := "False"
    nullText := "None"
    separator := some (",", " ")
    lineBreaks := []
    wrappers := ["str"]
    interpolates := true
    pointsWhole := true }

def maybeTarget : Pattern :=
  -- A name captured as `name`, then an equals sign, or neither.
  optional (seq [.capture "name" Pattern.name, blanks, char '=', blanks])

def inputCall : Pattern :=
  -- A call of `input` with its prompt.
  seq [word "input", blanks, char '(', .capture "prompt" anything, char ')']

def isAnnotation (c : Char) : Bool := Text.isWordChar c || c == '[' || c == ']' || c == ',' || c == ' '

def annotation : Pattern :=
  seq
    [char ':', blanks,
     .capture "type" (.both (.one isAnnotation) (.run false isAnnotation)), blanks]

def slots (m : Match) : List Slot :=
  let conversion :=
    match m.get? "conv" with
    | some ['i', 'n', 't'] => Conversion.integer
    | some ['f', 'l', 'o', 'a', 't'] => Conversion.float
    | _ => Conversion.line
  [⟨m.get? "name", ((m.get? "prompt").map Text.trim).filter fun p => !p.isEmpty, conversion⟩]

def grammar : Grammar :=
  { comment := "#"
    semicolons := false
    skip := seq [.textStart, words ["import", "from"], .one Text.isBlank]
    prints :=
      [⟨seq [.textStart, word "print", blanks, char '(', .capture "args" anything, char ')',
        .textEnd], false⟩]
    assignment :=
      seq
        [.textStart, .capture "name" Pattern.name, blanks, optional annotation, char '=', blanks,
         .capture "value" (.both (.one (· != '=')) anything), .textEnd]
    inputs :=
      [⟨seq
          [.textStart, maybeTarget, .capture "conv" (words ["int", "float", "str"]), blanks,
           char '(', blanks, inputCall, blanks, char ')', .textEnd], slots⟩,
       ⟨seq [.textStart, maybeTarget, inputCall, .textEnd], slots⟩]
    style
    entryPoint := none
    program := none
    noOutput := fun _ => "Script ran successfully with no output" }

end Snippet.Scan.Python
