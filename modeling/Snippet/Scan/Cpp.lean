import Snippet.Scan.Grammar

/-! The scanner's rules for C and C++. -/

namespace Snippet.Scan.Cpp

open Pattern

def style : Style :=
  { trueText := "1"
    falseText := "0"
    nullText := "0"
    separator := some ("<<", "")
    lineBreaks := ["endl", "std::endl", "'\\n'", "\"\\n\""]
    wrappers := ["to_string", "std::to_string"]
    interpolates := false
    pointsWhole := false }

def std : Pattern := optional (word "std::")

def targets (s : List Char) : List (List Char) :=
  ((s.splitOn ',').map fun target =>
    Text.trim ((Text.trim target).dropWhile (· == '&'))).filter fun target => !target.isEmpty

def splitArrows (part : List Char) (parts : List (List Char)) : List Char → List (List Char)
  -- The parts of a text between two-character marks `>>`; `part` and `parts` are reversed.
  | [] => (part.reverse :: parts).reverse
  | '>' :: '>' :: rest => splitArrows [] (part.reverse :: parts) rest
  | c :: rest => splitArrows (c :: part) parts rest

def streamSlots (m : Match) : List Slot :=
  let names := (splitArrows [] [] ((m.get? "targets").getD [])).map Text.trim
  (names.filter fun name => !name.isEmpty).map fun name => ⟨some name, none, .value⟩

/-- The line that a call of `getline` reads. -/
def lineSlot (m : Match) : List Slot := [⟨some ((m.get? "name").getD []), none, .line⟩]

def conversion? (letter : Char) : Option Conversion :=
  if letter == 'd' || letter == 'i' || letter == 'u' then some .integer
  else if letter == 'f' || letter == 'e' || letter == 'g' then some .float
  else if letter == 'c' || letter == 's' then some .token
  else none

def isSizeOrWidth (c : Char) : Bool := c == 'l' || c == 'h' || c.isDigit

def conversions (inside : Bool) : List Char → List Conversion
  -- The conversions of a format; `inside` says that a percent sign has been passed.
  | [] => []
  | c :: rest =>
    if inside then
      if isSizeOrWidth c then conversions true rest
      else (conversion? c).toList ++ conversions false rest
    else conversions (c == '%') rest

def formatSlots (m : Match) : List Slot :=
  ((targets ((m.get? "targets").getD [])).zip
    (conversions false ((m.get? "format").getD []))).map fun (name, conversion) =>
      ⟨some name, none, conversion⟩

def grammar : Grammar :=
  { comment := "//"
    semicolons := true
    skip :=
      .both .textStart
        (.either (char '#')
          (seq [word "using", someBlanks, word "namespace", .one Text.isBlank]))
    prints :=
      [⟨seq
          [.textStart, std, words ["cout", "cerr"], blanks, word "<<", blanks,
           .capture "args" anything, .textEnd], false⟩,
       ⟨seq
          [.textStart, std, word "printf", blanks, char '(', .capture "args" anything, char ')',
           .textEnd], true⟩,
       ⟨seq
          [.textStart, word "puts", blanks, char '(', .capture "args" anything, char ')',
           .textEnd], false⟩]
    assignment :=
      seq
        [.textStart,
         .many
           (.both (words ["const", "static", "unsigned", "signed", "long", "short"]) someBlanks),
         optional
           (.both
             (.capture "type"
               (words
                 ["std::string", "string", "int", "long", "short", "double", "float", "bool",
                  "char", "auto", "size_t"]))
             (.either (seq [blanks, char '*', blanks]) someBlanks)),
         .capture "name" Pattern.name,
         optional (seq [char '[', .run true Text.isDecimalDigit, char ']']),
         blanks, char '=', blanks,
         .capture "value" (.both (.one (· != '=')) anything), .textEnd]
    inputs :=
      [⟨seq
          [.textStart, std, word "cin", blanks, word ">>", blanks,
           .capture "targets" (.both (.one (· != '\n')) anything), .textEnd], streamSlots⟩,
       ⟨seq
          [.textStart, std, word "getline", blanks, char '(', blanks, std, word "cin", blanks,
           char ',', blanks, .capture "name" Pattern.name, blanks, char ')', .textEnd], lineSlot⟩,
       ⟨seq
          [.textStart, word "scanf", blanks, char '(', blanks, char '"',
           .capture "format" (.run true (· != '"')), char '"', blanks,
           .capture "targets"
             (.many
               (seq
                 [char ',', blanks, optional (char '&'), blanks, Pattern.name, blanks])),
           char ')', .textEnd], formatSlots⟩]
    style
    entryPoint :=
      some
        ⟨seq [.wordEdge, word "int", someBlanks, word "main", blanks, char '('],
         "Warning: no 'int main()' entry point found"⟩
    program := none
    noOutput := fun _ => "Program compiled and ran successfully with no output" }

end Snippet.Scan.Cpp
