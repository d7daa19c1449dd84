import Snippet.Scan.Grammar

/-! The scanner's rules for Java. -/

namespace Snippet.Scan.Java

open Pattern

def style : Style :=
  { trueText := "true"
    falseText := "false"
    nullText := "null"
    separator := none
    lineBreaks := []
    wrappers := ["String.valueOf", "Integer.toString", "Double.toString"]
    interpolates := false
    pointsWhole := true }

def printCall (method : Pattern) : Pattern :=
  seq
    [.textStart, word "System.", words ["out", "err"], char '.', method, blanks, char '(',
     .capture "args" anything, char ')', .textEnd]

def spacedWord (texts : List String) : Pattern := .both (words texts) someBlanks

def slots (m : Match) : List Slot :=
  let method := String.ofList ((m.get? "method").getD [])
  let conversion :=
    if method == "nextLine" then Conversion.line
    else if ["nextInt", "nextLong", "nextShort"].contains method then Conversion.integer
    else if ["nextDouble", "nextFloat"].contains method then Conversion.float
    else Conversion.token
  [⟨m.get? "name", none, conversion⟩]

def grammar : Grammar :=
  { comment := "//"
    semicolons := true
    skip := seq [.textStart, words ["import", "package"], .one Text.isBlank]
    prints :=
      [⟨printCall (.both (word "print") (optional (word "ln"))), false⟩,
       ⟨printCall (words ["printf", "format"]), true⟩]
    assignment :=
      seq
        [.textStart,
         .many (spacedWord ["final", "static", "private", "public", "protected"]),
         optional
           (.both
             (.capture "type"
               (words
                 ["String", "int", "long", "short", "byte", "double", "float", "boolean", "char",
                  "var"]))
             someBlanks),
         .capture "name" Pattern.name, blanks, char '=', blanks,
         .capture "value" (.both (.one (· != '=')) anything), .textEnd]
    inputs :=
      [⟨seq
          [.textStart,
           optional
             (seq
               [optional (.both (word "final") someBlanks),
                spacedWord
                  ["String", "int", "long", "short", "double", "float", "boolean", "char", "var"]]),
           optional (seq [.capture "name" Pattern.name, blanks, char '=', blanks]),
           .one Text.isWordChar, .run true Text.isWordChar, char '.',
           .capture "method"
             (words
               ["nextLine", "next", "nextInt", "nextLong", "nextShort", "nextDouble", "nextFloat",
                "nextBoolean"]),
           blanks, char '(', blanks, char ')', .textEnd], slots⟩]
    style
    entryPoint :=
      some
        ⟨seq
          [word "public", someBlanks, word "static", someBlanks, word "void", someBlanks,
           word "main", blanks, char '('],
         "Warning: no 'public static void main(String[] args)' method found"⟩
    program :=
      some (seq [.wordEdge, word "class", someBlanks, .capture "name" Pattern.name])
    noOutput := fun program =>
      String.ofList (program.getD "Main".toList)
        ++ ".java compiled and ran successfully with no output" }

end Snippet.Scan.Java
