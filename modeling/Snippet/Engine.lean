import Snippet.Scan.Scanner
import Snippet.Script.Program
import Snippet.Idiom
import Snippet.Service

/-!
Running a snippet: its language decides the interpreter, and what the interpreter hands back becomes
a report. Running never fails; whatever goes wrong is part of the report. There is none only where the
interpreter does not come to an end.
-/

namespace Snippet.Engine

def defaultLanguage : String := "javascript"

def displayLanguage (tag : String) : String :=
  let trimmed := Text.trim tag.toList
  if trimmed.isEmpty then defaultLanguage else String.ofList trimmed

def routeOf (language : String) : Route :=
  Route.ofTag (String.ofList (Text.lower language.toList))

def draftWithin? (allowance : Nat) (timeout : String) (route : Route)
    (language source stdin : String) : Option Draft :=
  -- The draft of a route, for which a number of checkpoints succeed; none if the interpreter does
  -- not come to an end.
  match route with
  | .evaluate => Script.evaluateWithin source stdin allowance timeout
  | .scan scanned => some (Scan.scanWithin (Scan.grammarOf scanned) source stdin allowance timeout)
  | .idioms => some (Idiom.simulate language source stdin)

def executeWithin (allowance : Nat) (timeout source language stdin : String) : Option Report :=
  if Text.isBlankText source.toList then some Report.noCode
  else
    let language := displayLanguage language
    (draftWithin? allowance timeout (routeOf language) language source stdin).map Draft.normalize

def runWithin (allowance : Nat) (timeout : String) (request : Request) : Option Report :=
  executeWithin allowance timeout (request.source.getD "") (request.language.getD "")
    (request.stdin.getD "")

def execute (budget : Budget) (source language stdin : String) : Report :=
  -- Runs a source in a language on a standard input. An interpreter that does not come to an end is
  -- given up like one that breaks off.
  (executeWithin budget.checkpoints budget.timeoutMessage source language stdin).getD Report.completed

def run (budget : Budget) (request : Request) : Report :=
  (runWithin budget.checkpoints budget.timeoutMessage request).getD Report.completed

end Snippet.Engine
