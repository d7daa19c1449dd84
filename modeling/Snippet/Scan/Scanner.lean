import Snippet.Scan.Arguments
import Snippet.Scan.Directive
import Snippet.Scan.Python
import Snippet.Scan.Java
import Snippet.Scan.Cpp
import Snippet.Budget
import Snippet.Report
import Snippet.Route
import Snippet.Stdin

/-!
Scanning a source line by line. Each statement is tried as a print, as an assignment and as a
reading statement, in this order; every other statement is passed over. The transcript consists of
records, each of which ends with a newline.
-/

namespace Snippet.Scan

structure State where
  store : Store
  stdin : Stdin
  /-- The records of the transcript, the latest first. -/
  records : List (List Char)

def State.emit (st : State) (text : List Char) : State :=
  { st with records := Text.asRecord text :: st.records }

def State.transcript (st : State) : List Char := st.records.reverse.flatten

def firstPrint? (statement : List Char) : List PrintRule → Option (PrintRule × Pattern.Match)
  | [] => none
  | rule :: rest =>
    match rule.pattern.search? statement with
    | some m => some (rule, m)
    | none => firstPrint? statement rest

def firstInput? (statement : List Char) : List InputRule → Option (InputRule × Pattern.Match)
  | [] => none
  | rule :: rest =>
    match rule.pattern.search? statement with
    | some m => some (rule, m)
    | none => firstInput? statement rest

def printed? (g : Grammar) (store : Store) (rule : PrintRule) (m : Pattern.Match) :
    Option (List Char) :=
  let arguments := (m.get? "args").getD []
  if rule.formatted then renderFormat? g.style store arguments
  else renderArguments? g.style store arguments

def print? (g : Grammar) (st : State) (statement : List Char) : Option State :=
  (firstPrint? statement g.prints).map fun (rule, m) =>
    match printed? g st.store rule m with
    | some text => st.emit text
    | none => st

def typed (g : Grammar) (type : Option (List Char)) (value : Literal) : Literal :=
  -- A value as a variable of the given type holds it: a whole number in a floating variable has a
  -- point.
  let floating := type == some "double".toList || type == some "float".toList
  match value with
  | .number ds =>
    if floating && g.style.pointsWhole && !ds.any (fun c => c == '.' || c == 'e' || c == 'E') then
      .number (ds ++ ['.', '0'])
    else value
  | _ => value

def assign? (g : Grammar) (st : State) (statement : List Char) : Option State :=
  (g.assignment.search? statement).bind fun m =>
    (resolve? g.style st.store ((m.get? "value").getD [])).map fun value =>
      { st with
        store := st.store.put ((m.get? "name").getD []) (typed g (m.get? "type") value) }

def firstToken (line : List Char) : List Char :=
  (Text.trimStart line).takeWhile fun c => !Text.isBlank c

def convert (style : Style) (line : List Char) (conversion : Conversion) : Literal :=
  let token := firstToken line
  match conversion with
  | .line => .text line
  | .token => .text token
  | .value =>
    match Number.readFloat? token with
    | some x => if x.isFinite then .number token else .text token
    | none => .text token
  | .integer =>
    match Number.readInt64? 10 token with
    | some n => .number (Number.integerText n)
    | none => .text token
  | .float =>
    match Number.readFloat? token with
    | some x => .number (floatText style x)
    | none => .text token

def promptText (g : Grammar) (store : Store) (slot : Slot) : List Char :=
  ((slot.prompt.bind (resolve? g.style store)).map (Literal.render g.style)).getD []

def State.fill (g : Grammar) (st : State) (slot : Slot) : State :=
  let prompt := promptText g st.store slot
  let (line, stdin) := st.stdin.pop
  let st := { st with stdin }
  let st :=
    match line with
    | some text => st.emit (prompt ++ text.toList)
    | none => if prompt.isEmpty then st else st.emit prompt
  match slot.name with
  | some name =>
    let value := convert g.style (line.getD "").toList slot.conversion
    { st with store := st.store.put name value }
  | none => st

def input? (g : Grammar) (st : State) (statement : List Char) : Option State :=
  (firstInput? statement g.inputs).map fun (rule, m) => (rule.slots m).foldl (State.fill g) st

def State.passOver (g : Grammar) (st : State) (statement : List Char) : State :=
  -- The state after a statement that neither prints nor reads and assigns nothing known: a variable
  -- that it assigns is no longer known.
  match g.assignment.search? statement with
  | some m => { st with store := st.store.forget ((m.get? "name").getD []) }
  | none => st

def State.statement (g : Grammar) (st : State) (statement : List Char) : State :=
  if statement.isEmpty || g.skip.occursIn statement then st
  else
    match print? g st statement with
    | some st => st
    | none =>
      match assign? g st statement with
      | some st => st
      | none =>
        match input? g st statement with
        | some st => st
        | none => st.passOver g statement

def statementsOf (g : Grammar) (line : List Char) : List (List Char) :=
  let line := beforeMarker g.comment.toList line
  if g.semicolons then (splitStatements line).map Text.trim
  else
    let statement := Text.trim line
    match statement.reverse with
    | ';' :: rest => [Text.trimEnd rest.reverse]
    | _ => [statement]

def State.line (g : Grammar) (st : State) (line : List Char) : State :=
  (statementsOf g line).foldl (State.statement g) st

def State.start (stdin : String) : State := ⟨[], Stdin.ofText stdin, []⟩

def State.lines (g : Grammar) (st : State) (lines : List (List Char)) : State :=
  lines.foldl (State.line g) st

def warning? (g : Grammar) (source : List Char) : Option String :=
  g.entryPoint.bind fun e => if e.pattern.occursIn source then none else some e.warning

def noOutput (g : Grammar) (source : List Char) : String :=
  g.noOutput ((g.program.bind fun p => p.search? source).bind fun m => m.get? "name")

def scanWithin (g : Grammar) (source stdin : String) (allowance : Nat) (timeout : String) :
    Draft :=
  -- The draft for a source when `allowance` lines can be scanned before the time is up.
  let text := source.toList
  let lines := Text.lines text
  let timedOut := allowance < lines.length
  let st := (State.start stdin).lines g (lines.take allowance)
  let transcript := String.ofList st.transcript
  let warning := warning? g text
  let draft : Draft :=
    { output := some (if st.records.isEmpty && !timedOut then noOutput g text else transcript)
      error := warning
      exitCode := some 0
      memory := some (source.utf8ByteSize + transcript.utf8ByteSize + st.store.size)
      status := some Status.success }
  if timedOut then
    match warning with
    | some w => draft.fail (w ++ "\n" ++ timeout)
    | none => draft.fail timeout
  else draft

def grammarOf : Scanned → Grammar
  | .python => Python.grammar
  | .java => Java.grammar
  | .cpp => Cpp.grammar

def scan (language : Scanned) (source stdin : String) (budget : Budget) : Draft :=
  scanWithin (grammarOf language) source stdin budget.checkpoints budget.timeoutMessage

end Snippet.Scan
