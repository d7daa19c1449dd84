import Snippet.Report
import Snippet.Script.Height
import Snippet.Script.Parser
import Snippet.Script.Statement

/-!
Running a whole script: its statements, then its timers. Evaluation is tied together here: an evaluator
of some depth uses the evaluator of one level less for what is inside of each construct and for the
calls that it makes.
-/

namespace Snippet.Script

def evaluator : Nat → Evaluator
  -- Evaluation that may go `n` levels deep.
  | 0 =>
    { eval := fun _ _ => throw .exhausted
      assign := fun _ _ _ => throw .exhausted
      exec := fun _ _ => throw .exhausted
      call := fun _ _ _ => throw .exhausted
      construct := fun _ _ _ => throw .exhausted }
  | n + 1 =>
    -- The level below is put together once, when it is first needed.
    let inner := Thunk.mk fun _ => evaluator n
    { eval := fun e scope m => Run.evalExpr inner.get e scope m
      assign := fun target value scope m => Run.assignExpr inner.get target value scope m
      exec := fun s scope m => Run.execStmt inner.get s scope m
      call := fun f receiver arguments m => Run.call inner.get f receiver arguments m
      construct := fun f arguments label m => Run.construct inner.get f arguments label m }

def depthBound (checkpoints : Nat) (statements : List Stmt) : Nat :=
  -- How deep the evaluation of a script can go. Between two calls it goes no deeper than the script
  -- is high, and the calls in progress have each passed a checkpoint.
  (checkpoints + 2) * (statementsHeight statements + 3)

def globalBindings : List (String × Value) :=
  Builtin.globals.zipIdx.map (fun (b, i) => (b.name, .function (.builtin b) i))
    ++ [("NaN", .number Number.nan), ("Infinity", .number Number.infinity)]

def Machine.start (stdin : String) (checkpoints : Nat) : Machine :=
  { heap :=
      { scopes := #[{ bindings := globalBindings.map fun (name, v) => (name, ⟨v, false⟩) }] }
    stdin := Stdin.ofText stdin
    checkpoints
    identities := Builtin.globals.length }

namespace Run

def nextTimer? : Run (Option Timer) := fun m =>
  match m.timers.next? with
  | none => .ok none m
  | some (timer, timers) => .ok (some timer) { m with timers }

def waiting : Run Bool := fun m => .ok (!m.timers.pending.isEmpty) m

def runTimers (ev : Evaluator) : Nat → Run Unit
  | 0 => throw .exhausted
  | fuel + 1 => do
    if ← waiting then
      checkpoint
      match ← nextTimer? with
      | none => return
      | some timer =>
        discard (ev.call timer.callback .undefined timer.arguments)
        runTimers ev fuel
    else return

def programBy (ev : Evaluator) (statements : List Stmt) : Run Unit := do
  discard (execAll ev statements globalScope)
  runTimers ev (← rounds)

def program (statements : List Stmt) : Run Unit := do
  programBy (evaluator (depthBound (← rounds) statements)) statements

end Run

def Fault.report? (fault : Fault) (timeout : String) (h : Heap) : Option String :=
  match fault with
  | .raised e => some e.report
  | .thrown v => (h.uncaught v).toOption
  | .timeout _ => some timeout
  | .endless | .exhausted => none

def Machine.draft (m : Machine) (source : String) : Draft :=
  { output := some m.transcript.text
    error := some ""
    exitCode := some 0
    memory := some (source.utf8ByteSize + m.charged + m.transcript.text.utf8ByteSize)
    status := some Status.success }

def SyntaxFault.report (fault : SyntaxFault) : String :=
  s!"SyntaxError: {fault.error.message} (line {fault.line})"

def evaluateWithin (source stdin : String) (allowance : Nat) (timeout : String) : Option Draft :=
  -- Runs a script text on a standard input, in which a number of checkpoints succeed; none if
  -- evaluation does not come to an end.
  let start := Machine.start stdin allowance
  match parseProgram source with
  | .error fault => some ((start.draft source).fail fault.report)
  | .ok statements =>
    match Run.program statements start with
    | .ok () m => some (m.draft source)
    | .error fault m =>
      (fault.report? timeout m.heap).map fun text => (m.draft source).fail text

def evaluate (source stdin : String) (budget : Budget) : Option Draft :=
  evaluateWithin source stdin budget.checkpoints budget.timeoutMessage

end Snippet.Script
