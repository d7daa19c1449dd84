import Snippet.Json.Form

/-!
What a run reports. An interpreter hands back a draft in which any field may be unset;
`Draft.normalize` fills the gaps and makes every field admissible.
-/

namespace Snippet

structure Status where
  id : Nat
  description : String
deriving DecidableEq, Repr

namespace Status

def successId : Nat := 3

def errorId : Nat := 4

def success : Status := ⟨successId, "Success"⟩

def simulated : Status := ⟨successId, "Success (Simulated)"⟩

def noCode : Status := ⟨successId, "No Code"⟩

def completed : Status := ⟨successId, "Completed"⟩

def codeError : Status := ⟨errorId, "Code Error"⟩

def isError (s : Status) : Bool := s.id == errorId

def isKnown (s : Status) : Bool := s.id == successId || s.id == errorId

def ofForm? (form : Json.Form) : Option Status := do
  -- A status given as a record of `id` and `description`.
  let fields ← form.fields? [["id"], ["description"]]
  let id ← fields.required? 0 (Json.Form.natural? 32)
  let description ← fields.required? 1 Json.Form.string?
  pure ⟨id, description⟩

end Status

structure Report where
  output : String
  error : String
  exitCode : Int
  /-- The time the run took, in seconds. -/
  time : Float
  /-- The estimated number of bytes the run used. -/
  memory : Nat
  status : Status

structure Draft where
  output : Option String := none
  error : Option String := none
  exitCode : Option Int := none
  time : Option Float := none
  memory : Option Nat := none
  status : Option Status := none

namespace Draft

def fail (d : Draft) (message : String) : Draft :=
  { d with error := some message, exitCode := some 1, status := some Status.codeError }

def settledStatus (d : Draft) : Status :=
  -- A known status stays; an unknown one is judged by the error text, and a missing one counts as
  -- success.
  match d.status with
  | none => Status.success
  | some s =>
    if s.isKnown then s
    else if (d.error.getD "").isEmpty then Status.success
    else Status.codeError

def normalize (d : Draft) : Report :=
  -- The report with every gap filled: texts are empty, the time is zero unless finite and positive,
  -- and the exit code follows the status.
  let status := d.settledStatus
  { output := d.output.getD ""
    error := d.error.getD ""
    exitCode := d.exitCode.getD (if status.isError then 1 else 0)
    time := (d.time.filter fun t => t.isFinite && 0.0 < t).getD 0.0
    memory := d.memory.getD 0
    status }

def ofForm? (form : Json.Form) : Option Draft := do
  let fields ← form.fields?
    [["output"], ["error"], ["exitCode"], ["executionTime", "time"], ["memory"], ["status"]]
  let output ← fields.nullable? 0 Json.Form.string?
  let error ← fields.nullable? 1 Json.Form.string?
  let exitCode ← fields.nullable? 2 (Json.Form.integer? (-2147483648) 2147483647)
  let time ← fields.nullable? 3 Json.Form.float?
  let memory ← fields.nullable? 4 (Json.Form.natural? 64)
  let status ← fields.nullable? 5 Status.ofForm?
  pure { output, error, exitCode, time, memory, status }

def ofText? (text : String) : Option Draft :=
  (Json.Form.ofText? text.toList).bind ofForm?

end Draft

namespace Report

def noCode : Report :=
  { output := some "No code to execute", status := some Status.noCode : Draft }.normalize

def completed : Report :=
  { output := some "Execution completed", status := some Status.completed : Draft }.normalize

def toJson (r : Report) : Json :=
  .object
    [("output", .string r.output),
     ("error", .string r.error),
     ("exitCode", .integer r.exitCode),
     ("executionTime", .float r.time),
     ("memory", .integer r.memory),
     ("status",
       .object
         [("id", .integer r.status.id), ("description", .string r.status.description)])]

end Report

end Snippet
