import Snippet.Budget
import Snippet.Script.Inspect
import Snippet.Script.Fault
import Snippet.Script.Random
import Snippet.Script.Timers
import Snippet.Script.Transcript
import Snippet.Stdin

/-!
The state of a run and the elementary steps on it: passing a checkpoint, taking memory, making scopes,
arrays, objects and functions, and converting values. A step that fails keeps the state it has reached.
An error of the script can be caught by it; running out of time cannot.
-/

namespace Snippet.Script

structure Machine where
  heap : Heap := {}
  transcript : Transcript := {}
  stdin : Stdin
  timers : Timers := {}
  random : Random := {}
  /-- How many checkpoints will still succeed. -/
  checkpoints : Nat
  /-- How many calls of the script's functions are in progress. -/
  callDepth : Nat := 0
  /-- The memory taken so far, in bytes. -/
  charged : Nat := 0
  /-- How many functions have been made. -/
  identities : Nat := 0

inductive Fault where
  | raised (e : RuntimeError)
  /-- A value that the script threw. -/
  | thrown (v : Value)
  /-- The time was up when the run came to a checkpoint in the given state. -/
  | timeout (reached : Machine)
  /-- A conversion would not have ended. -/
  | endless
  /-- Evaluation did not end within the depth or the rounds set for it. -/
  | exhausted

def Fault.isFinal : Fault → Bool
  | .raised _ | .thrown _ => false
  | .timeout _ | .endless | .exhausted => true

abbrev Run := EStateM Fault Machine

def maxStringSize : Nat := Number.twoTo 24

def maxArraySize : Nat := Number.twoTo 22

namespace Run

def raise {α : Type} (e : RuntimeError) : Run α := throw (.raised e)

def checkpoint : Run Unit := fun m =>
  match m.checkpoints with
  | 0 => .error (.timeout m) m
  | n + 1 => .ok () { m with checkpoints := n }

def outcome {α : Type} (x : Run α) : Run (Except Fault α) := fun m =>
  match x m with
  | .ok a m => .ok (.ok a) m
  | .error e m => .ok (.error e) m

def ofOutcome {α : Type} : Except Fault α → Run α
  | .ok a => pure a
  | .error e => throw e

def ofExcept {α : Type} : Except RuntimeError α → Run α
  | .ok a => pure a
  | .error e => raise e

def ofText {α : Type} : Except TextFault α → Run α
  | .ok a => pure a
  | .error .tooDeep => raise .stackOverflow
  | .error .endless => throw .endless

def heap : Run Heap := fun m => .ok m.heap m

def modifyHeap (f : Heap → Heap) : Run Unit := fun m => .ok () { m with heap := f m.heap }

def charge (bytes : Nat) : Run Unit := fun m => .ok () { m with charged := m.charged + bytes }

def makeFunction (f : Function) : Run Value := fun m =>
  .ok (.function f m.identities) { m with identities := m.identities + 1 }

def makeScope (scope : Scope) : Run ScopeRef := fun m =>
  .ok ⟨m.heap.scopes.size⟩
    { m with
      heap := { m.heap with scopes := m.heap.scopes.push scope }
      charged := m.charged + 64 }

def childScope (parent : ScopeRef) : Run ScopeRef := makeScope { parent := some parent }

def makeArrayOf (items : Array Value) : Run Value := fun m =>
  .ok (.array ⟨m.heap.arrays.size⟩)
    { m with
      charged := m.charged + (32 + items.size * 16)
      heap := { m.heap with arrays := m.heap.arrays.push items } }

def makeArray (items : List Value) : Run Value := makeArrayOf items.toArray

def makeObject (o : Object) : Run Value := fun m =>
  .ok (.object ⟨m.heap.objects.size⟩)
    { m with
      charged := m.charged + (64 + o.entries.length * 48)
      heap := { m.heap with objects := m.heap.objects.push o } }

def makeString (s : String) : Run Value :=
  if maxStringSize < s.utf8ByteSize then raise .stringLength
  else do
    charge s.utf8ByteSize
    return .string s

def makeError (kind : ErrorKind) (message : String) : Run Value := makeObject (.error kind message)

def makeClosure (f : Func) (scope : ScopeRef) : Run Value := do
  charge 48
  makeFunction (.closure f scope)

def makeClass (c : ClassDef) (scope : ScopeRef) : Run Value := do
  charge 64
  makeFunction (.classDef c scope)

def declare (scope : ScopeRef) (name : String) (value : Value) (isMutable : Bool) : Run Unit :=
  modifyHeap fun h => h.declare scope name ⟨value, isMutable⟩

def lookup? (scope : ScopeRef) (name : String) : Run (Option Value) := fun m =>
  .ok (m.heap.lookup? scope name) m

def items (a : ArrayRef) : Run (Array Value) := fun m => .ok (m.heap.items a) m

def modifyItems (a : ArrayRef) (f : Array Value → Array Value) : Run Unit :=
  modifyHeap fun h => h.modifyItems a f

def object (o : ObjectRef) : Run Object := fun m => .ok (m.heap.object o) m

def modifyObject (o : ObjectRef) (f : Object → Object) : Run Unit :=
  modifyHeap fun h => h.modifyObject o f

def toNumber : Value → Run Float
  | .number x => pure x
  | v => fun m =>
    match m.heap.number? v with
    | some x => .ok x m
    | none => .error .endless m

def toText : Value → Run String
  | .string s => pure s
  | v => do ofText ((← heap).text v)

def toStrictText : Value → Run String
  | .string s => pure s
  | v => do ofText ((← heap).strictText v)

def toPrinted (v : Value) : Run String := do ofText ((← heap).printed v)

def modifyTranscript (f : Transcript → Transcript) : Run Unit := fun m =>
  .ok () { m with transcript := f m.transcript }

def popLine : Run (Option String) := fun m =>
  let (line, stdin) := m.stdin.pop
  .ok line { m with stdin }

def random : Run Float := fun m =>
  let (x, random) := m.random.next
  .ok x { m with random }

end Run

end Snippet.Script
