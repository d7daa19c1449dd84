import Snippet.Script.BuiltinCall

/-!
How the parts of evaluation reach each other. Expressions, statements and calls are evaluated in terms
of an evaluator for what is inside of them; the evaluator itself is put together from these parts.
-/

namespace Snippet.Script

inductive Flow where
  | normal
  | returned (v : Value)
  | broken
  | continued

structure Evaluator where
  /-- The value of an expression in a scope. -/
  eval : Expr → ScopeRef → Run Value
  /-- Assigns a value to the target that an expression denotes. -/
  assign : Expr → Value → ScopeRef → Run Unit
  /-- Runs a statement in a scope. -/
  exec : Stmt → ScopeRef → Run Flow
  /-- Calls a function with a receiver and arguments. -/
  call : Caller
  /-- Makes an object by a constructor with arguments; the label tells in errors what it was. -/
  construct : Value → List Value → String → Run Value

namespace Run

mutual

def bind (scope : ScopeRef) (isMutable : Bool) : Target → Value → Run Unit
  | .name name, v => declare scope name v isMutable
  | .array elements, v => do bindElements scope isMutable elements (← iterate v).toList
  | .object members, v => do
    if v.isNullish then raise (.destructureNullish (← toText v))
    else bindMembers scope isMutable v members

def bindElements (scope : ScopeRef) (isMutable : Bool) :
    List (Option Target) → List Value → Run Unit
  | [], _ => return
  | none :: rest, vs => bindElements scope isMutable rest vs.tail
  | some target :: rest, vs => do
    bind scope isMutable target (vs.headD .undefined)
    bindElements scope isMutable rest vs.tail

def bindMembers (scope : ScopeRef) (isMutable : Bool) (v : Value) :
    List (String × Target) → Run Unit
  | [] => return
  | (key, target) :: rest => do
    bind scope isMutable target (← getMember v key)
    bindMembers scope isMutable v rest

end

def hoist (scope : ScopeRef) : List Stmt → Run Unit
  | [] => return
  | .function f :: rest => do
    match f.name? with
    | some name => declare scope name (← makeClosure f scope) true
    | none => pure ()
    hoist scope rest
  | _ :: rest => hoist scope rest

def execEach (ev : Evaluator) (scope : ScopeRef) : List Stmt → Run Flow
  | [] => return .normal
  | s :: rest => do
    match ← ev.exec s scope with
    | .normal => execEach ev scope rest
    | flow => return flow

def execAll (ev : Evaluator) (statements : List Stmt) (scope : ScopeRef) : Run Flow := do
  hoist scope statements
  execEach ev scope statements

def execBlock (ev : Evaluator) (statements : List Stmt) (scope : ScopeRef) : Run Flow := do
  if statements.any Stmt.declares then execAll ev statements (← childScope scope)
  else execAll ev statements scope

end Run

end Snippet.Script
