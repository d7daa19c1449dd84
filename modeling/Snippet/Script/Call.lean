import Snippet.Script.Evaluator

/-!
Calls of functions and the making of objects by classes and functions. Every call passes a checkpoint,
and the functions of a script may be nested in each other's calls up to a fixed depth.
-/

namespace Snippet.Script

def maxCallDepth : Nat := 500

namespace Run

def nested {α : Type} (x : Run α) : Run α := fun m =>
  if maxCallDepth ≤ m.callDepth then .error (.raised .stackOverflow) m
  else
    match x { m with callDepth := m.callDepth + 1 } with
    | .ok a m => .ok a { m with callDepth := m.callDepth - 1 }
    | .error e m => .error e { m with callDepth := m.callDepth - 1 }

def bindParams (ev : Evaluator) (scope : ScopeRef) : List Param → List Value → Run Unit
  | [], _ => return
  | .mk target default rest :: params, arguments => do
    let v ← if rest then makeArray arguments else pure (arguments.headD .undefined)
    let v ←
      match default, v with
      | some e, .undefined => ev.eval e scope
      | _, v => pure v
    bind scope true target v
    bindParams ev scope params arguments.tail

def invoke (ev : Evaluator) (f : Func) (scope : ScopeRef) (receiver : Value)
    (arguments : List Value) : Run Value := do
  -- Runs a function of the script in a new scope. Only functions without an arrow have a receiver
  -- and a list of arguments.
  let scope ← childScope scope
  unless f.arrow do
    declare scope "this" receiver false
    declare scope "arguments" (← makeArray arguments) true
  bindParams ev scope f.params arguments
  match f.body with
  | .value e => ev.eval e scope
  | .block statements =>
    match ← execAll ev statements scope with
    | .returned v => return v
    | _ => return .undefined

def callClosure (ev : Evaluator) (f : Func) (scope : ScopeRef) (receiver : Value)
    (arguments : List Value) : Run Value :=
  nested (invoke ev f scope receiver arguments)

def hasOwnEntry (o : ObjectRef) (arguments : List Value) : Run Value := do
  let key ← toText (argument arguments 0)
  return .bool ((← object o).hasOwn key)

def callFunction (ev : Evaluator) (f : Function) (receiver : Value) (arguments : List Value) :
    Run Value :=
  match f with
  | .closure f scope => callClosure ev f scope receiver arguments
  | .classDef c _ => raise (.classCall c.name)
  | .builtin b => callBuiltin ev.call b arguments
  | .stringMethod s m => stringMethod (fun f arguments => ev.call f .undefined arguments) s m arguments
  | .arrayMethod a m => arrayMethod ev.call a m arguments
  | .numberMethod x m => numberMethod x m arguments
  | .boolText b => return .string (if b then "true" else "false")
  | .objectMethod o .hasOwnProperty => hasOwnEntry o arguments
  | .objectMethod o .text => return .string (← toText (.object o))

def call (ev : Evaluator) : Caller := fun callee receiver arguments => do
  match callee with
  | .function f _ =>
    checkpoint
    callFunction ev f receiver arguments
  | v => raise (.notFunction (← describe v))

def makeMethods (scope : ScopeRef) (methods : List (String × Func)) : Run (List (String × Value)) :=
  methods.mapM fun (name, f) => return (name, ← makeClosure f scope)

def instantiate (ev : Evaluator) (c : ClassDef) (scope : ScopeRef) (arguments : List Value) :
    Run Value := do
  let methods ← makeMethods scope c.methods
  let made ← makeObject { className := some c.name, hidden := methods }
  if let some f := c.constructor? then
    discard (callClosure ev f scope made arguments)
  return made

def constructByClosure (ev : Evaluator) (f : Func) (scope : ScopeRef) (arguments : List Value) :
    Run Value := do
  let made ← makeObject { className := f.name? }
  match ← callClosure ev f scope made arguments with
  | .object o => return .object o
  | .array a => return .array a
  | _ => return made

def construct (ev : Evaluator) (callee : Value) (arguments : List Value) (label : String) :
    Run Value := do
  match callee with
  | .function f _ =>
    checkpoint
    match f with
    | .classDef c scope => instantiate ev c scope arguments
    | .closure f scope =>
      if f.arrow then raise (.notConstructor label)
      else constructByClosure ev f scope arguments
    | .builtin b => constructBuiltin b arguments
    | _ => raise (.notConstructor label)
  | _ => raise (.notConstructor label)

end Run

end Snippet.Script
