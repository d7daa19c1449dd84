import Snippet.Script.Call

/-!
The values of expressions and assignments to them, one level deep: what is inside of an expression is
left to an evaluator.
-/

namespace Snippet.Script

def calleeLabel : Expr → String
  | .name name => name
  | .member object (.named name) _ => s!"{calleeLabel object}.{name}"
  | .member object (.computed _) _ => calleeLabel object ++ "[...]"
  | .call callee _ _ => calleeLabel callee ++ "(...)"
  | .this => "this"
  | .number x => String.ofList (numberText x)
  | _ => "expression"

def LogicalOp.stops : LogicalOp → Value → Bool
  | .and, v => !v.truthy
  | .or, v => v.truthy
  | .nullish, v => !v.isNullish

namespace Run

def keyOf (ev : Evaluator) (scope : ScopeRef) : Key → Run String
  | .named name => return name
  | .computed e => do toText (← ev.eval e scope)

def templateText (ev : Evaluator) (scope : ScopeRef) (done : String) : List Piece → Run String
  -- The text of a template after `done`.
  | [] => return done
  | .text s :: rest => templateText ev scope (done ++ s) rest
  | .value e :: rest => do
    let text ← toStrictText (← ev.eval e scope)
    templateText ev scope (done ++ text) rest

def evalItems (ev : Evaluator) (scope : ScopeRef) (done : List Value) : List Item → Run (List Value)
  -- The values of elements or arguments after those in `done`, the last one first; a spread one
  -- stands for its own elements.
  | [] => return done.reverse
  | .mk spread e :: rest => do
    let v ← ev.eval e scope
    if spread then evalItems ev scope ((← iterate v).toList.reverse ++ done) rest
    else evalItems ev scope (v :: done) rest

def spreadInto (o : Object) (v : Value) : Run Object := do
  (← ownKeys v).foldlM (fun (o : Object) key => return o.set key (← getMember v key)) o

def evalMembers (ev : Evaluator) (scope : ScopeRef) (o : Object) : List Member → Run Object
  | [] => return o
  | .init key e :: rest => do
    let key ← keyOf ev scope key
    let v ← ev.eval e scope
    evalMembers ev scope (o.set key v) rest
  | .spread e :: rest => do
    let v ← ev.eval e scope
    evalMembers ev scope (← spreadInto o v) rest

def evalSequence (ev : Evaluator) (scope : ScopeRef) (last : Value) : List Expr → Run Value
  | [] => return last
  | e :: rest => do evalSequence ev scope (← ev.eval e scope) rest

def evalName (scope : ScopeRef) (name : String) : Run Value := do
  match ← lookup? scope name with
  | some v => return v
  | none => raise (.notDefined name)

def evalTypeOf (ev : Evaluator) (scope : ScopeRef) (operand : Expr) : Run Value := do
  match operand with
  | .name name => return .string ((← lookup? scope name).getD .undefined).typeName
  | e => return .string (← ev.eval e scope).typeName

def evalDelete (ev : Evaluator) (scope : ScopeRef) (operand : Expr) : Run Value := do
  -- Removes an entry of an object; whatever else is to be deleted stays, and is not even evaluated
  -- unless it is a member.
  match operand with
  | .member object key _ =>
    let v ← ev.eval object scope
    let key ← keyOf ev scope key
    match v with
    | .object o => modifyObject o fun object => object.remove key
    | _ => pure ()
  | _ => pure ()
  return .bool true

def evalUnary (ev : Evaluator) (scope : ScopeRef) (op : UnaryOp) (operand : Expr) : Run Value := do
  match op with
  | .typeOf => evalTypeOf ev scope operand
  | .delete => evalDelete ev scope operand
  | .discard =>
    discard (ev.eval operand scope)
    return .undefined
  | .neg => return .number (-(← toNumber (← ev.eval operand scope)))
  | .plus => return .number (← toNumber (← ev.eval operand scope))
  | .not => return .bool !(← ev.eval operand scope).truthy
  | .bitNot => return .number (numberOfWord (~~~ wordOf (← toNumber (← ev.eval operand scope))))

def evalUpdate (ev : Evaluator) (scope : ScopeRef) (increment before : Bool) (target : Expr) :
    Run Value := do
  let old ← toNumber (← ev.eval target scope)
  let new := if increment then old + 1.0 else old - 1.0
  ev.assign target (.number new) scope
  return .number (if before then new else old)

def evalAssign (ev : Evaluator) (scope : ScopeRef) (op : Option BinaryOp) (target value : Expr) :
    Run Value := do
  -- An assignment. With an operator, the value that is assigned is made from the target's value.
  let v ←
    match op with
    | none => ev.eval value scope
    | some op => do
      let current ← ev.eval target scope
      let operand ← ev.eval value scope
      binary op current operand
  ev.assign target v scope
  return v

def evalMember (ev : Evaluator) (scope : ScopeRef) (object : Expr) (key : Key) (isOptional : Bool) :
    Run Value := do
  let v ← ev.eval object scope
  if isOptional && v.isNullish then return .undefined
  else getMember v (← keyOf ev scope key)

def evalCallee (ev : Evaluator) (scope : ScopeRef) (callee : Expr) : Run (Option (Value × Value)) := do
  -- The function that a call names and the receiver it is called with; none if the call is optional
  -- in a member that is not there.
  match callee with
  | .member object key isOptional =>
    let receiver ← ev.eval object scope
    if isOptional && receiver.isNullish then return none
    else return some (← getMember receiver (← keyOf ev scope key), receiver)
  | e => return some (← ev.eval e scope, .undefined)

def evalCall (ev : Evaluator) (scope : ScopeRef) (callee : Expr) (arguments : List Item)
    (isOptional : Bool) : Run Value := do
  match ← evalCallee ev scope callee with
  | none => return .undefined
  | some (f, receiver) =>
    if isOptional && f.isNullish then return .undefined
    else if f.isFunction then
      let arguments ← evalItems ev scope [] arguments
      ev.call f receiver arguments
    else raise (.notFunction (calleeLabel callee))

def evalConstruct (ev : Evaluator) (scope : ScopeRef) (callee : Expr) (arguments : List Item) :
    Run Value := do
  let f ← ev.eval callee scope
  let arguments ← evalItems ev scope [] arguments
  ev.construct f arguments (calleeLabel callee)

def evalExpr (ev : Evaluator) (e : Expr) (scope : ScopeRef) : Run Value := do
  match e with
  | .number x => return .number x
  | .string s => return .string s
  | .bool b => return .bool b
  | .null => return .null
  | .undefined => return .undefined
  | .this => return (← lookup? scope "this").getD .undefined
  | .name name => evalName scope name
  | .template pieces => makeString (← templateText ev scope "" pieces)
  | .array items => makeArray (← evalItems ev scope [] items)
  | .object members => makeObject (← evalMembers ev scope {} members)
  | .function f => makeClosure f scope
  | .classDef c => makeClass c scope
  | .unary op operand => evalUnary ev scope op operand
  | .update increment before target => evalUpdate ev scope increment before target
  | .binary op left right =>
    let left ← ev.eval left scope
    let right ← ev.eval right scope
    binary op left right
  | .logical op left right =>
    let v ← ev.eval left scope
    if op.stops v then return v else ev.eval right scope
  | .assign op target value => evalAssign ev scope op target value
  | .conditional test yes no =>
    if (← ev.eval test scope).truthy then ev.eval yes scope else ev.eval no scope
  | .member object key isOptional => evalMember ev scope object key isOptional
  | .call callee arguments isOptional => evalCall ev scope callee arguments isOptional
  | .construct callee arguments => evalConstruct ev scope callee arguments
  | .sequence items => evalSequence ev scope .undefined items

def assignName (name : String) (value : Value) (scope : ScopeRef) : Run Unit := do
  -- Assigns a variable. A name that no scope declares becomes a global variable.
  match (← heap).resolve? scope name with
  | some (owner, binding) =>
    if binding.mutable then declare owner name value true else raise .constantAssignment
  | none => declare globalScope name value true

def assignItems (ev : Evaluator) (scope : ScopeRef) : List Item → List Value → Run Unit
  | [], _ => return
  | .mk spread e :: rest, vs => do
    if spread then ev.assign e (← makeArray vs) scope
    else
      ev.assign e (vs.headD .undefined) scope
      assignItems ev scope rest vs.tail

def assignMembers (ev : Evaluator) (scope : ScopeRef) (value : Value) : List Member → Run Unit
  | [] => return
  | .spread _ :: rest => assignMembers ev scope value rest
  | .init key e :: rest => do
    let key ← keyOf ev scope key
    ev.assign e (← getMember value key) scope
    assignMembers ev scope value rest

def assignExpr (ev : Evaluator) (target : Expr) (value : Value) (scope : ScopeRef) : Run Unit := do
  match target with
  | .name name => assignName name value scope
  | .member object key _ =>
    let v ← ev.eval object scope
    let key ← keyOf ev scope key
    setMember v key value
  | .array items => assignItems ev scope items (← iterate value).toList
  | .object members => assignMembers ev scope value members
  | _ => raise .invalidTarget

end Run

end Snippet.Script
