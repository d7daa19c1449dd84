import Snippet.Script.Expression

/-!
The effects of statements, one level deep: what is inside of a statement is left to an evaluator. Every
round of a loop passes a checkpoint, so a loop has no more rounds than there are checkpoints left.
-/

namespace Snippet.Script

namespace Run

def execBindings (ev : Evaluator) (scope : ScopeRef) (isMutable : Bool) :
    List (Target × Option Expr) → Run Flow
  | [] => return .normal
  | (target, e?) :: rest => do
    let v ←
      match e? with
      | some e => ev.eval e scope
      | none => pure .undefined
    bind scope isMutable target v
    execBindings ev scope isMutable rest

def rounds : Run Nat := fun m => .ok (m.checkpoints + 1) m

def whileLoop (ev : Evaluator) (test : Expr) (body : Stmt) (scope : ScopeRef) : Nat → Run Flow
  | 0 => throw .exhausted
  | fuel + 1 => do
    checkpoint
    if (← ev.eval test scope).truthy then
      match ← ev.exec body scope with
      | .broken => return .normal
      | .returned v => return .returned v
      | _ => whileLoop ev test body scope fuel
    else return .normal

def doLoop (ev : Evaluator) (body : Stmt) (test : Expr) (scope : ScopeRef) : Nat → Run Flow
  | 0 => throw .exhausted
  | fuel + 1 => do
    checkpoint
    match ← ev.exec body scope with
    | .broken => return .normal
    | .returned v => return .returned v
    | _ =>
      if (← ev.eval test scope).truthy then doLoop ev body test scope fuel else return .normal

def declaresPerRound : Option Stmt → Bool
  | some (.decl .letDecl _) => true
  | _ => false

def nextRound (copies : Bool) (outer scope : ScopeRef) : Run ScopeRef := do
  if copies then
    let bindings := ((← heap).scope scope).bindings
    makeScope { bindings, parent := some outer }
  else return scope

def forLoop (ev : Evaluator) (copies : Bool) (test update : Option Expr) (body : Stmt)
    (outer : ScopeRef) : Nat → ScopeRef → Run Flow
  | 0, _ => throw .exhausted
  | fuel + 1, scope => do
    checkpoint
    let goesOn ←
      match test with
      | some e => pure (← ev.eval e scope).truthy
      | none => pure true
    if goesOn then
      match ← ev.exec body scope with
      | .broken => return .normal
      | .returned v => return .returned v
      | _ =>
        let scope ← nextRound copies outer scope
        if let some e := update then discard (ev.eval e scope)
        forLoop ev copies test update body outer fuel scope
    else return .normal

def execFor (ev : Evaluator) (init : Option Stmt) (test update : Option Expr) (body : Stmt)
    (outer : ScopeRef) : Run Flow := do
  let scope ← childScope outer
  if let some s := init then discard (ev.exec s scope)
  forLoop ev (declaresPerRound init) test update body outer (← rounds) scope

def forEach (ev : Evaluator) (isMutable : Bool) (target : Target) (body : Stmt) (outer : ScopeRef) :
    List Value → Run Flow
  | [] => return .normal
  | v :: rest => do
    checkpoint
    let scope ← childScope outer
    bind scope isMutable target v
    match ← ev.exec body scope with
    | .broken => return .normal
    | .returned v => return .returned v
    | _ => forEach ev isMutable target body outer rest

def visited (keys : Bool) (subject : Value) : Run (List Value) := do
  if keys then return (← ownKeys subject).map .string else return (← iterate subject).toList

def caught? (fault : Fault) : Run (Option Value) := do
  match fault with
  | .raised e => some <$> makeError e.kind e.message
  | .thrown v => return some v
  | .timeout _ | .endless | .exhausted => return none

def handle (ev : Evaluator) (param : Option Target) (handler : List Stmt) (v : Value)
    (outer : ScopeRef) : Run Flow := do
  let scope ← childScope outer
  if let some target := param then bind scope true target v
  execAll ev handler scope

def guarded (ev : Evaluator) (block : List Stmt) (param : Option Target)
    (handler : Option (List Stmt)) (scope : ScopeRef) : Run Flow := do
  match ← outcome (execBlock ev block scope), handler with
  | .error fault, some handler =>
    match ← caught? fault with
    | some v => handle ev param handler v scope
    | none => throw fault
  | result, _ => ofOutcome result

def endsRun : Except Fault Flow → Bool
  | .error fault => fault.isFinal
  | .ok _ => false

def finish (ev : Evaluator) (finalizer : List Stmt) (result : Except Fault Flow)
    (scope : ScopeRef) : Run Flow := do
  -- Runs a finalizer after a result, which stands unless the finalizer ends otherwise than
  -- normally.
  if endsRun result then ofOutcome result
  else
    match ← execBlock ev finalizer scope with
    | .normal => ofOutcome result
    | flow => return flow

def execTry (ev : Evaluator) (block : List Stmt) (param : Option Target)
    (handler finalizer : Option (List Stmt)) (scope : ScopeRef) : Run Flow := do
  match finalizer with
  | none => guarded ev block param handler scope
  | some finalizer =>
    let result ← outcome (guarded ev block param handler scope)
    finish ev finalizer result scope

def matchingCases? (ev : Evaluator) (scope : ScopeRef) (v : Value) : List Case → Run (Option (List Case))
  | [] => return none
  | .mk none _ :: rest => matchingCases? ev scope v rest
  | .mk (some test) body :: rest => do
    if (← ev.eval test scope).strictEq v then return some (.mk (some test) body :: rest)
    else matchingCases? ev scope v rest

def defaultCases? : List Case → Option (List Case)
  | [] => none
  | .mk none body :: rest => some (.mk none body :: rest)
  | .mk (some _) _ :: rest => defaultCases? rest

def execCases (ev : Evaluator) (scope : ScopeRef) : List Case → Run Flow
  | [] => return .normal
  | .mk _ body :: rest => do
    match ← execAll ev body scope with
    | .normal => execCases ev scope rest
    | .broken => return .normal
    | flow => return flow

def execSelect (ev : Evaluator) (subject : Expr) (cases : List Case) (scope : ScopeRef) :
    Run Flow := do
  let v ← ev.eval subject scope
  match (← matchingCases? ev scope v cases) <|> defaultCases? cases with
  | some cases => execCases ev (← childScope scope) cases
  | none => return .normal

def execStmt (ev : Evaluator) (s : Stmt) (scope : ScopeRef) : Run Flow := do
  match s with
  | .expr e =>
    discard (ev.eval e scope)
    return .normal
  | .decl kind bindings => execBindings ev scope (kind != .constDecl) bindings
  | .function _ => return .normal
  | .empty => return .normal
  | .classDef c =>
    declare scope c.name (← makeClass c scope) true
    return .normal
  | .returns none => return .returned .undefined
  | .returns (some e) => return .returned (← ev.eval e scope)
  | .cond test yes no =>
    if (← ev.eval test scope).truthy then ev.exec yes scope
    else
      match no with
      | some no => ev.exec no scope
      | none => return .normal
  | .whileLoop test body => whileLoop ev test body scope (← rounds)
  | .doLoop body test => doLoop ev body test scope (← rounds)
  | .forLoop init test update body => execFor ev init test update body scope
  | .forEach keys kind target subject body =>
    let values ← visited keys (← ev.eval subject scope)
    forEach ev (kind != .constDecl) target body scope values
  | .breaks => return .broken
  | .continues => return .continued
  | .throws e => throw (.thrown (← ev.eval e scope))
  | .attempt block param handler finalizer => execTry ev block param handler finalizer scope
  | .select subject cases => execSelect ev subject cases scope
  | .block statements => execBlock ev statements scope

end Run

end Snippet.Script
