import Snippet.Script.Tree

/-!
The heights of syntax trees: how many expressions and statements stand within each other, functions
and classes counted with what is inside of them.
-/

namespace Snippet.Script

mutual

def Expr.height : Expr → Nat
  | .number _ | .string _ | .bool _ | .null | .undefined | .this | .name _ => 1
  | .template pieces => piecesHeight pieces + 1
  | .array items => itemsHeight items + 1
  | .object members => membersHeight members + 1
  | .function f => f.height + 1
  | .classDef c => c.height + 1
  | .unary _ operand => operand.height + 1
  | .update _ _ target => target.height + 1
  | .binary _ left right => max left.height right.height + 1
  | .logical _ left right => max left.height right.height + 1
  | .assign _ target value => max target.height value.height + 1
  | .conditional test yes no => max test.height (max yes.height no.height) + 1
  | .member object key _ => max object.height key.height + 1
  | .call callee arguments _ => max callee.height (itemsHeight arguments) + 1
  | .construct callee arguments => max callee.height (itemsHeight arguments) + 1
  | .sequence items => expressionsHeight items + 1

def Key.height : Key → Nat
  | .named _ => 0
  | .computed e => e.height

def Func.height : Func → Nat
  | .mk _ params (.block statements) _ => max (paramsHeight params) (statementsHeight statements)
  | .mk _ params (.value e) _ => max (paramsHeight params) e.height

def ClassDef.height : ClassDef → Nat
  | .mk _ none methods statics => max (methodsHeight methods) (methodsHeight statics)
  | .mk _ (some f) methods statics =>
    max f.height (max (methodsHeight methods) (methodsHeight statics))

def Stmt.height : Stmt → Nat
  | .empty | .breaks | .continues | .returns none => 1
  | .expr e => e.height + 1
  | .decl _ bindings => bindingsHeight bindings + 1
  | .function f => f.height + 1
  | .classDef c => c.height + 1
  | .returns (some e) => e.height + 1
  | .cond test yes none => max test.height yes.height + 1
  | .cond test yes (some no) => max test.height (max yes.height no.height) + 1
  | .whileLoop test body => max test.height body.height + 1
  | .doLoop body test => max body.height test.height + 1
  | .forLoop init test update body =>
    max (startHeight init) (max (optionHeight test) (max (optionHeight update) body.height)) + 1
  | .forEach _ _ _ subject body => max subject.height body.height + 1
  | .throws e => e.height + 1
  | .attempt block _ handler finalizer =>
    max (statementsHeight block) (max (blockHeight handler) (blockHeight finalizer)) + 1
  | .select subject cases => max subject.height (casesHeight cases) + 1
  | .block statements => statementsHeight statements + 1

def piecesHeight : List Piece → Nat
  | [] => 0
  | .text _ :: rest => piecesHeight rest
  | .value e :: rest => max e.height (piecesHeight rest)

def itemsHeight : List Item → Nat
  | [] => 0
  | .mk _ e :: rest => max e.height (itemsHeight rest)

def membersHeight : List Member → Nat
  | [] => 0
  | .init key e :: rest => max (max key.height e.height) (membersHeight rest)
  | .spread e :: rest => max e.height (membersHeight rest)

def expressionsHeight : List Expr → Nat
  | [] => 0
  | e :: rest => max e.height (expressionsHeight rest)

def paramsHeight : List Param → Nat
  | [] => 0
  | .mk _ none _ :: rest => paramsHeight rest
  | .mk _ (some e) _ :: rest => max e.height (paramsHeight rest)

def methodsHeight : List (String × Func) → Nat
  | [] => 0
  | (_, f) :: rest => max f.height (methodsHeight rest)

def bindingsHeight : List (Target × Option Expr) → Nat
  | [] => 0
  | (_, none) :: rest => bindingsHeight rest
  | (_, some e) :: rest => max e.height (bindingsHeight rest)

def optionHeight : Option Expr → Nat
  | none => 0
  | some e => e.height

def startHeight : Option Stmt → Nat
  | none => 0
  | some s => s.height

def blockHeight : Option (List Stmt) → Nat
  | none => 0
  | some statements => statementsHeight statements

def casesHeight : List Case → Nat
  | [] => 0
  | .mk none body :: rest => max (statementsHeight body) (casesHeight rest)
  | .mk (some test) body :: rest =>
    max (max test.height (statementsHeight body)) (casesHeight rest)

def statementsHeight : List Stmt → Nat
  | [] => 0
  | s :: rest => max s.height (statementsHeight rest)

end

end Snippet.Script
