import Snippet.Script.Builtin
import Snippet.Script.Tree

/-!
The values of scripts. Arrays, objects and scopes live in the heap and values refer to them by address;
all other values are complete in themselves. A function carries an identity, by which alone it is
compared.
-/

namespace Snippet.Script

structure ArrayRef where
  address : Nat
deriving DecidableEq, Repr

structure ObjectRef where
  address : Nat
deriving DecidableEq, Repr

structure ScopeRef where
  address : Nat
deriving DecidableEq, Repr

inductive Function where
  /-- A function of the script with the scope it was made in. -/
  | closure (f : Func) (scope : ScopeRef)
  | classDef (c : ClassDef) (scope : ScopeRef)
  | builtin (b : Builtin)
  | stringMethod (receiver : String) (m : StringMethod)
  | arrayMethod (receiver : ArrayRef) (m : ArrayMethod)
  | numberMethod (receiver : Float) (m : NumberMethod)
  /-- The method that gives the text of a truth value. -/
  | boolText (receiver : Bool)
  | objectMethod (receiver : ObjectRef) (m : ObjectMethod)

def Function.name : Function → String
  | .closure f _ => f.name?.getD ""
  | .classDef c _ => c.name
  | .builtin b => b.name
  | .stringMethod _ m => m.name
  | .arrayMethod _ m => m.name
  | .numberMethod _ m => m.name
  | .boolText _ => "toString"
  | .objectMethod _ m => m.name

inductive Value where
  | undefined
  | null
  | bool (b : Bool)
  | number (x : Float)
  | string (s : String)
  | array (a : ArrayRef)
  | object (o : ObjectRef)
  | function (f : Function) (identity : Nat)
deriving Inhabited

namespace Value

def ofNat (n : Nat) : Value := .number (Float.ofNat n)

def ofChars (s : List Char) : Value := .string (String.ofList s)

def ofChar (c : Char) : Value := .string (String.singleton c)

def isNullish : Value → Bool
  | .undefined | .null => true
  | _ => false

def isFunction : Value → Bool
  | .function _ _ => true
  | _ => false

def truthy : Value → Bool
  | .undefined | .null => false
  | .bool b => b
  | .number x => x != 0.0 && !x.isNaN
  | .string s => !s.isEmpty
  | _ => true

def typeName : Value → String
  | .undefined => "undefined"
  | .null | .array _ | .object _ => "object"
  | .bool _ => "boolean"
  | .number _ => "number"
  | .string _ => "string"
  | .function _ _ => "function"

def strictEq : Value → Value → Bool
  | .undefined, .undefined => true
  | .null, .null => true
  | .bool a, .bool b => a == b
  | .number a, .number b => a == b
  | .string a, .string b => a == b
  | .array a, .array b => a == b
  | .object a, .object b => a == b
  | .function _ a, .function _ b => a == b
  | _, _ => false

def sameValue : Value → Value → Bool
  | .number a, .number b => a == b || (a.isNaN && b.isNaN)
  | a, b => a.strictEq b

end Value

end Snippet.Script
