import Snippet.Script.Machine
import Snippet.Text.Search

/-!
Members of values. Strings and arrays have elements under the decimal texts of their indices, a length
and methods; objects have what was stored in them.
-/

namespace Snippet.Script

def indexOfKey? (key : String) : Option Nat :=
  match key.toList with
  | [] => none
  | ['0'] => some 0
  | '0' :: _ => none
  | digits =>
    if digits.all Char.isDigit then
      (Number.digitsValue? 10 0 digits).filter (· < Number.twoTo 64)
    else none

def keyOfIndex (i : Nat) : String := String.ofList (Number.digits i)

def Heap.ownKeys (h : Heap) : Value → List String
  -- The keys of a value in order: those of the entries of an object, the indices of an array or a
  -- string.
  | .object o => (h.object o).entries.map Prod.fst
  | .array a => (List.range (h.items a).size).map keyOfIndex
  | .string s => (List.range s.length).map keyOfIndex
  | _ => []

namespace Run

def makeMethod (f : Option Function) : Run Value :=
  match f with
  | some f => makeFunction f
  | none => pure .undefined

def stringMember (s key : String) : Run Value :=
  if key == "length" then pure (.ofNat s.length)
  else
    match indexOfKey? key with
    | some i => pure (((Text.charAt? s i).map Value.ofChar).getD .undefined)
    | none => makeMethod ((StringMethod.ofName? key).map (.stringMethod s))

def arrayMember (a : ArrayRef) (key : String) : Run Value :=
  if key == "length" then do return .ofNat (← items a).size
  else
    match indexOfKey? key with
    | some i => do return (← items a).getD i Value.undefined
    | none => makeMethod ((ArrayMethod.ofName? key).map (.arrayMethod a))

def objectMember (o : ObjectRef) (key : String) : Run Value := do
  match (← object o).get? key with
  | some v => return v
  | none => makeMethod ((ObjectMethod.ofName? key).map (.objectMethod o))

def builtinMember (b : Builtin) (key : String) : Run Value :=
  match b.constant? key with
  | some x => pure (.number x)
  | none =>
    if key == "name" then pure (.string b.name)
    else makeMethod ((b.member? key).map .builtin)

def classMember (c : ClassDef) (scope : ScopeRef) (key : String) : Run Value :=
  match c.statics.lookup key with
  | some method => makeClosure method scope
  | none => pure (if key == "name" then .string c.name else .undefined)

def functionMember (f : Function) (key : String) : Run Value :=
  match f with
  | .builtin b => builtinMember b key
  | .classDef c scope => classMember c scope key
  | f => pure (if key == "name" then .string f.name else .undefined)

def getMember (v : Value) (key : String) : Run Value :=
  match v with
  | .undefined => raise (.readOfNullish "undefined" key)
  | .null => raise (.readOfNullish "null" key)
  | .bool b => makeMethod (if key == "toString" then some (.boolText b) else none)
  | .number x => makeMethod ((NumberMethod.ofName? key).map (.numberMethod x))
  | .string s => stringMember s key
  | .array a => arrayMember a key
  | .object o => objectMember o key
  | .function f _ => functionMember f key

def putItem (i : Nat) (value : Value) (items : Array Value) : Array Value :=
  if i < items.size then items.setIfInBounds i value
  else (items ++ Array.replicate (i - items.size) Value.undefined).push value

def resize (n : Nat) (items : Array Value) : Array Value :=
  if n ≤ items.size then items.take n else items ++ Array.replicate (n - items.size) .undefined

def setItem (a : ArrayRef) (i : Nat) (value : Value) : Run Unit := do
  if maxArraySize ≤ i then raise .arrayLength
  else
    charge ((i + 1 - (← items a).size) * 16)
    modifyItems a (putItem i value)

def setLength (a : ArrayRef) (length : Float) : Run Unit :=
  if length < 0.0 || !Number.isWhole length || maxArraySize < Number.toNatClamped length then
    raise .arrayLength
  else modifyItems a (resize (Number.toNatClamped length))

def setMember (v : Value) (key : String) (value : Value) : Run Unit :=
  -- Stores a member of a value. Values without members of their own ignore it.
  match v with
  | .undefined => raise (.writeOfNullish "undefined" key)
  | .null => raise (.writeOfNullish "null" key)
  | .array a =>
    match indexOfKey? key with
    | some i => setItem a i value
    | none => if key == "length" then do setLength a (← toNumber value) else pure ()
  | .object o => modifyObject o fun object => object.set key value
  | _ => pure ()

def ownKeys (v : Value) : Run (List String) := return (← heap).ownKeys v

def describe (v : Value) : Run String :=
  match v with
  | .string s => pure s!"\"{s}\""
  | .function f _ => pure f.name
  | .array _ => pure v.typeName
  | .object _ => pure v.typeName
  | v => toText v

def iterate (v : Value) : Run (Array Value) :=
  match v with
  | .array a => items a
  | .string s => pure (s.toList.map Value.ofChar).toArray
  | v => do raise (.notIterable (← describe v))

end Run

end Snippet.Script
