import Snippet.Script.Member

/-!
The operators on two values, and the conversions of operands that they make.
-/

namespace Snippet.Script

def wordOf (x : Float) : Int32 := Int32.ofInt (Number.toInt x)

def numberOfWord (w : Int32) : Float := Float.ofInt w.toInt

namespace Run

def toPrimitive (v : Value) : Run Value :=
  match v with
  | .array _ => return .string (← toText v)
  | .object _ => return .string (← toText v)
  | .function f _ => return .string f.text
  | v => pure v

def toSummand (v : Value) : Run Value :=
  match v with
  | .array _ => return .string (← toStrictText v)
  | v => toPrimitive v

def add (left right : Value) : Run Value := do
  match left, right with
  | .number x, .number y => return .number (x + y)
  | left, right =>
    match ← toSummand left, ← toSummand right with
    | .string s, v => makeString (s ++ (← toText v))
    | v, .string s => makeString ((← toText v) ++ s)
    | v, w => return .number ((← toNumber v) + (← toNumber w))

def numeric (f : Float → Float → Float) (left right : Value) : Run Value := do
  return .number (f (← toNumber left) (← toNumber right))

def bitwise (f : Int32 → Int32 → Int32) : Value → Value → Run Value :=
  numeric fun x y => numberOfWord (f (wordOf x) (wordOf y))

def compareNumbers? (x y : Float) : Option Ordering :=
  if x < y then some .lt else if y < x then some .gt else if x == y then some .eq else none

def compareTexts (s t : String) : Ordering := if s < t then .lt else if s == t then .eq else .gt

def compare? (left right : Value) : Run (Option Ordering) := do
  match ← toPrimitive left, ← toPrimitive right with
  | .string s, .string t => return some (compareTexts s t)
  | v, w => return compareNumbers? (← toNumber v) (← toNumber w)

def comparison (holds : Ordering → Bool) (left right : Value) : Run Value := do
  return .bool ((← compare? left right).any holds)

def looseEqPrimitive (left right : Value) : Run Bool := do
  -- Equality of two values that are no containers, after conversion to numbers where their types
  -- differ.
  match left, right with
  | .number _, .string _ => return (← toNumber left) == (← toNumber right)
  | .string _, .number _ => return (← toNumber left) == (← toNumber right)
  | left, right => return left.strictEq right

def looseEq (left right : Value) : Run Bool := do
  match left, right with
  | .undefined, w => return w.isNullish
  | .null, w => return w.isNullish
  | v, .undefined => return v.isNullish
  | v, .null => return v.isNullish
  | .bool _, _ => return (← toNumber left) == (← toNumber right)
  | _, .bool _ => return (← toNumber left) == (← toNumber right)
  | .array _, .string _ | .array _, .number _ | .object _, .string _ | .object _, .number _
  | .string _, .array _ | .number _, .array _ | .string _, .object _ | .number _, .object _ =>
    looseEqPrimitive (← toPrimitive left) (← toPrimitive right)
  | v, w => looseEqPrimitive v w

def isIn (key container : Value) : Run Value := do
  let key ← toText key
  match container with
  | .object o => return .bool ((← object o).get? key).isSome
  | .array a =>
    let size := (← items a).size
    return .bool (key == "length" || (indexOfKey? key).any (· < size))
  | v => raise (.inOperand key (← toText v))

def instanceOf (value function : Value) : Run Value := do
  let .function f _ := function | raise .instanceOperand
  let maker : Object ←
    match value with
    | .object o => object o
    | _ => pure {}
  return .bool <|
    match f with
    | .classDef c _ => maker.className == some c.name
    | .closure g _ => g.name?.isSome && maker.className == g.name?
    | .builtin (.error .general) => maker.isError
    | .builtin (.error kind) => maker.isError && maker.className == some kind.name
    | .builtin .array =>
      match value with
      | .array _ => true
      | _ => false
    | .builtin .object =>
      match value with
      | .array _ | .object _ | .function _ _ => true
      | _ => false
    | _ => false

def binary (op : BinaryOp) (left right : Value) : Run Value :=
  match op with
  | .add => add left right
  | .sub => numeric (· - ·) left right
  | .mul => numeric (· * ·) left right
  | .div => numeric (· / ·) left right
  | .mod => numeric Number.remainder left right
  | .pow => numeric Number.power left right
  | .looseEq => return .bool (← looseEq left right)
  | .looseNe => return .bool !(← looseEq left right)
  | .strictEq => return .bool (left.strictEq right)
  | .strictNe => return .bool !(left.strictEq right)
  | .lt => comparison (· == .lt) left right
  | .gt => comparison (· == .gt) left right
  | .le => comparison (· != .gt) left right
  | .ge => comparison (· != .lt) left right
  | .bitAnd => bitwise (· &&& ·) left right
  | .bitOr => bitwise (· ||| ·) left right
  | .bitXor => bitwise (· ^^^ ·) left right
  | .shl => bitwise (· <<< ·) left right
  | .shr => bitwise (· >>> ·) left right
  | .ushr => numeric (fun x y => ((wordOf x).toUInt32 >>> (wordOf y).toUInt32).toFloat) left right
  | .isIn => isIn left right
  | .instanceOf => instanceOf left right

end Run

end Snippet.Script
