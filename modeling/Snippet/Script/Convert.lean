import Snippet.Script.Heap
import Snippet.Script.Token
import Snippet.Number.Reader
import Snippet.Text.Blank

/-!
Conversions of values to numbers and texts. Arrays are converted through their elements and errors
through their name and message, so a conversion follows references; on a cycle of them it has no
result.
-/

namespace Snippet.Script

def radixNumber (radix : Nat) (digits : List Char) : Float :=
  match Number.readWord? 64 radix digits with
  | some n => (UInt64.ofNat n).toFloat
  | none => Number.nan

def isDecimalChar (c : Char) : Bool :=
  c.isDigit || c == '.' || c == 'e' || c == 'E' || c == '+' || c == '-'

def numberOfText (s : String) : Float :=
  match Text.trim s.toList with
  | [] => 0.0
  | '0' :: 'x' :: digits => radixNumber 16 digits
  | '0' :: 'X' :: digits => radixNumber 16 digits
  | '0' :: 'b' :: digits => radixNumber 2 digits
  | '0' :: 'B' :: digits => radixNumber 2 digits
  | '0' :: 'o' :: digits => radixNumber 8 digits
  | '0' :: 'O' :: digits => radixNumber 8 digits
  | text =>
    if text == "Infinity".toList || text == "+Infinity".toList then Number.infinity
    else if text == "-Infinity".toList then -Number.infinity
    else if text.all isDecimalChar then (Number.readDecimal? text).getD Number.nan
    else Number.nan

def Heap.numberWithin? (h : Heap) : Nat → Value → Option Float
  -- The number of a value, following arrays of a single element through at most `fuel` arrays.
  | _, .undefined => some Number.nan
  | _, .null => some 0.0
  | _, .bool b => some (if b then 1.0 else 0.0)
  | _, .number x => some x
  | _, .string s => some (numberOfText s)
  | _, .object _ => some Number.nan
  | _, .function _ _ => some Number.nan
  | 0, .array _ => none
  | fuel + 1, .array a =>
    let items := h.items a
    if items.size == 0 then some 0.0
    else if items.size == 1 then numberWithin? h fuel (items.getD 0 .undefined)
    else some Number.nan

/-- The number of a value. A chain longer than there are arrays has a cycle. -/
def Heap.number? (h : Heap) (v : Value) : Option Float := h.numberWithin? (h.arrays.size + 1) v

inductive TextFault where
  /-- Arrays are nested more deeply than texts are made of. -/
  | tooDeep
  /-- The references that the text depends on form a cycle. -/
  | endless
deriving DecidableEq, Repr

def maxDepth : Nat := 1000

def Function.text : Function → String
  | .classDef c _ => s!"class {c.name} \x7b \x7d"
  | f => s!"function {f.name}() \x7b [native code] \x7d"

def errorText (name message : String) : String :=
  if message.isEmpty then name else s!"{name}: {message}"

mutual

def Heap.textWithin (h : Heap) : Nat → Value → Except TextFault String
  -- The text of a value in at most `fuel` steps. An array that is nested too deeply has an empty
  -- text.
  | _, .undefined => .ok "undefined"
  | _, .null => .ok "null"
  | _, .bool b => .ok (if b then "true" else "false")
  | _, .number x => .ok (String.ofList (numberText x))
  | _, .string s => .ok s
  | _, .function f _ => .ok f.text
  | 0, .array _ => .error .endless
  | fuel + 1, .array a =>
    match joinWithin h fuel [] a with
    | .error .tooDeep => .ok ""
    | outcome => outcome
  | 0, .object _ => .error .endless
  | fuel + 1, .object o =>
    let object := h.object o
    let field (key : String) : Except TextFault String :=
      match object.get? key with
      | some v => textWithin h fuel v
      | none => .ok ""
    if object.isError then do return errorText (← field "name") (← field "message")
    else .ok "[object Object]"

def Heap.joinWithin (h : Heap) : Nat → List ArrayRef → ArrayRef → Except TextFault String
  -- The texts of an array's elements with commas between them. An array within itself is empty, and
  -- so are missing values.
  | 0, _, _ => .error .endless
  | fuel + 1, around, a =>
    if around.contains a then .ok ""
    else if maxDepth ≤ around.length then .error .tooDeep
    else do
      let parts ← (h.items a).toList.mapM fun
        | .undefined => .ok ""
        | .null => .ok ""
        | .array inner => joinWithin h fuel (a :: around) inner
        | v => textWithin h fuel v
      return ",".intercalate parts

end

def Heap.textFuel (h : Heap) : Nat := (h.objects.size + 2) * (maxDepth + 3)

def Heap.text (h : Heap) (v : Value) : Except TextFault String := h.textWithin h.textFuel v

def Heap.strictText (h : Heap) (v : Value) : Except TextFault String :=
  match v with
  | .array a => h.joinWithin h.textFuel [] a
  | v => h.text v

end Snippet.Script
