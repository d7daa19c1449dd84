import Snippet.Script.Fault
import Snippet.Script.Inspect
import Snippet.Json.Writer

/-!
Values as JSON. Functions and missing values have no JSON form: an object leaves them out and an array
has `null` in their place.
-/

namespace Snippet.Script

def numberJson (x : Float) : Json :=
  -- A number as JSON: whole numbers below `2 ^ 53` are written without a fraction, and what is not
  -- finite is `null`.
  if Number.isExact x then .integer (Number.toInt64Clamped x)
  else if x.isFinite then .float x
  else .null

def Heap.jsonWithin? (h : Heap) :
    Nat → List Container → Value → Except RuntimeError (Option Json)
  -- The JSON form of a value inside of the given containers, of which there may be `depth` more.
  | _, _, .undefined => .ok none
  | _, _, .function _ _ => .ok none
  | _, _, .null => .ok (some .null)
  | _, _, .bool b => .ok (some (.bool b))
  | _, _, .number x => .ok (some (numberJson x))
  | _, _, .string s => .ok (some (.string s))
  | depth, around, .array a =>
    if around.contains (.array a) then .error .circularJson
    else
      match depth with
      | 0 => .error .stackOverflow
      | depth + 1 => do
        let items ← (h.items a).toList.mapM fun v => do
          return (← jsonWithin? h depth (.array a :: around) v).getD .null
        return some (.array items)
  | depth, around, .object o =>
    if around.contains (.object o) then .error .circularJson
    else
      match depth with
      | 0 => .error .stackOverflow
      | depth + 1 => do
        let members ← (h.object o).entries.mapM fun (key, v) => do
          return (← jsonWithin? h depth (.object o :: around) v).map fun json => (key, json)
        return some (.object (members.filterMap id))

def Heap.json? (h : Heap) (v : Value) : Except RuntimeError (Option Json) :=
  h.jsonWithin? maxDepth [] v

end Snippet.Script
