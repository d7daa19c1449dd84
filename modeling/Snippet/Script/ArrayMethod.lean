import Snippet.Script.Sort
import Snippet.Script.StringMethod

/-!
The methods of arrays. Those that call a function of the script work on the elements that the array has
at the beginning, whatever the function does to it.
-/

namespace Snippet.Script

abbrev Caller := Value → Value → List Value → Run Value

def indexed (xs : List Value) : List (Nat × Value) := xs.zipIdx.map fun (v, i) => (i, v)

def spliced (start count : Nat) (inserted : List Value) (items : Array Value) : Array Value :=
  items.take start ++ inserted.toArray ++ items.drop (start + count)

def filled (start stop : Nat) (value : Value) (items : Array Value) : Array Value :=
  let stop := min stop items.size
  if start < stop then
    items.take start ++ Array.replicate (stop - start) value ++ items.drop stop
  else items

namespace Run

def callbackArgument (arguments : List Value) (method : String) : Run Value := do
  match arguments with
  | [] => raise (.missingCallback method)
  | f :: _ => if f.isFunction then return f else raise (.notFunction (← toPrinted f))

def flattenWithin (depth : Float) : Nat → List Value → List Value → Run (List Value)
  -- The elements of nested arrays down to a depth in front of those in `done`, the last one first;
  -- `room` more levels may be entered at all.
  | 0, _, _ => raise .stackOverflow
  | room + 1, done, xs =>
    xs.foldlM (fun done v => do
      match v with
      | .array inner =>
        if 1.0 ≤ depth then flattenWithin (depth - 1.0) room done (← items inner).toList
        else return v :: done
      | v => return v :: done) done

def reduce (call : Caller) (callback array : Value) (acc : Value) : List (Nat × Value) → Run Value
  | [] => return acc
  | (i, v) :: rest => do
    let acc ← call callback .undefined [acc, v, .ofNat i, array]
    reduce call callback array acc rest

def reduceFrom (call : Caller) (callback array : Value) (start : Option Value)
    (xs : List (Nat × Value)) : Run Value :=
  match start, xs with
  | some acc, xs => reduce call callback array acc xs
  | none, (_, acc) :: xs => reduce call callback array acc xs
  | none, [] => raise .emptyReduce

def visitResult (v : Visit) (done : List Value) : Run Value :=
  -- What a method has when no element has ended it: `done` holds what it collected, the last one
  -- first.
  match v with
  | .forEach | .find | .findLast => return .undefined
  | .findIndex | .findLastIndex => return .number (-1.0)
  | .any => return .bool false
  | .every => return .bool true
  | .map | .flatMap | .filter => makeArray done.reverse

def visitStep (v : Visit) (done : List Value) (i : Nat) (item result : Value) :
    Run (Except Value (List Value)) := do
  -- What an element with its index comes to for a method, given what the function returned for it:
  -- the result of the method, or what it has collected so far.
  match v with
  | .forEach => return .ok done
  | .map => return .ok (result :: done)
  | .flatMap =>
    match result with
    | .array inner => return .ok ((← items inner).toList.reverse ++ done)
    | other => return .ok (other :: done)
  | .filter => return .ok (if result.truthy then item :: done else done)
  | .find | .findLast => return if result.truthy then .error item else .ok done
  | .findIndex | .findLastIndex => return if result.truthy then .error (.ofNat i) else .ok done
  | .any => return if result.truthy then .error (.bool true) else .ok done
  | .every => return if result.truthy then .ok done else .error (.bool false)

def visit (call : Caller) (v : Visit) (callback receiver array : Value) (done : List Value) :
    List (Nat × Value) → Run Value
  | [] => visitResult v done
  | (i, item) :: rest => do
    let result ← call callback receiver [item, .ofNat i, array]
    match ← visitStep v done i item result with
    | .error result => return result
    | .ok done => visit call v callback receiver array done rest

def joined (separator : String) (xs : List Value) : Run Value := do
  let parts ← xs.mapM fun v => if v.isNullish then pure "" else toStrictText v
  makeString (separator.intercalate parts)

def splice (a : ArrayRef) (arguments : List Value) : Run Value := do
  let length := (← items a).size
  let start := resolvePlace (← numberArgument? arguments 0) length 0
  let count ←
    match arguments with
    | [] => pure 0
    | [_] => pure (length - start)
    | _ :: count :: _ => do pure (min (countOf (← toNumber count)) (length - start))
  let removed := (← items a).extract start (start + count)
  modifyItems a (spliced start count (arguments.drop 2))
  makeArrayOf removed

def concatenated (a : ArrayRef) (arguments : List Value) : Run Value := do
  -- The elements of the array followed by the arguments; an array among them stands for its
  -- elements.
  let all ← arguments.foldlM (fun (acc : Array Value) v => do
    match v with
    | .array other => return acc ++ (← items other)
    | v => return acc.push v) (← items a)
  makeArrayOf all

def sortOrder (call : Caller) (arguments : List Value) : Run SwapTest :=
  match argument arguments 0 with
  | .undefined => return textOrder
  | f =>
    if f.isFunction then return functionOrder fun x y => call f .undefined [x, y]
    else raise .badComparator

def indexValue (i? : Option Nat) : Value := (i?.map Value.ofNat).getD (.number (-1.0))

def checkGrowth (a : ArrayRef) (arguments : List Value) : Run Unit := do
  if maxArraySize < (← items a).size + arguments.length then raise .arrayLength

def lengthValue (a : ArrayRef) : Run Value := return .ofNat (← items a).size

def arrayMethod (call : Caller) (a : ArrayRef) (m : ArrayMethod) (arguments : List Value) :
    Run Value := do
  match m with
  | .push =>
    checkGrowth a arguments
    modifyItems a fun xs => arguments.foldl Array.push xs
    lengthValue a
  | .pop =>
    let last := (← items a).back?.getD .undefined
    modifyItems a Array.pop
    return last
  | .shift =>
    let first := (← items a).getD 0 .undefined
    modifyItems a fun xs => xs.drop 1
    return first
  | .unshift =>
    checkGrowth a arguments
    modifyItems a fun xs => arguments.toArray ++ xs
    lengthValue a
  | .item =>
    let xs ← items a
    let i? := resolveIndex? (← numberArgument? arguments 0) xs.size
    return (i?.bind fun i => xs[i]?).getD .undefined
  | .slice =>
    let xs ← items a
    let start := resolvePlace (← numberArgument? arguments 0) xs.size 0
    let stop := resolvePlace (← numberArgument? arguments 1) xs.size xs.size
    makeArrayOf (xs.extract start stop)
  | .splice => splice a arguments
  | .concat => concatenated a arguments
  | .join =>
    let separator ←
      match argument arguments 0 with
      | .undefined => pure ","
      | v => toText v
    joined separator (← items a).toList
  | .text => joined "," (← items a).toList
  | .reverse =>
    modifyItems a Array.reverse
    return .array a
  | .indexOf =>
    let needle := argument arguments 0
    return indexValue ((← items a).findIdx? fun v => v.strictEq needle)
  | .lastIndexOf =>
    let needle := argument arguments 0
    let xs ← items a
    return indexValue ((xs.reverse.findIdx? fun v => v.strictEq needle).map (xs.size - 1 - ·))
  | .includes =>
    let needle := argument arguments 0
    return .bool ((← items a).any fun v => v.sameValue needle)
  | .fill =>
    let length := (← items a).size
    let start := resolvePlace (← numberArgument? arguments 1) length 0
    let stop := resolvePlace (← numberArgument? arguments 2) length length
    modifyItems a (filled start stop (argument arguments 0))
    return .array a
  | .flat =>
    let depth := (← numberArgument? arguments 0).getD 1.0
    let done ← flattenWithin depth maxDepth [] (← items a).toList
    makeArray done.reverse
  | .sort =>
    let swap ← sortOrder call arguments
    let sorted ← sort swap (← items a).toList
    modifyItems a fun _ => sorted.toArray
    return .array a
  | .reduce =>
    let callback ← callbackArgument arguments m.name
    reduceFrom call callback (.array a) arguments[1]? (indexed (← items a).toList)
  | .reduceRight =>
    let callback ← callbackArgument arguments m.name
    reduceFrom call callback (.array a) arguments[1]? (indexed (← items a).toList).reverse
  | .visit v =>
    let callback ← callbackArgument arguments m.name
    let xs := indexed (← items a).toList
    visit call v callback (argument arguments 1) (.array a) [] (if v.backward then xs.reverse else xs)

end Run

end Snippet.Script
