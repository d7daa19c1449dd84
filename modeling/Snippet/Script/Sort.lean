import Snippet.Script.Operator

/-!
Sorting by merging. The order may be a function of the script, so it may fail or change the state; of
two elements the second one goes first only where the order says so, which keeps equal elements in
their order.
-/

namespace Snippet.Script

abbrev SwapTest := Value → Value → Run Bool

namespace Run

def merge (swap : SwapTest) (done : List Value) : Nat → List Value → List Value → Run (List Value)
  -- Merges two sorted lists with at most `fuel` comparisons; `done` holds the elements that have
  -- found their place, the last one first.
  | 0, left, right => return done.reverse ++ (left ++ right)
  | _ + 1, [], right => return done.reverse ++ right
  | _ + 1, left, [] => return done.reverse ++ left
  | fuel + 1, a :: left, b :: right => do
    if ← swap a b then merge swap (b :: done) fuel (a :: left) right
    else merge swap (a :: done) fuel left (b :: right)

def sortWithin (swap : SwapTest) : Nat → List Value → Run (List Value)
  -- Sorts a list that is halved at most `fuel` times.
  | 0, xs => return xs
  | fuel + 1, xs => do
    if xs.length ≤ 1 then return xs
    else
      let (left, right) := xs.splitAt (xs.length / 2)
      let left ← sortWithin swap fuel left
      let right ← sortWithin swap fuel right
      merge swap [] xs.length left right

def sort (swap : SwapTest) (xs : List Value) : Run (List Value) := sortWithin swap xs.length xs

def textOrder : SwapTest := fun a b => do
  match a, b with
  | .undefined, .undefined => return false
  | .undefined, _ => return true
  | _, .undefined => return false
  | a, b => return compareTexts (← toText a) (← toText b) == .gt

def functionOrder (compare : Value → Value → Run Value) : SwapTest := fun a b => do
  return 0.0 < (← toNumber (← compare a b))

end Run

end Snippet.Script
