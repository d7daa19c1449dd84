/-!
Sets of characters given by their boundaries: the code points, in ascending order, at which
membership changes. A character belongs to the set exactly when an odd number of boundaries lie at
or below it.
-/

namespace Snippet.Text

def countUpTo (bounds : Array Nat) (n lo hi : Nat) : Nat :=
  -- How many of the ascending entries at the positions from `lo` up to `hi` are at most `n`,
  -- counted from the start of the array.
  if h : lo < hi then
    let mid := (lo + hi) / 2
    if bounds.getD mid 0 ≤ n then countUpTo bounds n (mid + 1) hi else countUpTo bounds n lo mid
  else lo
termination_by hi - lo
decreasing_by all_goals omega

def inBoundaries (bounds : Array Nat) (c : Char) : Bool :=
  countUpTo bounds c.toNat 0 bounds.size % 2 == 1

end Snippet.Text
