import Snippet.Number.Binary

/-!
Decimal numbers for printing: the shortest decimal that reads back as a given number, and the
number rounded to a fixed count of places.
-/

namespace Snippet.Number

inductive Tie where
  | up
  | even
deriving DecidableEq, Repr

def roundDiv (tie : Tie) (num den : Nat) : Nat :=
  -- The quotient `num / den` rounded to the nearest natural number.
  let below := num / den
  let rest := num % den
  if 2 * rest < den then below
  else if den < 2 * rest then below + 1
  else
    match tie with
    | .up => below + 1
    | .even => if below % 2 == 0 then below else below + 1

structure Decimal where
  -- The value `coefficient · 10 ^ exponent`.
  coefficient : Nat
  exponent : Int
deriving Repr, DecidableEq

structure Interval where
  -- The numbers that read as one binary number: `value / unit` is its magnitude, and everything
  -- from `(value - below) / unit` to `(value + above) / unit` reads as it, the ends included
  -- exactly when `closed`.
  value : Nat
  below : Nat
  above : Nat
  unit : Nat
  closed : Bool

def Binary.interval (b : Binary) : Interval :=
  let up := twoTo b.exponent.toNat
  let down := twoTo (-b.exponent).toNat
  { value := 4 * b.significand * up
    below := (if b.atPowerOfTwo then 1 else 2) * up
    above := 2 * up
    unit := 4 * down
    closed := b.significand % 2 == 0 }

def Interval.inUnitsOf (i : Interval) (g : Int) : Interval :=
  -- The same interval measured in units of `10 ^ g`.
  let up := tenTo (-g).toNat
  { i with
    value := i.value * up
    below := i.below * up
    above := i.above * up
    unit := i.unit * tenTo g.toNat }

def Interval.nearestWhole? (tie : Tie) (i : Interval) : Option Nat :=
  let low := i.value / i.unit
  let rest := i.value % i.unit
  let gap := i.unit - rest
  let lowIn := if i.closed then rest ≤ i.below else rest < i.below
  let highIn := if i.closed then gap ≤ i.above else gap < i.above
  if lowIn && highIn then some (roundDiv tie i.value i.unit)
  else if lowIn then some low
  else if highIn then some (low + 1)
  else none

def adjustExponent (num den : Nat) (guess : Int) : Int :=
  -- The exponent of the leading decimal digit of `num / den`, a positive quotient, given one that
  -- is at most one off.
  let reaches (e : Int) : Bool := den * tenTo e.toNat ≤ num * tenTo (-e).toNat
  if reaches (guess + 1) then guess + 1
  else if reaches guess then guess
  else guess - 1

def Binary.leadingExponent (b : Binary) : Int :=
  let (num, den) := b.quotient
  let log := (Nat.log2 b.significand : Int) + b.exponent
  adjustExponent num den (log * 30103 / 100000)

def Decimal.stripZeros : Nat → Decimal → Decimal
  -- The decimal without the zeros at the end of its coefficient, of which at most `count` go.
  | 0, d => d
  | count + 1, d =>
    if d.coefficient != 0 && d.coefficient % 10 == 0 then
      stripZeros count ⟨d.coefficient / 10, d.exponent + 1⟩
    else d

def shortestFrom (tie : Tie) (i : Interval) (leading : Int) (digits : Nat) : Nat → Decimal
  -- The first hit on the grids of `digits`, `digits + 1`, … significant digits, of which `left` are
  -- tried before the nearest decimal of the last grid is taken.
  | 0 =>
    let g := leading - digits + 1
    let scaled := i.inUnitsOf g
    ⟨roundDiv tie scaled.value scaled.unit, g⟩
  | left + 1 =>
    let g := leading - digits + 1
    match (i.inUnitsOf g).nearestWhole? tie with
    | some n => ⟨n, g⟩
    | none => shortestFrom tie i leading (digits + 1) left

def Binary.shortest (tie : Tie) (b : Binary) : Decimal :=
  -- The decimal with the fewest digits that reads back as the magnitude, and of those the nearest
  -- to it. Seventeen digits always suffice.
  if b.significand == 0 then ⟨0, 0⟩
  else (shortestFrom tie b.interval b.leadingExponent 1 16).stripZeros 17

def Binary.inPlaces (b : Binary) (places : Nat) : Nat :=
  -- The magnitude in units of `10 ^ -places`, rounded to the nearest with ties to even.
  let (num, den) := b.quotient
  roundDiv .even (num * tenTo places) den

end Snippet.Number
