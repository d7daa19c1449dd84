/-!
Finite floating-point numbers as exact binary numbers: a sign, a natural significand and a power of
two. All conversions between numbers and decimal text go through this form.
-/

namespace Snippet.Number

/-- Two to the `n`. -/
def twoTo (n : Nat) : Nat := Nat.pow 2 n

/-- Ten to the `n`. -/
def tenTo (n : Nat) : Nat := Nat.pow 10 n

def fitsInt64 (n : Int) : Bool := -(twoTo 63 : Int) ≤ n && n < (twoTo 63 : Int)

structure Binary where
  -- The exact value `± significand · 2 ^ exponent`.
  negative : Bool
  significand : Nat
  exponent : Int
  /-- The next smaller magnitude is half as far away as the next larger one. -/
  atPowerOfTwo : Bool
deriving Repr, DecidableEq

def Binary.ofFloat? (x : Float) : Option Binary :=
  let bits := x.toBits.toNat
  let negative := bits / twoTo 63 == 1
  let field : Nat := bits / twoTo 52 % twoTo 11
  let fraction : Nat := bits % twoTo 52
  if field == 2047 then none
  else if field == 0 then some ⟨negative, fraction, -1074, false⟩
  else some ⟨negative, twoTo 52 + fraction, (field : Int) - 1075, fraction == 0 && field != 1⟩

def Binary.floorMagnitude (b : Binary) : Nat :=
  if 0 ≤ b.exponent then b.significand * twoTo b.exponent.toNat
  else b.significand / twoTo (-b.exponent).toNat

def Binary.isWhole (b : Binary) : Bool :=
  0 ≤ b.exponent || b.significand % twoTo (-b.exponent).toNat == 0

def Binary.truncate (b : Binary) : Int :=
  if b.negative then -(b.floorMagnitude : Int) else b.floorMagnitude

def Binary.quotient (b : Binary) : Nat × Nat :=
  if 0 ≤ b.exponent then (b.significand * twoTo b.exponent.toNat, 1)
  else (b.significand, twoTo (-b.exponent).toNat)

def isNegative (x : Float) : Bool := x.toBits.toNat / twoTo 63 == 1

def infinity : Float := 1.0 / 0.0

def nan : Float := 0.0 / 0.0

def truncate (x : Float) : Float :=
  match Binary.ofFloat? x with
  | some b =>
    -- A number without a fraction may be too great to be made from its magnitude.
    if 0 ≤ b.exponent then x
    else if b.negative then -Float.ofNat b.floorMagnitude
    else Float.ofNat b.floorMagnitude
  | none => x

def isWhole (x : Float) : Bool := (Binary.ofFloat? x).any Binary.isWhole

def isExact (x : Float) : Bool :=
  -- Whether a number is an integer below `2 ^ 53` in magnitude, where all integers are numbers.
  (Binary.ofFloat? x).any fun b => b.isWhole && b.floorMagnitude < twoTo 53

def toInt (x : Float) : Int :=
  match Binary.ofFloat? x with
  | some b => b.truncate
  | none => 0

/-- The signed 32-bit word that a number denotes: its whole part modulo `2 ^ 32`. -/
def toInt32 (x : Float) : Int := Int.bmod (toInt x) (twoTo 32)

def toNatClamped (x : Float) : Nat := x.toUInt64.toNat

def toInt64Clamped (x : Float) : Int :=
  match Binary.ofFloat? x with
  | some b => max (-(twoTo 63 : Int)) (min b.truncate ((twoTo 63 : Int) - 1))
  | none =>
    if x.isNaN then 0 else if isNegative x then -(twoTo 63 : Int) else (twoTo 63 : Int) - 1

def remainder (x y : Float) : Float :=
  match Binary.ofFloat? x, Binary.ofFloat? y with
  | some a, some b =>
    if b.significand == 0 then nan
    else if a.significand == 0 then x
    else
      let unit := min a.exponent b.exponent
      let dividend := a.significand * twoTo (a.exponent - unit).toNat
      let divisor := b.significand * twoTo (b.exponent - unit).toNat
      let magnitude := Float.scaleB (Float.ofNat (dividend % divisor)) unit
      if a.negative then -magnitude else magnitude
  | some _, none => if y.isNaN then nan else x
  | none, _ => nan

def power (x y : Float) : Float := if y.isNaN then nan else x.pow y

end Snippet.Number
