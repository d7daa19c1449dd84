import Snippet.Number.Decimal

/-!
Decimal numbers as text: in positional notation, in scientific notation and with a fixed count of
places.
-/

namespace Snippet.Number

def digits (n : Nat) : List Char := Nat.toDigits 10 n

def integerText (n : Int) : List Char :=
  if n < 0 then '-' :: digits n.natAbs else digits n.natAbs

def signed (negative : Bool) (text : List Char) : List Char :=
  if negative then '-' :: text else text

def pointed (ds : List Char) (places : Nat) : List Char :=
  -- Digits with a point in front of the last `places` of them; without places there is none.
  if places == 0 then ds
  else
    let padded := List.replicate (places + 1 - ds.length) '0' ++ ds
    let cut := padded.length - places
    padded.take cut ++ '.' :: padded.drop cut

def Decimal.positional (d : Decimal) : List Char :=
  if 0 ≤ d.exponent then digits d.coefficient ++ List.replicate d.exponent.toNat '0'
  else pointed (digits d.coefficient) (-d.exponent).toNat

def mantissa : List Char → List Char
  | [] => []
  | [d] => [d]
  | d :: rest => d :: '.' :: rest

def Decimal.scale (d : Decimal) : Int :=
  d.exponent + (digits d.coefficient).length - 1

def Decimal.scientific (plus : List Char) (d : Decimal) : List Char :=
  -- Scientific notation: one digit before the point, then `e` and the exponent; `plus` is written
  -- in front of an exponent that is not negative.
  let e := d.scale
  mantissa (digits d.coefficient) ++ 'e' :: ((if e < 0 then [] else plus) ++ integerText e)

def nonFiniteText (x : Float) : List Char :=
  if x.isNaN then "NaN".toList else signed (isNegative x) "inf".toList

def fixed (places : Nat) (x : Float) : List Char :=
  -- A number with a fixed count of decimal places, exactly rounded with ties to even; the sign
  -- stays when the digits are all zero.
  match Binary.ofFloat? x with
  | none => nonFiniteText x
  | some b => signed b.negative (pointed (digits (b.inPlaces places)) places)

def plain (x : Float) : List Char :=
  match Binary.ofFloat? x with
  | none => nonFiniteText x
  | some b => signed b.negative (b.shortest .up).positional

def Binary.significant (b : Binary) (places : Nat) : Decimal :=
  -- A magnitude rounded to `places + 1` significant digits, ties to even.
  if b.significand == 0 then ⟨0, 0⟩
  else
    let (num, den) := b.quotient
    let g := b.leadingExponent - places
    let n := roundDiv .even (num * tenTo (-g).toNat) (den * tenTo g.toNat)
    if n == tenTo (places + 1) then ⟨n / 10, g + 1⟩ else ⟨n, g⟩

def scientificFixed (places : Nat) (x : Float) : List Char :=
  -- A number in scientific notation with a fixed count of places after the leading digit, exactly
  -- rounded with ties to even.
  match Binary.ofFloat? x with
  | none => nonFiniteText x
  | some b =>
    if b.significand == 0 then
      signed b.negative (mantissa (List.replicate (places + 1) '0') ++ ['e', '0'])
    else signed b.negative ((b.significant places).scientific [])

end Snippet.Number
