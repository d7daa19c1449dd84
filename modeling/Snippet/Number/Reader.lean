import Snippet.Number.Binary

/-!
Numbers read from text: digits in a radix, words and integers of 64 bits, and decimal numbers with
a fraction and an exponent.
-/

namespace Snippet.Number

def digitValue? (radix : Nat) (c : Char) : Option Nat :=
  let value? :=
    if '0' ≤ c ∧ c ≤ '9' then some (c.toNat - '0'.toNat)
    else if 'a' ≤ c ∧ c ≤ 'z' then some (c.toNat - 'a'.toNat + 10)
    else if 'A' ≤ c ∧ c ≤ 'Z' then some (c.toNat - 'A'.toNat + 10)
    else none
  value?.filter (· < radix)

def digitsValue? (radix acc : Nat) : List Char → Option Nat
  -- The number written by the digits after those worth `acc`; none if some character is no digit of
  -- the radix.
  | [] => some acc
  | c :: rest =>
    match digitValue? radix c with
    | some d => digitsValue? radix (acc * radix + d) rest
    | none => none

def readWord? (bits radix : Nat) (s : List Char) : Option Nat :=
  -- A natural number below `2 ^ bits`: at least one digit, with a plus sign allowed in front.
  let body :=
    match s with
    | '+' :: rest => rest
    | _ => s
  if body.isEmpty then none else (digitsValue? radix 0 body).filter (· < twoTo bits)

def readInt64? (radix : Nat) (s : List Char) : Option Int :=
  let (negative, body) :=
    match s with
    | '-' :: rest => (true, rest)
    | '+' :: rest => (false, rest)
    | _ => (false, s)
  if body.isEmpty then none
  else
    match digitsValue? radix 0 body with
    | none => none
    | some n =>
      let value : Int := if negative then -(n : Int) else n
      if fitsInt64 value then some value else none

def ofDecimal (coefficient : Nat) (exponent : Int) : Float :=
  -- The number `coefficient · 10 ^ exponent`, correctly rounded. Beyond the range of all numbers
  -- the answer is known without computing the power.
  let leading := exponent + (Nat.log2 coefficient : Int) * 30103 / 100000
  if coefficient == 0 then 0.0
  else if 310 < leading then infinity
  else if leading < -330 then 0.0
  else Float.ofScientific coefficient (exponent < 0) exponent.natAbs

def takeSign (s : List Char) : Bool × List Char :=
  match s with
  | '-' :: rest => (true, rest)
  | '+' :: rest => (false, rest)
  | _ => (false, s)

def readExponent? (s : List Char) : Option Int :=
  let (negative, body) := takeSign s
  if body.isEmpty then none
  else (digitsValue? 10 0 body).map fun n => if negative then -(n : Int) else n

def readUnsigned? (s : List Char) : Option Float :=
  -- An unsigned decimal number: digits with at most one point, at least one digit, and an exponent
  -- if the letter `e` follows.
  let whole := s.takeWhile Char.isDigit
  let afterWhole := s.dropWhile Char.isDigit
  let (fraction, tail) :=
    match afterWhole with
    | '.' :: rest => (rest.takeWhile Char.isDigit, rest.dropWhile Char.isDigit)
    | _ => ([], afterWhole)
  let exponent? : Option Int :=
    match tail with
    | [] => some 0
    | c :: rest => if c == 'e' || c == 'E' then readExponent? rest else none
  if whole.isEmpty && fraction.isEmpty then none
  else
    match exponent?, digitsValue? 10 0 (whole ++ fraction) with
    | some e, some n => some (ofDecimal n (e - fraction.length))
    | _, _ => none

def readDecimal? (s : List Char) : Option Float :=
  let (negative, body) := takeSign s
  (readUnsigned? body).map fun x => if negative then -x else x

def readFloat? (s : List Char) : Option Float :=
  -- A decimal number, or one of the words `inf`, `infinity` and `nan` in any case, with an optional
  -- sign.
  let (negative, body) := takeSign s
  let word := body.map Char.toLower
  let x? :=
    if word == "inf".toList || word == "infinity".toList then some infinity
    else if word == "nan".toList then some nan
    else readUnsigned? body
  x?.map fun x => if negative then -x else x

end Snippet.Number
