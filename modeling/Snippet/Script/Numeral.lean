import Snippet.Script.Operator

/-!
Numbers read from the beginning of a text, and numbers written with a fixed count of places, in another
radix or with their digits in groups.
-/

namespace Snippet.Script

def leadingNumber (s : List Char) : Float :=
  let s := Text.trimStart s
  if "Infinity".toList.isPrefixOf s || "+Infinity".toList.isPrefixOf s then Number.infinity
  else if "-Infinity".toList.isPrefixOf s then -Number.infinity
  else
    let (negative, body) := Number.takeSign s
    let whole := body.takeWhile Char.isDigit
    let (fraction, tail) :=
      match body.dropWhile Char.isDigit with
      | '.' :: rest => (rest.takeWhile Char.isDigit, rest.dropWhile Char.isDigit)
      | rest => ([], rest)
    if whole.isEmpty && fraction.isEmpty then Number.nan
    else
      let exponent : Int :=
        match tail with
        | [] => 0
        | c :: rest =>
          if c == 'e' || c == 'E' then
            let (down, digits) := Number.takeSign rest
            let e := (Number.digitsValue? 10 0 (digits.takeWhile Char.isDigit)).getD 0
            if down then -(e : Int) else e
          else 0
      let coefficient := (Number.digitsValue? 10 0 (whole ++ fraction)).getD 0
      let x := Number.ofDecimal coefficient (exponent - fraction.length)
      if negative then -x else x

def leadingDigits? (radix : Nat) (acc : Option Float) : List Char → Option Float
  | [] => acc
  | c :: rest =>
    match Number.digitValue? radix c with
    | some d => leadingDigits? radix (some (acc.getD 0.0 * Float.ofNat radix + Float.ofNat d)) rest
    | none => acc

def leadingInteger (s : List Char) (radix : Int) : Float :=
  -- The whole number that a text begins with in a radix. With the radix 0 or 16 the digits may be
  -- marked as hexadecimal, and without a mark the radix 0 stands for 10.
  let (negative, body) := Number.takeSign (Text.trimStart s)
  let (radix, body) :=
    if radix == 0 || radix == 16 then
      match body with
      | '0' :: 'x' :: rest => (16, rest)
      | '0' :: 'X' :: rest => (16, rest)
      | _ => (if radix == 0 then 10 else radix, body)
    else (radix, body)
  if radix < 2 || 36 < radix then Number.nan
  else
    match leadingDigits? radix.toNat none body with
    | none => Number.nan
    | some x => if negative then -x else x

def fixedText (places : Nat) (x : Float) : List Char :=
  -- A number with a fixed count of places. Zeros have no sign, and very large numbers are written
  -- as usual.
  if !x.isFinite || 1e21 ≤ x.abs then numberText x
  else
    match Number.fixed places x with
    | '-' :: rest => if rest.all fun c => c == '0' || c == '.' then rest else '-' :: rest
    | text => text

def grouped : List Char → List Char
  | [] => []
  | c :: rest =>
    if rest.length % 3 == 0 && !rest.isEmpty then c :: ',' :: grouped rest else c :: grouped rest

def localeText (x : Float) : List Char :=
  if !x.isFinite then numberText x
  else
    let rounded := Number.fixed 3 x.abs
    let places := (rounded.dropWhile (· != '.')).drop 1
    let places := (places.reverse.dropWhile (· == '0')).reverse
    let whole := grouped (rounded.takeWhile (· != '.'))
    let text := if places.isEmpty then whole else whole ++ '.' :: places
    Number.signed (x < 0.0 && text.any fun c => c.isDigit && c != '0') text

def digitChar (d : Nat) : Char :=
  if d < 10 then Char.ofNat ('0'.toNat + d) else Char.ofNat ('a'.toNat + (d - 10))

def digitOf (x : Float) : Char := digitChar (Number.toNatClamped x)

def wholeDigits (radix : Float) (done : List Char) : Nat → Float → List Char
  -- The digits of a whole number in a radix, in front of those in `done`.
  | 0, _ => done
  | fuel + 1, x =>
    if x < 1.0 then done
    else
      wholeDigits radix (digitOf (Number.remainder x radix) :: done) fuel
        (Number.truncate (x / radix))

def fractionDigits (radix : Float) : Nat → Float → List Char
  -- At most `places` digits of a fraction in a radix.
  | 0, _ => []
  | places + 1, x =>
    let scaled := x * radix
    let whole := Number.truncate scaled
    let rest := scaled - whole
    digitOf whole :: (if rest == 0.0 then [] else fractionDigits radix places rest)

def radixText (radix : Nat) (x : Float) : List Char :=
  -- A number in a radix. A finite number has at most 1024 binary digits before the point, and 52
  -- digits after it are written.
  if !x.isFinite then numberText x
  else
    let base := Float.ofNat radix
    let whole := Number.truncate x.abs
    let fraction := x.abs - whole
    let digits := if whole == 0.0 then ['0'] else wholeDigits base [] 1024 whole
    let text := if 0.0 < fraction then digits ++ '.' :: fractionDigits base 52 fraction else digits
    Number.signed (x < 0.0) text

namespace Run

def argument (arguments : List Value) (i : Nat) : Value := arguments.getD i .undefined

def numberArgument? (arguments : List Value) (i : Nat) : Run (Option Float) :=
  match argument arguments i with
  | .undefined => pure none
  | v => some <$> toNumber v

def numberMethod (x : Float) (m : NumberMethod) (arguments : List Value) : Run Value := do
  match m with
  | .valueOf => return .number x
  | .toFixed =>
    let places := (← numberArgument? arguments 0).getD 0.0
    if 0.0 ≤ places && places ≤ 100.0 then
      return .ofChars (fixedText (Number.toNatClamped places) x)
    else raise .fixedDigits
  | .toLocaleString => return .ofChars (localeText x)
  | .text =>
    match ← numberArgument? arguments 0 with
    | none => return .ofChars (numberText x)
    | some radix =>
      if 2.0 ≤ radix && radix ≤ 36.0 then
        let radix := Number.toNatClamped radix
        return .ofChars (if radix == 10 then numberText x else radixText radix x)
      else raise .radix

end Run

end Snippet.Script
