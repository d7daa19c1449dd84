import Snippet.Json.Basic
import Snippet.Number.Notation

/-!
JSON values as text, either on one line without blanks or laid out with one member or element on
each line.
-/

namespace Snippet.Json

def hexDigit (n : Nat) : Char := Nat.digitChar n

def escapeChar (c : Char) : List Char :=
  if c == '"' then ['\\', '"']
  else if c == '\\' then ['\\', '\\']
  else if c == '\n' then ['\\', 'n']
  else if c == '\r' then ['\\', 'r']
  else if c == '\t' then ['\\', 't']
  else if c.toNat == 8 then ['\\', 'b']
  else if c.toNat == 12 then ['\\', 'f']
  else if c.toNat < 32 then
    ['\\', 'u', '0', '0', hexDigit (c.toNat / 16), hexDigit (c.toNat % 16)]
  else [c]

def quote (s : String) : List Char := '"' :: (s.toList.flatMap escapeChar ++ ['"'])

def floatDigits (d : Number.Decimal) : List Char :=
  -- A decimal with a fraction, or with an exponent when the point would stand more than sixteen
  -- digits to the right or more than five to the left of the first digit.
  let ds := Number.digits d.coefficient
  let point : Int := ds.length + d.exponent
  if 0 ≤ d.exponent && point ≤ 16 then d.positional ++ ['.', '0']
  else if -5 < point && point ≤ 16 then d.positional
  else d.scientific ['+']

def floatText (x : Float) : List Char :=
  -- A finite number with a fraction or an exponent; there is no text for the others but `null`.
  match Number.Binary.ofFloat? x with
  | none => "null".toList
  | some b => Number.signed b.negative (floatDigits (b.shortest .even))

inductive Layout where
  | compact
  | indented (unit : List Char)

def Layout.break (layout : Layout) (depth : Nat) : List Char :=
  match layout with
  | .compact => []
  | .indented unit => '\n' :: (List.replicate depth unit).flatten

def Layout.colon : Layout → List Char
  | .compact => [':']
  | .indented _ => [':', ' ']

mutual

def writeAt (layout : Layout) (depth : Nat) : Json → List Char
  | .null => "null".toList
  | .bool b => (if b then "true" else "false").toList
  | .integer n => Number.integerText n
  | .float x => floatText x
  | .string s => quote s
  | .array [] => ['[', ']']
  | .array (item :: rest) =>
    '[' :: (layout.break (depth + 1) ++ (writeAt layout (depth + 1) item
      ++ (writeItems layout depth rest ++ (layout.break depth ++ [']']))))
  | .object [] => ['{', '}']
  | .object ((key, value) :: rest) =>
    '{' :: (layout.break (depth + 1) ++ (quote key ++ (layout.colon
      ++ (writeAt layout (depth + 1) value
        ++ (writeMembers layout depth rest ++ (layout.break depth ++ ['}']))))))

def writeItems (layout : Layout) (depth : Nat) : List Json → List Char
  | [] => []
  | item :: rest =>
    ',' :: (layout.break (depth + 1) ++ (writeAt layout (depth + 1) item
      ++ writeItems layout depth rest))

def writeMembers (layout : Layout) (depth : Nat) : List (String × Json) → List Char
  | [] => []
  | (key, value) :: rest =>
    ',' :: (layout.break (depth + 1) ++ (quote key ++ (layout.colon
      ++ (writeAt layout (depth + 1) value ++ writeMembers layout depth rest))))

end

def write (layout : Layout) (j : Json) : List Char := writeAt layout 0 j

end Snippet.Json
