import Snippet.Script.Numeral
import Snippet.Text.Case
import Snippet.Text.Search

/-!
The methods of strings. Places in a string count its characters; a negative place counts from the end
where the method allows it.
-/

namespace Snippet.Script

def resolvePlace (position : Option Float) (length default : Nat) : Nat :=
  -- The place that a number denotes in a sequence of a given length: negative numbers count from
  -- the end, and places outside are moved to the nearer end. A missing number denotes the default.
  match position with
  | none => default
  | some x =>
    let x := if x.isNaN then 0.0 else Number.truncate x
    if x < 0.0 then Number.toNatClamped (Float.ofNat length + x)
    else min (Number.toNatClamped x) length

def resolveIndex? (position : Option Float) (length : Nat) : Option Nat :=
  let x := Number.truncate (position.getD 0.0)
  let x := if x < 0.0 then Float.ofNat length + x else x
  if 0.0 ≤ x && Number.toNatClamped x < length then some (Number.toNatClamped x) else none

def between {α : Type} (start stop : Nat) (xs : List α) : List α := (xs.drop start).take (stop - start)

def countOf (x : Float) : Nat := if x.isNaN then 0 else Number.toNatClamped x

def cycle (n : Nat) (s : List Char) : List Char :=
  -- The first `n` characters of a text repeated without end.
  if s.isEmpty then [] else (List.replicate (n / s.length + 1) s).flatten.take n

namespace Run

def textArgument (arguments : List Value) (i : Nat) : Run (List Char) :=
  return (← toText (argument arguments i)).toList

def charArgument? (s : List Char) (arguments : List Value) : Run (Option Char) := do
  let i := (← numberArgument? arguments 0).getD 0.0
  return if 0.0 ≤ i then s[Number.toNatClamped i]? else none

def repeated (s : String) (arguments : List Value) : Run Value := do
  let count := (← numberArgument? arguments 0).getD 0.0
  if count < 0.0 || count.isInf then raise (.repeatCount count)
  else
    let count := countOf count
    if maxStringSize < s.utf8ByteSize * count then raise .stringLength
    else makeString (String.join (List.replicate (if s.isEmpty then 0 else count) s))

def padded (atStart : Bool) (s : String) (arguments : List Value) : Run Value := do
  let target := (← numberArgument? arguments 0).getD 0.0
  if Float.ofNat maxStringSize < target then raise .stringLength
  else
    let target := countOf target
    let fill ←
      match argument arguments 1 with
      | .undefined => pure [' ']
      | v => pure (← toText v).toList
    let length := s.length
    if target ≤ length || fill.isEmpty then return .string s
    else
      let padding := String.ofList (cycle (target - length) fill)
      return .string (if atStart then padding ++ s else s ++ padding)

def splitParts (s : String) (arguments : List Value) : Run Value := do
  let parts ←
    match argument arguments 0 with
    | .undefined => pure [Value.string s]
    | v => do
      let separator := (← toText v).toList
      pure <|
        if separator.isEmpty then s.toList.map .ofChar
        else (Text.splitOn separator s.toList).map .ofChars
  match ← numberArgument? arguments 1 with
  | none => makeArray parts
  | some limit => makeArray (parts.take (countOf limit))

def replacementFor (call : Value → List Value → Run Value) (pattern : List Char)
    (replacement : Value) (place : Nat) : Run (List Char) := do
  -- What an occurrence of a pattern at a place is replaced with: the text that a function returns
  -- for it, or the given text with the pattern for every mention of it.
  if replacement.isFunction then
    return (← toText (← call replacement [.ofChars pattern, .ofNat place])).toList
  else return Text.replaceAll ['$', '&'] pattern (← toText replacement).toList

def replaceWithin (call : Value → List Value → Run Value) (all : Bool) (pattern : List Char)
    (replacement : Value) : Nat → Nat → List Char → List Char → Run (List Char)
  -- Replaces a pattern: its first occurrence, or all of them in at most `fuel` steps. The text
  -- before `rest` has `passed` characters and has become the reverse of `done`. An empty pattern
  -- occurs in front of every character and at the end.
  | 0, _, done, rest => return done.reverse ++ rest
  | fuel + 1, passed, done, rest => do
    match Text.breakOn? pattern [] rest with
    | none => return done.reverse ++ rest
    | some (before, after) =>
      let place := passed + before.length
      let text ← replacementFor call pattern replacement place
      let done := text.reverse ++ (before.reverse ++ done)
      let passed := place + pattern.length
      if !all then return done.reverse ++ after
      else if pattern.isEmpty then
        match after with
        | [] => return done.reverse
        | c :: after =>
          replaceWithin call all pattern replacement fuel (passed + 1) (c :: done) after
      else replaceWithin call all pattern replacement fuel passed done after

def replaced (call : Value → List Value → Run Value) (all : Bool) (s : String)
    (arguments : List Value) : Run Value := do
  let pattern ← textArgument arguments 0
  let chars := s.toList
  let text ←
    replaceWithin call all pattern (argument arguments 1) (chars.length + 1) 0 [] chars
  makeString (String.ofList text)

def stringMethod (call : Value → List Value → Run Value) (s : String) (m : StringMethod)
    (arguments : List Value) : Run Value := do
  let chars := s.toList
  match m with
  | .text | .valueOf => return .string s
  | .toUpperCase => return .ofChars (Text.upper chars)
  | .toLowerCase => return .ofChars (Text.lower chars)
  | .trim => return .ofChars (Text.trim chars)
  | .trimStart => return .ofChars (Text.trimStart chars)
  | .trimEnd => return .ofChars (Text.trimEnd chars)
  | .item =>
    let i? := resolveIndex? (← numberArgument? arguments 0) chars.length
    return (i?.bind fun i => chars[i]?.map Value.ofChar).getD .undefined
  | .charAt => return ((← charArgument? chars arguments).map Value.ofChar).getD (.string "")
  | .charCodeAt =>
    return ((← charArgument? chars arguments).map fun c => .ofNat c.toNat).getD (.number Number.nan)
  | .indexOf =>
    let needle ← textArgument arguments 0
    let start? := (← numberArgument? arguments 1).map fun x => if 0.0 < x then x else 0.0
    let start := resolvePlace start? chars.length 0
    return ((Text.firstIndex? needle start (chars.drop start)).map Value.ofNat).getD (.number (-1.0))
  | .lastIndexOf =>
    let needle ← textArgument arguments 0
    return ((Text.lastIndex? needle 0 none chars).map Value.ofNat).getD (.number (-1.0))
  | .includes => return .bool (Text.firstIndex? (← textArgument arguments 0) 0 chars).isSome
  | .startsWith => return .bool ((← textArgument arguments 0).isPrefixOf chars)
  | .endsWith => return .bool ((← textArgument arguments 0).isSuffixOf chars)
  | .slice =>
    let start := resolvePlace (← numberArgument? arguments 0) chars.length 0
    let stop := resolvePlace (← numberArgument? arguments 1) chars.length chars.length
    return .ofChars (between start stop chars)
  | .substring =>
    let place (default : Nat) (x? : Option Float) : Nat :=
      (x?.map fun x => min (countOf x) chars.length).getD default
    let a := place 0 (← numberArgument? arguments 0)
    let b := place chars.length (← numberArgument? arguments 1)
    return .ofChars (between (min a b) (max a b) chars)
  | .substr =>
    let start := resolvePlace (← numberArgument? arguments 0) chars.length 0
    let count := ((← numberArgument? arguments 1).map countOf).getD chars.length
    return .ofChars (between start (start + count) chars)
  | .concat =>
    let texts ← arguments.mapM toText
    makeString (String.join (s :: texts))
  | .repeated => repeated s arguments
  | .padStart => padded true s arguments
  | .padEnd => padded false s arguments
  | .split => splitParts s arguments
  | .replace => replaced call false s arguments
  | .replaceAll => replaced call true s arguments

end Run

end Snippet.Script
