import Snippet.Scan.Term
import Snippet.Scan.Split

/-!
What a print prints: its arguments are rendered and joined, and within an argument plus signs are
evaluated from left to right. A print with an argument that is not known prints nothing.
-/

namespace Snippet.Scan

def floatText (style : Style) (x : Float) : List Char :=
  -- The text of a floating number; a whole one gets `.0` where the language writes it.
  if style.pointsWhole && Number.isWhole x then Number.fixed 1 x else Number.plain x

def integerSum? (a b : List Char) : Option (List Char) :=
  match Number.readInt64? 10 a, Number.readInt64? 10 b with
  | some m, some n =>
    if Number.fitsInt64 (m + n) then some (Number.integerText (m + n)) else none
  | _, _ => none

def floatSum? (style : Style) (a b : List Char) : Option (List Char) :=
  match Number.readFloat? a, Number.readFloat? b with
  | some x, some y => some (floatText style (x + y))
  | _, _ => none

def plus (style : Style) (left right : Literal) : Literal :=
  let joined := Literal.text (left.render style ++ right.render style)
  match left, right with
  | .number a, .number b =>
    match (integerSum? a b).or (floatSum? style a b) with
    | some sum => .number sum
    | none => joined
  | _, _ => joined

def keyword? (part : List Char) : Option (List Char × List Char) :=
  match part.dropWhile (· != '=') with
  | '=' :: value =>
    let key := Text.trim (part.takeWhile (· != '='))
    if isName key && value.head? != some '=' then some (key, value) else none
  | _ => none

def sumAfter? (style : Style) (store : Store) (left : Literal) : List (List Char) → Option Literal
  -- The value of terms with plus signs between them, with `left` in front of them.
  | [] => some left
  | term :: rest =>
    match resolve? style store term with
    | some right => sumAfter? style store (plus style left right) rest
    | none => none

def sum? (style : Style) (store : Store) (part : List Char) : Option Literal :=
  match splitTopLevel ['+'] part with
  | [] => none
  | term :: rest =>
    match resolve? style store term with
    | some left => sumAfter? style store left rest
    | none => none

structure Rendering where
  joiner : List Char
  /-- The texts of the arguments, the last one first. -/
  texts : List (List Char)

def Rendering.add? (style : Style) (store : Store) (r : Rendering) (part : List Char) :
    Option Rendering :=
  let part := Text.trim part
  match keyword? part with
  | some (key, value) =>
    if key == "sep".toList then
      (resolve? style store value).map fun v => { r with joiner := v.render style }
    else if ["end".toList, "file".toList, "flush".toList].contains key then some r
    else none
  | none =>
    if style.lineBreaks.any fun word => word.toList == part then
      some { r with texts := ['\n'] :: r.texts }
    else (sum? style store part).map fun v => { r with texts := v.render style :: r.texts }

def renderArguments? (style : Style) (store : Store) (arguments : List Char) :
    Option (List Char) :=
  let arguments := Text.trim arguments
  if arguments.isEmpty then some []
  else
    let (parts, joiner) :=
      match style.separator with
      | some (separator, joiner) => (splitTopLevel separator.toList arguments, joiner.toList)
      | none => ([arguments], [])
    (parts.foldlM (Rendering.add? style store) ⟨joiner, []⟩).map fun r =>
      List.intercalate r.joiner r.texts.reverse

end Snippet.Scan
