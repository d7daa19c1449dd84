import Snippet.Script.JsonText
import Snippet.Script.Numeral

/-!
The lines that the console prints: values in their printed form with blanks between them, where a string
in front may hold directives for the values after it.
-/

namespace Snippet.Script

inductive Directive where
  | text | number | integer | float | json | skip | printed
deriving DecidableEq, Repr

def Directive.ofChar? : Char → Option Directive
  | 's' => some .text
  | 'd' => some .number
  | 'i' => some .integer
  | 'f' => some .float
  | 'j' => some .json
  | 'c' => some .skip
  | 'o' => some .printed
  | 'O' => some .printed
  | _ => none

def Heap.compactJson (h : Heap) (v : Value) : List Char :=
  -- A value as compact JSON; what has no JSON form is `undefined`.
  match h.json? v with
  | .ok (some json) => Json.write .compact json
  | _ => "undefined".toList

namespace Run

def directiveText (d : Directive) (v : Value) : Run (List Char) := do
  match d with
  | .text =>
    match v with
    | .array _ | .object _ => return (← toPrinted v).toList
    | v => return (← toText v).toList
  | .number => return numberText (← toNumber v)
  | .integer => return numberText (Number.truncate (← toNumber v))
  | .float => return numberText (leadingNumber (← toText v).toList)
  | .json => return (← heap).compactJson v
  | .skip => return []
  | .printed => return (← toPrinted v).toList

def format (done : List Char) (arguments : List Value) :
    List Char → Run (List Char × List Value)
  -- A format string with values put in; `done` is what has been written, the last character first.
  -- The values that no directive asks for come back. A directive without a value stays as it is.
  | [] => return (done.reverse, arguments)
  | ['%'] => return (('%' :: done).reverse, arguments)
  | '%' :: '%' :: rest => format ('%' :: done) arguments rest
  | '%' :: letter :: rest =>
    match Directive.ofChar? letter, arguments with
    | some d, v :: arguments => do
      let text ← directiveText d v
      format (text.reverse ++ done) arguments rest
    | _, arguments => format (letter :: '%' :: done) arguments rest
  | c :: rest => format (c :: done) arguments rest

def consoleLine (arguments : List Value) : Run String := do
  match arguments with
  | .string s :: v :: rest =>
    if s.contains '%' then
      let (text, rest) ← format [] (v :: rest) s.toList
      let parts ← rest.mapM toPrinted
      return " ".intercalate (String.ofList text :: parts)
    else return " ".intercalate (← arguments.mapM toPrinted)
  | arguments => return " ".intercalate (← arguments.mapM toPrinted)

end Run

end Snippet.Script
