import Snippet.Script.Convert
import Snippet.Script.Lexer

/-!
The printed form of values, as the console shows them: strings inside of containers are quoted, and
containers are shown down to a fixed depth.
-/

namespace Snippet.Script

def escapeChar (quote c : Char) : List Char :=
  if c == '\n' then ['\\', 'n']
  else if c == '\t' then ['\\', 't']
  else if c == '\\' then ['\\', '\\']
  else if c == quote then ['\\', c]
  else [c]

def quoteFor (s : List Char) : Char := if s.contains '\'' && !s.contains '"' then '"' else '\''

def quoted (s : List Char) : List Char :=
  let quote := quoteFor s
  quote :: (s.flatMap (escapeChar quote) ++ [quote])

def isPlainKey : List Char → Bool
  | [] => false
  | c :: rest => startsWord c && rest.all continuesWord

def keyText (key : String) : String :=
  if isPlainKey key.toList then key else String.ofList (quoted key.toList)

def Function.printed : Function → String
  | .classDef c _ => s!"[class {c.name}]"
  | f => if f.name.isEmpty then "[Function (anonymous)]" else s!"[Function: {f.name}]"

inductive Container where
  | array (a : ArrayRef)
  | object (o : ObjectRef)
deriving DecidableEq, Repr

def printedDepth : Nat := 2

def Heap.errorText (h : Heap) (o : ObjectRef) : Except TextFault String := h.text (.object o)

def Heap.printedWithin (h : Heap) :
    Nat → List Container → Value → Except TextFault String
  -- The printed form of a value inside of the given containers, where `depth` more levels of
  -- containers are shown.
  | _, _, .string s => .ok (String.ofList (quoted s.toList))
  | _, _, .function f _ => .ok f.printed
  | depth, around, .array a =>
    let items := h.items a
    if around.contains (.array a) then .ok "[Circular *1]"
    else if items.isEmpty then .ok "[]"
    else
      match depth with
      | 0 => .ok "[Array]"
      | depth + 1 => do
        let parts ← items.toList.mapM fun v => printedWithin h depth (.array a :: around) v
        return "[ " ++ ", ".intercalate parts ++ " ]"
  | depth, around, .object o =>
    let object := h.object o
    if around.contains (.object o) then .ok "[Circular *1]"
    else if object.isError then (h.errorText o).map fun text => s!"[{text}]"
    else
      let label :=
        match object.className with
        | some name => name ++ " "
        | none => ""
      if object.entries.isEmpty then .ok (label ++ "\x7b\x7d")
      else
        match depth with
        | 0 => .ok (label ++ "[Object]")
        | depth + 1 => do
          let parts ← object.entries.mapM fun (key, v) => do
            let text ← printedWithin h depth (.object o :: around) v
            return s!"{keyText key}: {text}"
          return label ++ "\x7b " ++ ", ".intercalate parts ++ " \x7d"
  | _, _, v => h.text v

def Heap.isError (h : Heap) : Value → Bool
  | .object o => (h.object o).isError
  | _ => false

def Heap.printedInside (h : Heap) (v : Value) : Except TextFault String :=
  h.printedWithin (printedDepth + 1) [] v

def Heap.printed (h : Heap) (v : Value) : Except TextFault String :=
  match v with
  | .string s => .ok s
  | v => if h.isError v then h.text v else h.printedInside v

def Heap.uncaught (h : Heap) (v : Value) : Except TextFault String :=
  if h.isError v then h.text v else (h.printedInside v).map fun text => "Uncaught " ++ text

end Snippet.Script
