import Snippet.Scan.Literal
import Snippet.Number.Notation

/-!
The value of a term: a quoted literal, a number, a literal word, a known variable, or one of these in
parentheses or inside a conversion. Every other term has no known value.
-/

namespace Snippet.Scan

def closedBody (quote : Char) : List Char → Bool
  | [] => true
  | ['\\'] => false
  | '\\' :: _ :: rest => closedBody quote rest
  | c :: rest => c != quote && closedBody quote rest

def quoted? (term : List Char) : Option (List Char) :=
  match term with
  | q :: rest =>
    if q != '"' && q != '\'' then none
    else
      match rest.reverse with
      | last :: backward =>
        let body := backward.reverse
        if last == q && closedBody q body then some body else none
      | [] => none
  | [] => none

def dropStart? (start text : List Char) : Option (List Char) :=
  if start.isPrefixOf text then some (text.drop start.length) else none

def dropLast? (c : Char) (text : List Char) : Option (List Char) :=
  match text.reverse with
  | x :: rest => if x == c then some rest.reverse else none
  | [] => none

def ungroup (s : List Char) : List Char := s.filter fun c => c != '_' && c != '\''

def number? (term : List Char) : Option (List Char) :=
  -- A number in the digits that the program prints; the suffixes that give its type are dropped and
  -- hexadecimal numbers are written in decimal.
  let (sign, digits) :=
    match term with
    | '-' :: rest => (['-'], Text.trimStart rest)
    | _ => ([], term)
  match (dropStart? "0x".toList digits).or (dropStart? "0X".toList digits) with
  | some hex =>
    let hex := ungroup (Text.dropEndWhile (fun c => "LluU".toList.contains c) hex)
    (Number.readInt64? 16 hex).map fun n => sign ++ Number.integerText n
  | none =>
    let digits := ungroup (Text.dropEndWhile (fun c => "LlfFdDuU".toList.contains c) digits)
    match digits with
    | c :: _ =>
      if (c.isDigit || c == '.') && (Number.readFloat? digits).isSome then some (sign ++ digits)
      else none
    | [] => none

def literalWord? (term : List Char) : Option Literal :=
  if term == "true".toList || term == "True".toList then some (.bool true)
  else if term == "false".toList || term == "False".toList then some (.bool false)
  else if ["null".toList, "None".toList, "nullptr".toList, "NULL".toList].contains term then
    some .null
  else none

def wrapped? (wrapper term : List Char) : Option (List Char) :=
  (dropStart? wrapper term).bind fun rest =>
    (dropStart? ['('] (Text.trimStart rest)).bind (dropLast? ')')

def firstWrapped? (term : List Char) : List String → Option (List Char)
  | [] => none
  | wrapper :: rest =>
    match wrapped? wrapper.toList term with
    | some inner => some inner
    | none => firstWrapped? term rest

def maxField : Nat := 100

def field? (ds : List Char) : Option Nat :=
  if ds.isEmpty then some 0 else (Number.readWord? 64 10 ds).filter (· ≤ maxField)

def splitColon (s : List Char) : List Char × List Char :=
  (s.takeWhile (· != ':'), (s.dropWhile (· != ':')).drop 1)

def applyFormat? (style : Style) (value : Literal) (format : List Char) : Option (List Char) :=
  match (dropStart? ['.'] format).bind (dropLast? 'f') with
  | none => some (value.render style)
  | some ds =>
    (field? ds).map fun places =>
      match value.float? with
      | some x => Number.fixed places x
      | none => value.render style

def interpolate? (style : Style) (value? : List Char → Option Literal) (done : List Char) :
    Nat → List Char → Option (List Char)
  -- A template with its braces replaced by the values that `value?` finds for what stands in them;
  -- two equal braces stand for one. `done` is reversed.
  | 0, _ => none
  | _ + 1, [] => some done.reverse
  | fuel + 1, '{' :: '{' :: rest => interpolate? style value? ('{' :: done) fuel rest
  | fuel + 1, '}' :: '}' :: rest => interpolate? style value? ('}' :: done) fuel rest
  | fuel + 1, '{' :: rest =>
    let region := rest.takeWhile (· != '}')
    let (name, format) := splitColon region
    match (value? name).bind fun v => applyFormat? style v format with
    | none => none
    | some text =>
      interpolate? style value? (text.reverse ++ done) fuel ((rest.dropWhile (· != '}')).drop 1)
  | fuel + 1, c :: rest => interpolate? style value? (c :: done) fuel rest

def resolveWithin? (style : Style) (store : Store) : Nat → List Char → Option Literal
  -- The value of a term, for terms of fewer than `fuel` characters.
  | 0, _ => none
  | fuel + 1, term =>
    let term := Text.trim term
    if term.isEmpty then none
    else
      match quoted? term with
      | some body => some (.text (Text.unescape body))
      | none =>
        let template? :=
          match term with
          | c :: rest => if style.interpolates && (c == 'f' || c == 'F') then quoted? rest else none
          | [] => none
        match template? with
        | some body =>
          let template := Text.unescape body
          (interpolate? style (resolveWithin? style store fuel) [] (template.length + 1)
            template).map .text
        | none =>
          match number? term with
          | some digits => some (.number digits)
          | none =>
            match literalWord? term with
            | some value => some value
            | none =>
              match (dropStart? ['('] term).bind (dropLast? ')') with
              | some inner => resolveWithin? style store fuel inner
              | none =>
                match firstWrapped? term style.wrappers with
                | some inner =>
                  (resolveWithin? style store fuel inner).map fun v => .text (v.render style)
                | none => if isName term then store.get? term else none

def resolve? (style : Style) (store : Store) (term : List Char) : Option Literal :=
  resolveWithin? style store (term.length + 1) term

end Snippet.Scan
