import Snippet.Scan.Term
import Snippet.Scan.Split

/-!
Formatted printing: a format string whose directives, each a percent sign with flags, a width, a
count of places and a letter, are replaced by the arguments in turn.
-/

namespace Snippet.Scan

structure Directive where
  flags : List Char
  width : List Char
  /-- The digits after the point, if there is a point. -/
  places : Option (List Char)

def isFlag (c : Char) : Bool := "-+ 0#".toList.contains c

def isSize (c : Char) : Bool := c == 'l' || c == 'h' || c == 'z'

def Directive.read (s : List Char) : Directive × List Char :=
  let flags := s.takeWhile isFlag
  let s := s.dropWhile isFlag
  let width := s.takeWhile Char.isDigit
  let s := s.dropWhile Char.isDigit
  let (places, s) :=
    match s with
    | '.' :: rest => (some (rest.takeWhile Char.isDigit), rest.dropWhile Char.isDigit)
    | _ => (none, s)
  (⟨flags, width, places⟩, s.dropWhile isSize)

def Directive.pad (d : Directive) (letter : Char) (width : Nat) (text : List Char) : List Char :=
  let missing := width - text.length
  if d.flags.contains '-' then text ++ List.replicate missing ' '
  else if d.flags.contains '0' && letter != 's' then
    match text with
    | '-' :: ds => '-' :: (List.replicate missing '0' ++ ds)
    | ds => List.replicate missing '0' ++ ds
  else List.replicate missing ' ' ++ text

def hexText (n : Int) : List Char := Nat.toDigits 16 (n % (Number.twoTo 64 : Int)).toNat

def charText? (style : Style) : Literal → Option (List Char)
  | .number code =>
    (Number.readWord? 32 10 code).bind fun n =>
      if n.isValidChar then some [Char.ofNat n] else none
  | value => some ((value.render style).take 1)

def convertText? (style : Style) (letter : Char) (places : Option Nat) (value : Literal) :
    Option (List Char) :=
  if letter == 'd' || letter == 'i' || letter == 'u' then
    value.float?.map fun x => Number.integerText (Number.toInt64Clamped (Number.truncate x))
  else if letter == 'f' || letter == 'F' then
    value.float?.map fun x => Number.fixed (places.getD 6) x
  else if letter == 'e' || letter == 'E' then
    value.float?.map fun x => Number.scientificFixed (places.getD 6) x
  else if letter == 'x' then value.float?.map fun x => hexText (Number.toInt64Clamped x)
  else if letter == 'X' then
    value.float?.map fun x => (hexText (Number.toInt64Clamped x)).map Char.toUpper
  else if letter == 'c' then charText? style value
  else if letter == 's' then
    let text := value.render style
    some ((places.map fun n => text.take n).getD text)
  else if letter == 'g' || letter == 'G' || letter == 'b' then some (value.render style)
  else none

def renderDirective? (style : Style) (letter : Char) (places : Option Nat) (values : List Literal)
    : Option (List Char × List Literal) :=
  if letter == '%' then some (['%'], values)
  else if letter == 'n' then some (['\n'], values)
  else
    match values with
    | [] => none
    | value :: rest => (convertText? style letter places value).map fun text => (text, rest)

def Directive.places? (d : Directive) : Option (Option Nat) :=
  match d.places with
  | none => some none
  | some ds => (field? ds).map some

def formatAfter? (style : Style) (done : List Char) :
    Nat → List Literal → List Char → Option (List Char)
  -- A format with its directives replaced by the values; `done` is reversed.
  | 0, _, _ => none
  | _ + 1, _, [] => some done.reverse
  | fuel + 1, values, '%' :: rest =>
    let (d, rest) := Directive.read rest
    match d.places? with
    | none => none
    | some places =>
      match rest with
      | [] => some ('%' :: done).reverse
      | letter :: rest =>
        match renderDirective? style letter places values, field? d.width with
        | some (text, values), some width =>
          formatAfter? style ((d.pad letter width text).reverse ++ done) fuel values rest
        | _, _ => none
  | fuel + 1, values, c :: rest => formatAfter? style (c :: done) fuel values rest

def renderFormat? (style : Style) (store : Store) (arguments : List Char) : Option (List Char) :=
  -- What a formatted print with the given argument list prints, if all its arguments are known and
  -- fit their directives.
  match splitTopLevel [','] arguments with
  | [] => none
  | first :: rest =>
    match resolve? style store first, rest.mapM (resolve? style store) with
    | some (.text format), some values => formatAfter? style [] (format.length + 1) values format
    | _, _ => none

end Snippet.Scan
