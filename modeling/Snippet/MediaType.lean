/-!
Media types, as far as it takes to tell whether a body is declared to be JSON.
-/

namespace Snippet.MediaType

def isTokenChar (c : Char) : Bool := c.isAlphanum || "!#$&-^_.+%*'|~\x60".toList.contains c

def isQuotable (c : Char) : Bool := 31 < c.toNat && c.toNat < 127

def afterQuoted? : List Char → Option (List Char)
  -- What may follow a quoted value: blanks, and then the end or a semicolon, after which the next
  -- parameter starts.
  | [] => some []
  | ';' :: rest => some rest
  | ' ' :: rest => afterQuoted? rest
  | _ => none

def afterOpening? : List Char → Option (List Char)
  -- The text after a quoted value whose opening quote has been passed. The value has at least one
  -- character, so a quote right behind the opening one belongs to it.
  | [] => none
  | c :: rest =>
    if isQuotable c then
      match rest.dropWhile fun x => isQuotable x && x != '"' with
      | '"' :: tail => afterQuoted? tail
      | _ => none
    else none

def afterValue? (s : List Char) : Option (List Char) :=
  match s with
  | '"' :: rest => afterOpening? rest
  | _ =>
    match s.dropWhile isTokenChar with
    | [] => some []
    | ';' :: rest => if (s.takeWhile isTokenChar).isEmpty then none else some rest
    | _ => none

def areParameters : Nat → List Char → Bool
  | 0, _ => false
  | fuel + 1, s =>
    match s.dropWhile (· == ' ') with
    | [] => true
    | s =>
      match s.dropWhile isTokenChar with
      | '=' :: rest =>
        if (s.takeWhile isTokenChar).isEmpty then false
        else
          match afterValue? rest with
          | some rest => areParameters fuel rest
          | none => false
      | _ => false

def splitSuffix (subtype : List Char) : List Char × Option (List Char) :=
  let backward := subtype.reverse
  let suffix := backward.takeWhile (· != '+')
  if suffix.length + 1 < backward.length then
    ((backward.drop (suffix.length + 1)).reverse, some suffix.reverse)
  else (subtype, none)

def declaresJson (contentType : String) : Bool :=
  -- Whether a content type is well formed and its subtype, or the suffix of its subtype, is `json`.
  let s := contentType.toList
  match s.dropWhile isTokenChar with
  | '/' :: rest =>
    let subtype := rest.takeWhile isTokenChar
    let parametersOk :=
      match rest.dropWhile isTokenChar with
      | [] => true
      | ';' :: tail => areParameters (tail.length + 1) tail
      | _ => false
    let (main, suffix) := splitSuffix (subtype.map Char.toLower)
    !(s.takeWhile isTokenChar).isEmpty && parametersOk
      && (main == "json".toList || suffix == some "json".toList)
  | _ => false

end Snippet.MediaType
