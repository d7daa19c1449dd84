import Snippet.Json.Reader

/-!
The form of a JSON text: its containers, with numbers and strings as they are written. A record is
read from the form, so a part of the text that no field asks for has to be well formed but need not
have a value.
-/

namespace Snippet.Json

inductive Form where
  | null
  | bool (b : Bool)
  | number (lexeme : List Char)
  | string (quoted : List Char)
  | array (items : List Form)
  | object (members : List (List Char × Form))

def skipJsonBlanks (s : List Char) : List Char := s.dropWhile isJsonBlank

def takeDigits? (s : List Char) : Option (List Char × List Char) :=
  let ds := s.takeWhile Char.isDigit
  if ds.isEmpty then none else some (ds, s.dropWhile Char.isDigit)

def takeExponent? (s : List Char) : Option (List Char × List Char) :=
  match s with
  | c :: rest =>
    if c == 'e' || c == 'E' then
      let (sign, body) :=
        match rest with
        | '+' :: r => (['+'], r)
        | '-' :: r => (['-'], r)
        | _ => ([], rest)
      (takeDigits? body).map fun (ds, r) => (c :: (sign ++ ds), r)
    else some ([], s)
  | [] => some ([], [])

def takeFraction? (s : List Char) : Option (List Char × List Char) :=
  match s with
  | '.' :: rest => (takeDigits? rest).map fun (ds, r) => ('.' :: ds, r)
  | _ => some ([], s)

def takeNumber? (s : List Char) : Option (List Char × List Char) :=
  let (sign, body) :=
    match s with
    | '-' :: r => (['-'], r)
    | _ => ([], s)
  match takeDigits? body with
  | none => none
  | some (whole, rest) =>
    if whole.head? == some '0' && whole.length != 1 then none
    else
      match takeFraction? rest with
      | none => none
      | some (fraction, rest) =>
        (takeExponent? rest).map fun (e, rest) => (sign ++ whole ++ fraction ++ e, rest)

def isHexDigit (c : Char) : Bool := (Number.digitValue? 16 c).isSome

def takeQuoted? (done : List Char) : List Char → Option (List Char × List Char)
  -- The inside of a quoted string up to its closing quote, and the rest; `done` holds what has been
  -- passed, the last character first.
  | [] => none
  | '"' :: rest => some (done.reverse, rest)
  | '\\' :: 'u' :: a :: b :: c :: d :: rest =>
    if [a, b, c, d].all isHexDigit then takeQuoted? ([d, c, b, a, 'u', '\\'] ++ done) rest else none
  | '\\' :: e :: rest =>
    if "\"\\/bfnrt".toList.contains e then takeQuoted? (e :: '\\' :: done) rest else none
  | c :: rest => if c == '\\' || c.toNat < 32 then none else takeQuoted? (c :: done) rest

mutual

def takeForm? : Nat → List Char → Option (Form × List Char)
  | 0, _ => none
  | fuel + 1, s =>
    match skipJsonBlanks s with
    | 'n' :: 'u' :: 'l' :: 'l' :: rest => some (.null, rest)
    | 't' :: 'r' :: 'u' :: 'e' :: rest => some (.bool true, rest)
    | 'f' :: 'a' :: 'l' :: 's' :: 'e' :: rest => some (.bool false, rest)
    | '"' :: rest => (takeQuoted? [] rest).map fun (q, r) => (.string q, r)
    | '[' :: rest => takeItems? true [] fuel rest
    | '{' :: rest => takeMembers? true [] fuel rest
    | s => (takeNumber? s).map fun (n, r) => (.number n, r)

def takeItems? (first : Bool) (done : List Form) : Nat → List Char → Option (Form × List Char)
  | 0, _ => none
  | fuel + 1, s =>
    match skipJsonBlanks s with
    | ']' :: rest => if first then some (.array [], rest) else none
    | s =>
      match takeForm? fuel s with
      | none => none
      | some (item, rest) =>
        match skipJsonBlanks rest with
        | ']' :: rest => some (.array (item :: done).reverse, rest)
        | ',' :: rest => takeItems? false (item :: done) fuel rest
        | _ => none

def takeMembers? (first : Bool) (done : List (List Char × Form)) :
    Nat → List Char → Option (Form × List Char)
  | 0, _ => none
  | fuel + 1, s =>
    match skipJsonBlanks s with
    | '}' :: rest => if first then some (.object [], rest) else none
    | '"' :: rest =>
      match takeQuoted? [] rest with
      | none => none
      | some (key, rest) =>
        match skipJsonBlanks rest with
        | ':' :: rest =>
          match takeForm? fuel rest with
          | none => none
          | some (value, rest) =>
            match skipJsonBlanks rest with
            | '}' :: rest => some (.object ((key, value) :: done).reverse, rest)
            | ',' :: rest => takeMembers? false ((key, value) :: done) fuel rest
            | _ => none
        | _ => none
    | _ => none

end

def Form.ofText? (text : List Char) : Option Form :=
  match takeForm? (2 * text.length + 2) text with
  | some (form, rest) => if (skipJsonBlanks rest).isEmpty then some form else none
  | none => none

def unquote? (quoted : List Char) : Option String :=
  match readString (quoted.length + 2) ⟨quoted ++ ['"'], 0⟩ with
  | .ok (s, _) => some s
  | .error _ => none

def Form.string? : Form → Option String
  | .string quoted => unquote? quoted
  | _ => none

def Form.number? : Form → Option Json
  | .number lexeme =>
    let outcome :=
      match lexeme with
      | '-' :: rest => readNumber true ⟨rest, 0⟩
      | _ => readNumber false ⟨lexeme, 0⟩
    match outcome with
    | .ok (n, _) => some n
    | .error _ => none
  | _ => none

def Form.integer? (lo hi : Int) (form : Form) : Option Int :=
  -- A whole number from `lo` up to `hi`.
  match form.number? with
  | some (.integer n) => if lo ≤ n && n ≤ hi then some n else none
  | _ => none

def Form.natural? (bits : Nat) (form : Form) : Option Nat :=
  -- A natural number of at most `bits` bits.
  (form.integer? 0 ((Number.twoTo bits : Int) - 1)).map Int.toNat

def Form.float? (form : Form) : Option Float :=
  match form.number? with
  | some (.integer n) => some (Float.ofInt n)
  | some (.float x) => some x
  | _ => none

def Form.optional? {α : Type} (read : Form → Option α) : Form → Option (Option α)
  -- What `read` finds, or nothing where the text has `null`.
  | .null => some none
  | form => (read form).map some

structure Fields where
  -- The fields found in a record, in the order of the declared names. In an array they are given by
  -- position, so a missing one is known from its place.
  found : List (Option Form)
  positional : Bool

def soleMember? (names : List String) (members : List (String × Form)) : Option (Option Form) :=
  -- The member with one of the names: none where it is missing, and no answer where it comes more
  -- than once.
  match members.filter fun m => names.contains m.1 with
  | [] => some none
  | [m] => some (some m.2)
  | _ => none

def Form.fields? (declared : List (List String)) : Form → Option Fields
  -- The fields of a record, each declared with the names it may have. Members with other names are
  -- passed over; an array gives the fields in order and may not be longer than they are.
  | .object members =>
    let named? := members.mapM fun (key, value) => (unquote? key).map fun k => (k, value)
    named?.bind fun named =>
      (declared.mapM fun names => soleMember? names named).map fun found => ⟨found, false⟩
  | .array items =>
    if declared.length < items.length then none
    else
      some ⟨items.map some ++ List.replicate (declared.length - items.length) none, true⟩
  | _ => none

def Fields.required? {α : Type} (fields : Fields) (i : Nat) (read : Form → Option α) : Option α :=
  match fields.found[i]? with
  | some (some form) => read form
  | _ => none

def Fields.nullable? {α : Type} (fields : Fields) (i : Nat) (read : Form → Option α) :
    Option (Option α) :=
  -- The field at an index, which may be missing where fields have names and may be `null` anywhere.
  match fields.found[i]? with
  | some (some form) => form.optional? read
  | _ => if fields.positional then none else some none

def Fields.withDefault? {α : Type} (fields : Fields) (i : Nat) (default : α)
    (read : Form → Option α) : Option α :=
  match fields.found[i]? with
  | some (some form) => read form
  | _ => some default

end Snippet.Json
