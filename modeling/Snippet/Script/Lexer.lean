import Snippet.Script.Token
import Snippet.Number.Reader
import Snippet.Text.Blank
import Snippet.Text.Letter

/-!
Cutting the text of a script into tokens. Blanks and comments separate tokens; the longest mark of the
table that fits is taken.
-/

namespace Snippet.Script

structure Here where
  rest : List Char
  line : Nat

/-- The outcome of reading an `α`. -/
abbrev Lexed (α : Type) := Except SyntaxFault (α × Here)

def Here.fail {α : Type} (h : Here) (e : SyntaxError) : Except SyntaxFault α := .error ⟨e, h.line⟩

def lineAfter (c : Char) (line : Nat) : Nat := if c == '\n' then line + 1 else line

def lineAfterText (s : List Char) (line : Nat) : Nat := s.foldl (fun n c => lineAfter c n) line

/-- The place after the first `n` characters. -/
def Here.skip (h : Here) (n : Nat) : Here := ⟨h.rest.drop n, lineAfterText (h.rest.take n) h.line⟩

def afterComment (line : Nat) : List Char → Except SyntaxFault Here
  | [] => .error ⟨.unterminatedComment, line⟩
  | '*' :: '/' :: rest => .ok ⟨rest, line⟩
  | c :: rest => afterComment (lineAfter c line) rest

def skipTrivia : Nat → Here → Except SyntaxFault Here
  | 0, h => h.fail .exhausted
  | fuel + 1, h =>
    match h.rest with
    | '/' :: '/' :: rest => skipTrivia fuel ⟨rest.dropWhile (· != '\n'), h.line⟩
    | '/' :: '*' :: rest =>
      match afterComment h.line rest with
      | .ok h => skipTrivia fuel h
      | .error e => .error e
    | c :: rest =>
      if Text.isBlank c then skipTrivia fuel ⟨rest, lineAfter c h.line⟩ else .ok h
    | [] => .ok h

def startsWord (c : Char) : Bool := Text.isLetter c || c == '_' || c == '$'

def continuesWord (c : Char) : Bool := Text.isLetterOrDigit c || c == '_' || c == '$'

def isRadixDigit (radix : Nat) (c : Char) : Bool :=
  c == '_' || (Number.digitValue? radix c).isSome

def radixOf? (c : Char) : Option Nat :=
  if c == 'x' || c == 'X' then some 16
  else if c == 'b' || c == 'B' then some 2
  else if c == 'o' || c == 'O' then some 8
  else none

def lexRadix (radix : Nat) (h : Here) : Lexed Token :=
  let ds := (h.rest.takeWhile (isRadixDigit radix)).filter (· != '_')
  let after : Here := ⟨h.rest.dropWhile (isRadixDigit radix), h.line⟩
  match Number.readWord? 64 radix ds with
  | some n => .ok (.number (UInt64.ofNat n).toFloat, after)
  | none => after.fail .invalidRadixNumber

inductive DecimalPart where
  | whole
  | fraction
  /-- The exponent's letter has just been read, so a sign may follow. -/
  | sign
  | exponent
deriving DecidableEq, Repr

def DecimalPart.next? (part : DecimalPart) (c : Char) : Option DecimalPart :=
  if c.isDigit || c == '_' then some (if part == .sign then .exponent else part)
  else if c == '.' then if part == .whole then some .fraction else none
  else if c == 'e' || c == 'E' then
    if part == .whole || part == .fraction then some .sign else none
  else if (c == '+' || c == '-') && part == .sign then some .exponent
  else none

def takeDecimal (part : DecimalPart) (done : List Char) : List Char → List Char × List Char
  -- The characters of a decimal number without its underscores, and the rest; `done` is reversed.
  | [] => (done.reverse, [])
  | c :: rest =>
    match part.next? c with
    | some part => takeDecimal part (if c == '_' then done else c :: done) rest
    | none => (done.reverse, c :: rest)

def lexDecimal (h : Here) : Lexed Token :=
  let (text, rest) := takeDecimal .whole [] h.rest
  match Number.readDecimal? text with
  | some x => .ok (.number x, ⟨rest, h.line⟩)
  | none => h.fail (.invalidNumber (String.ofList text))

def lexNumber (h : Here) : Lexed Token :=
  match h.rest with
  | '0' :: c :: rest =>
    match radixOf? c with
    | some radix => lexRadix radix ⟨rest, h.line⟩
    | none => lexDecimal h
  | _ => lexDecimal h

def codePoint? (hex : List Char) : Option Char :=
  (Number.readWord? 32 16 hex).bind fun n =>
    if n.isValidChar then some (Char.ofNat n) else none

def lexCode (n : Nat) (h : Here) : Lexed (Option Char) :=
  -- The character with the code written in the next `n` characters.
  let after := h.skip n
  match codePoint? (h.rest.take n) with
  | some c => .ok (some c, after)
  | none => after.fail .invalidEscape

def lexBracedCode (h : Here) : Lexed (Option Char) :=
  let hex := h.rest.takeWhile (· != '}')
  let after := h.skip (hex.length + 1)
  match codePoint? hex with
  | some c => .ok (some c, after)
  | none => after.fail .invalidEscape

def lexEscape (h : Here) : Lexed (Option Char) :=
  -- What an escape stands for; its backslash has been passed. An escaped newline stands for
  -- nothing.
  match h.rest with
  | [] => h.fail .unterminatedString
  | c :: rest =>
    let after : Here := ⟨rest, lineAfter c h.line⟩
    if c == 'n' then .ok (some '\n', after)
    else if c == 't' then .ok (some '\t', after)
    else if c == 'r' then .ok (some '\r', after)
    else if c == 'b' then .ok (some (Char.ofNat 8), after)
    else if c == 'f' then .ok (some (Char.ofNat 12), after)
    else if c == 'v' then .ok (some (Char.ofNat 11), after)
    else if c == '0' then .ok (some (Char.ofNat 0), after)
    else if c == '\n' then .ok (none, after)
    else if c == 'x' then lexCode 2 after
    else if c == 'u' then
      match after.rest with
      | '{' :: rest => lexBracedCode ⟨rest, after.line⟩
      | _ => lexCode 4 after
    else .ok (some c, after)

def consOption (c : Option Char) (s : List Char) : List Char :=
  match c with
  | some x => x :: s
  | none => s

def lexStringFrom (quote : Char) (done : List Char) : Nat → Here → Lexed Token
  -- The contents of a string up to its closing quote, which is passed; `done` is reversed.
  | 0, h => h.fail .exhausted
  | fuel + 1, h =>
    match h.rest with
    | [] => h.fail .unterminatedString
    | c :: rest =>
      let after : Here := ⟨rest, lineAfter c h.line⟩
      if c == '\\' then
        match lexEscape after with
        | .ok (x, h) => lexStringFrom quote (consOption x done) fuel h
        | .error e => .error e
      else if c == quote then .ok (.string (String.ofList done.reverse), after)
      else if c == '\n' then after.fail .unterminatedString
      else lexStringFrom quote (c :: done) fuel after

def tick : Char := '\x60'

def isDelimiter (c : Char) : Bool := c == '"' || c == '\'' || c == tick

def passLiteral (quote : Char) (done : List Char) (line : Nat) : List Char → List Char × Here
  -- Passes a literal inside a substitution up to its closing delimiter or the end of the text. The
  -- passed characters are put in front of `done`, the last one first.
  | [] => (done, ⟨[], line⟩)
  | ['\\'] => ('\\' :: done, ⟨[], line⟩)
  | '\\' :: e :: rest => passLiteral quote (e :: '\\' :: done) (lineAfter e line) rest
  | c :: rest =>
    if c == quote then (c :: done, ⟨rest, line⟩)
    else passLiteral quote (c :: done) (lineAfter c line) rest

def lexCodeFrom (depth : Nat) (done : List Char) : Nat → Here → Lexed String
  -- The source of a substitution up to its closing brace, which is passed; `depth` counts the
  -- braces open inside it, and `done` is reversed.
  | 0, h => h.fail .exhausted
  | fuel + 1, h =>
    match h.rest with
    | [] => h.fail .unterminatedSubstitution
    | c :: rest =>
      let after : Here := ⟨rest, lineAfter c h.line⟩
      if c == '{' then lexCodeFrom (depth + 1) (c :: done) fuel after
      else if c == '}' then
        match depth with
        | 0 => .ok (String.ofList done.reverse, after)
        | d + 1 => lexCodeFrom d (c :: done) fuel after
      else if isDelimiter c then
        let (done, h) := passLiteral c (c :: done) after.line after.rest
        lexCodeFrom depth done fuel h
      else lexCodeFrom depth (c :: done) fuel after

def flush (text : List Char) (chunks : List Chunk) : List Chunk :=
  if text.isEmpty then chunks else .text (String.ofList text.reverse) :: chunks

def lexTemplateFrom (text : List Char) (chunks : List Chunk) : Nat → Here → Lexed Token
  -- The chunks of a template up to its closing delimiter, which is passed; `text` and `chunks` are
  -- reversed.
  | 0, h => h.fail .exhausted
  | fuel + 1, h =>
    match h.rest with
    | [] => h.fail .unterminatedTemplate
    | '$' :: '{' :: rest =>
      match lexCodeFrom 0 [] fuel ⟨rest, h.line⟩ with
      | .ok (code, h) => lexTemplateFrom [] (.code code :: flush text chunks) fuel h
      | .error e => .error e
    | c :: rest =>
      let after : Here := ⟨rest, lineAfter c h.line⟩
      if c == tick then .ok (.template (flush text chunks).reverse, after)
      else if c == '\\' then
        match lexEscape after with
        | .ok (x, h) => lexTemplateFrom (consOption x text) chunks fuel h
        | .error e => .error e
      else lexTemplateFrom (c :: text) chunks fuel after

def startsWithDigit (s : List Char) : Bool := s.head?.any Char.isDigit

def markFits (text : List Char) (mark : String) : Bool :=
  -- Whether a mark is taken at the start of a text. A question mark and a point in front of a digit
  -- belong to a conditional and a number.
  mark.toList.isPrefixOf text && !(mark == "?." && startsWithDigit (text.drop 2))

def lexMark (h : Here) : Lexed Token :=
  match marks.find? (markFits h.rest) with
  | some mark => .ok (.mark mark, ⟨h.rest.drop mark.length, h.line⟩)
  | none => h.fail (.invalidCharacter (h.rest.head?.getD (Char.ofNat 0)))

def lexToken (fuel : Nat) (c : Char) (tail : List Char) (line : Nat) : Lexed Token :=
  -- A token of fewer than `fuel` characters, at a place where blanks and comments have been passed
  -- and the text has not ended; `c` is the first character and `tail` what follows it.
  let h : Here := ⟨c :: tail, line⟩
  if c.isDigit || (c == '.' && startsWithDigit tail) then lexNumber h
  else if c == '"' || c == '\'' then lexStringFrom c [] fuel ⟨tail, line⟩
  else if c == tick then lexTemplateFrom [] [] fuel ⟨tail, line⟩
  else if startsWord c then
    .ok (.word (String.ofList (c :: tail.takeWhile continuesWord)),
      ⟨tail.dropWhile continuesWord, line⟩)
  else lexMark h

def tokensFrom (done : List Placed) : Nat → Here → Except SyntaxFault (List Placed)
  -- The tokens from a place on, where fewer than `fuel` characters are left; `done` is reversed.
  | 0, h => h.fail .exhausted
  | fuel + 1, h =>
    match skipTrivia (fuel + 1) h with
    | .error e => .error e
    | .ok h =>
      match h.rest with
      | [] => .ok (⟨.stop, h.line⟩ :: done).reverse
      | c :: tail =>
        match lexToken (fuel + 1) c tail h.line with
        | .error e => .error e
        | .ok (token, after) => tokensFrom (⟨token, h.line⟩ :: done) fuel after

def tokenize (text : List Char) : Except SyntaxFault (List Placed) :=
  tokensFrom [] (text.length + 1) ⟨text, 1⟩

end Snippet.Script
