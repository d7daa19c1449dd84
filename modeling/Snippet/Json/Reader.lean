import Snippet.Json.Basic
import Snippet.Number.Reader

/-!
Reading JSON text. A text that is not JSON is refused with the cause and the place at which reading
stopped, counted in lines and in UTF-8 bytes.
-/

namespace Snippet.Json

inductive Fault where
  | endInList
  | endInObject
  | endInString
  | endInValue
  | expectedColon
  | expectedCommaOrBracket
  | expectedCommaOrBrace
  | expectedIdent
  | expectedValue
  | invalidEscape
  | invalidNumber
  | numberOutOfRange
  | controlCharacter
  | keyNotString
  | loneSurrogate
  | unexpectedEndOfEscape
  | trailingComma
  | trailingCharacters
  | tooDeep
deriving DecidableEq, Repr

def Fault.message : Fault → String
  | .endInList => "EOF while parsing a list"
  | .endInObject => "EOF while parsing an object"
  | .endInString => "EOF while parsing a string"
  | .endInValue => "EOF while parsing a value"
  | .expectedColon => "expected \x60:\x60"
  | .expectedCommaOrBracket => "expected \x60,\x60 or \x60]\x60"
  | .expectedCommaOrBrace => "expected \x60,\x60 or \x60\x7d\x60"
  | .expectedIdent => "expected ident"
  | .expectedValue => "expected value"
  | .invalidEscape => "invalid escape"
  | .invalidNumber => "invalid number"
  | .numberOutOfRange => "number out of range"
  | .controlCharacter =>
    "control character (\\u0000-\\u001F) found while parsing a string"
  | .keyNotString => "key must be a string"
  | .loneSurrogate => "lone leading surrogate in hex escape"
  | .unexpectedEndOfEscape => "unexpected end of hex escape"
  | .trailingComma => "trailing comma"
  | .trailingCharacters => "trailing characters"
  | .tooDeep => "recursion limit exceeded"

def depthLimit : Nat := 128

structure Cursor where
  rest : List Char
  offset : Nat

structure Failure where
  fault : Fault
  offset : Nat

/-- The outcome of reading an `α`. -/
abbrev Reading (α : Type) := Except Failure (α × Cursor)

def Cursor.failHere {α : Type} (c : Cursor) (fault : Fault) : Except Failure α :=
  .error ⟨fault, c.offset⟩

def Cursor.failNext {α : Type} (c : Cursor) (fault : Fault) : Except Failure α :=
  .error ⟨fault, if c.rest.isEmpty then c.offset else c.offset + 1⟩

def isJsonBlank (c : Char) : Bool := c == ' ' || c == '\n' || c == '\t' || c == '\r'

def Cursor.skipBlanks (c : Cursor) : Cursor :=
  ⟨c.rest.dropWhile isJsonBlank, c.offset + (c.rest.takeWhile isJsonBlank).length⟩

/-- The cursor after its first `n` characters, all of them ASCII. -/
def Cursor.skip (c : Cursor) (n : Nat) : Cursor := ⟨c.rest.drop n, c.offset + n⟩

def readLetters (c : Cursor) : List Char → Except Failure Cursor
  | [] => .ok c
  | letter :: letters =>
    match c.rest with
    | [] => c.failHere .endInValue
    | x :: rest =>
      let next : Cursor := ⟨rest, c.offset + 1⟩
      if x == letter then readLetters next letters else next.failHere .expectedIdent

/-- Ten to the `n`, correctly rounded. -/
def powerOfTen (n : Nat) : Float := Float.ofScientific 1 false n

def scaleDown (x : Float) (exponent : Nat) : Nat → Float
  -- The significand scaled by a power of ten in steps of at most 308 powers, each step rounded;
  -- none when the result grows beyond all numbers. Every step of a negative exponent brings it 308
  -- nearer to zero, and ten steps leave nothing.
  | 0 => 0.0
  | steps + 1 =>
    if exponent ≤ 308 then x / powerOfTen exponent
    else if x == 0.0 then x
    else scaleDown (x / powerOfTen 308) (exponent - 308) steps

def scaled? (significand : Nat) (exponent : Int) : Option Float :=
  let x := (UInt64.ofNat significand).toFloat
  if 0 ≤ exponent then
    if exponent ≤ 308 then
      let y := x * powerOfTen exponent.toNat
      if y.isInf then none else some y
    else if x == 0.0 then some x
    else none
  else some (scaleDown x (-exponent).toNat 10)

def takeWord (acc count : Nat) : List Char → Nat × Nat × List Char
  -- The digits that fit into a 64-bit word together with `acc`: the word, how many digits it took
  -- and the digits left out.
  | [] => (acc, count, [])
  | d :: rest =>
    let next := acc * 10 + (d.toNat - '0'.toNat)
    if Number.twoTo 64 ≤ next then (acc, count, d :: rest) else takeWord next (count + 1) rest

def finish (negative : Bool) (c : Cursor) (x? : Option Float) : Reading Json :=
  match x? with
  | some x => .ok (.float (if negative then -x else x), c)
  | none => c.failHere .numberOutOfRange

def readExponent (negative : Bool) (significand : Nat) (exponent : Int) (c : Cursor) :
    Reading Json :=
  let (down, c) :=
    match c.rest with
    | '+' :: _ => (false, c.skip 1)
    | '-' :: _ => (true, c.skip 1)
    | _ => (false, c)
  match c.rest with
  | [] => c.failHere .endInValue
  | d :: rest =>
    if d.isDigit then
      let ds := c.rest.takeWhile Char.isDigit
      let e := ds.foldl (fun acc x => acc * 10 + (x.toNat - '0'.toNat)) 0
      let after := c.skip ds.length
      if Number.twoTo 31 ≤ e then
        if significand != 0 && !down then
          -- Reading stops at the first digit that does not fit.
          let fits := ds.foldl (fun (acc : Nat × Nat) x =>
            let next := acc.1 * 10 + (x.toNat - '0'.toNat)
            if Number.twoTo 31 ≤ next then (Number.twoTo 31, acc.2) else (next, acc.2 + 1)) (0, 0)
          (c.skip (fits.2 + 1)).failHere .numberOutOfRange
        else finish negative after (some 0.0)
      else finish negative after (scaled? significand (if down then exponent - e else exponent + e))
    else (⟨rest, c.offset + 1⟩ : Cursor).failHere .invalidNumber

def readAfterDigits (negative : Bool) (significand : Nat) (exponent : Int) (c : Cursor) :
    Reading Json :=
  match c.rest with
  | 'e' :: _ => readExponent negative significand exponent (c.skip 1)
  | 'E' :: _ => readExponent negative significand exponent (c.skip 1)
  | _ => finish negative c (scaled? significand exponent)

def readFraction (negative : Bool) (significand : Nat) (exponent : Int) (c : Cursor) :
    Reading Json :=
  let ds := c.rest.takeWhile Char.isDigit
  let (word, count, _) := takeWord significand 0 ds
  if ds.isEmpty then
    if c.rest.isEmpty then c.failNext .endInValue else c.failNext .invalidNumber
  else readAfterDigits negative word (exponent - count) (c.skip ds.length)

def readNumber (negative : Bool) (c : Cursor) : Reading Json :=
  match c.rest with
  | [] => c.failHere .endInValue
  | d :: rest =>
    if !d.isDigit then (⟨rest, c.offset + 1⟩ : Cursor).failHere .invalidNumber
    else
      let ds := c.rest.takeWhile Char.isDigit
      if d == '0' && ds.length != 1 then (c.skip 1).failNext .invalidNumber
      else
        let (word, _, left) := takeWord 0 0 ds
        let after := c.skip ds.length
        match after.rest with
        | '.' :: _ => readFraction negative word left.length (after.skip 1)
        | 'e' :: _ => readExponent negative word left.length (after.skip 1)
        | 'E' :: _ => readExponent negative word left.length (after.skip 1)
        | _ =>
          if !left.isEmpty then finish negative after (scaled? word left.length)
          else if !negative then .ok (.integer word, after)
          else if word == 0 || Number.twoTo 63 < word then
            .ok (.float (-(UInt64.ofNat word).toFloat), after)
          else .ok (.integer (-word), after)

def readHex4 (c : Cursor) : Reading Nat :=
  let ahead := c.rest.take 4
  let bytes := ahead.foldl (fun n x => n + x.utf8Size) 0
  if bytes < 4 then (⟨[], c.offset + bytes⟩ : Cursor).failHere .endInString
  else
    match Number.digitsValue? 16 0 ahead with
    | some n => .ok (n, c.skip 4)
    | none => (c.skip 4).failHere .invalidEscape

def readLowSurrogate (high : Nat) (c : Cursor) : Reading Char :=
  -- The second half of a surrogate pair, whose first half is `high`.
  match c.rest with
  | [] => c.failHere .endInString
  | '\\' :: rest =>
    let c : Cursor := ⟨rest, c.offset + 1⟩
    match c.rest with
    | [] => c.failHere .endInString
    | 'u' :: rest =>
      match readHex4 ⟨rest, c.offset + 1⟩ with
      | .error e => .error e
      | .ok (low, c) =>
        if 0xDC00 ≤ low ∧ low ≤ 0xDFFF then
          .ok (Char.ofNat (0x10000 + (high - 0xD800) * 0x400 + (low - 0xDC00)), c)
        else c.failHere .loneSurrogate
    | _ => (c.skip 1).failHere .unexpectedEndOfEscape
  | _ => (c.skip 1).failHere .unexpectedEndOfEscape

def readEscape (c : Cursor) : Reading Char :=
  match c.rest with
  | [] => c.failHere .endInString
  | e :: rest =>
    let after : Cursor := ⟨rest, c.offset + 1⟩
    match e with
    | '"' => .ok ('"', after)
    | '\\' => .ok ('\\', after)
    | '/' => .ok ('/', after)
    | 'b' => .ok (Char.ofNat 8, after)
    | 'f' => .ok (Char.ofNat 12, after)
    | 'n' => .ok ('\n', after)
    | 'r' => .ok ('\r', after)
    | 't' => .ok ('\t', after)
    | 'u' =>
      match readHex4 after with
      | .error e => .error e
      | .ok (n, c) =>
        if 0xDC00 ≤ n ∧ n ≤ 0xDFFF then c.failHere .loneSurrogate
        else if 0xD800 ≤ n ∧ n ≤ 0xDBFF then readLowSurrogate n c
        else .ok (Char.ofNat n, c)
    | _ => after.failHere .invalidEscape

def readStringFrom (done : List Char) : Nat → Cursor → Reading String
  -- The characters of a string up to its closing quote, which is passed; `done` holds those read so
  -- far, the last one first.
  | 0, c => c.failHere .endInString
  | fuel + 1, c =>
    match c.rest with
    | [] => c.failHere .endInString
    | '"' :: rest => .ok (String.ofList done.reverse, ⟨rest, c.offset + 1⟩)
    | '\\' :: rest =>
      match readEscape ⟨rest, c.offset + 1⟩ with
      | .error e => .error e
      | .ok (x, c) => readStringFrom (x :: done) fuel c
    | x :: rest =>
      if x.toNat < 32 then (c.skip 1).failHere .controlCharacter
      else readStringFrom (x :: done) fuel ⟨rest, c.offset + x.utf8Size⟩

/-- A string after its opening quote, of fewer than `fuel` characters. -/
def readString (fuel : Nat) (c : Cursor) : Reading String := readStringFrom [] fuel c

mutual

def readValue (room : Nat) : Nat → Cursor → Reading Json
  -- A value; `room` is how many containers may still be opened, plus one.
  | 0, c => c.failHere .endInValue
  | fuel + 1, c =>
    let c := c.skipBlanks
    match c.rest with
    | [] => c.failNext .endInValue
    | 'n' :: _ => (readLetters (c.skip 1) "ull".toList).map fun c => (.null, c)
    | 't' :: _ => (readLetters (c.skip 1) "rue".toList).map fun c => (.bool true, c)
    | 'f' :: _ => (readLetters (c.skip 1) "alse".toList).map fun c => (.bool false, c)
    | '-' :: _ => readNumber true (c.skip 1)
    | '"' :: _ => (readString (fuel + 1) (c.skip 1)).map fun (s, c) => (.string s, c)
    | '[' :: _ =>
      if room ≤ 1 then c.failNext .tooDeep
      else readItems (room - 1) true [] fuel (c.skip 1)
    | '{' :: _ =>
      if room ≤ 1 then c.failNext .tooDeep
      else readMembers (room - 1) true [] fuel (c.skip 1)
    | d :: _ => if d.isDigit then readNumber false c else c.failNext .expectedValue

def readItems (room : Nat) (first : Bool) (done : List Json) : Nat → Cursor → Reading Json
  | 0, c => c.failHere .endInValue
  | fuel + 1, c =>
    let c := c.skipBlanks
    match c.rest with
    | [] => c.failNext .endInList
    | ']' :: _ => .ok (.array done.reverse, c.skip 1)
    | x :: _ =>
      let start : Except Failure Cursor :=
        if first then .ok c
        else if x == ',' then
          let c := (c.skip 1).skipBlanks
          match c.rest with
          | [] => c.failNext .endInValue
          | ']' :: _ => c.failNext .trailingComma
          | _ => .ok c
        else c.failNext .expectedCommaOrBracket
      match start with
      | .error e => .error e
      | .ok c =>
        match readValue room fuel c with
        | .error e => .error e
        | .ok (item, c) => readItems room false (item :: done) fuel c

def readMembers (room : Nat) (first : Bool) (done : List (String × Json)) :
    Nat → Cursor → Reading Json
  | 0, c => c.failHere .endInValue
  | fuel + 1, c =>
    let c := c.skipBlanks
    match c.rest with
    | [] => c.failNext .endInObject
    | '}' :: _ => .ok (.object (ofMembers done.reverse), c.skip 1)
    | x :: _ =>
      let start : Except Failure Cursor :=
        if first then if x == '"' then .ok c else c.failNext .keyNotString
        else if x == ',' then
          let c := (c.skip 1).skipBlanks
          match c.rest with
          | [] => c.failNext .endInValue
          | '"' :: _ => .ok c
          | '}' :: _ => c.failNext .trailingComma
          | _ => c.failNext .keyNotString
        else c.failNext .expectedCommaOrBrace
      match start with
      | .error e => .error e
      | .ok c =>
        match readString (fuel + 1) (c.skip 1) with
        | .error e => .error e
        | .ok (key, c) =>
          let c := c.skipBlanks
          match c.rest with
          | [] => c.failNext .endInObject
          | ':' :: _ =>
            match readValue room fuel (c.skip 1) with
            | .error e => .error e
            | .ok (value, c) => readMembers room false ((key, value) :: done) fuel c
          | _ => c.failNext .expectedColon

end

/-- Where a digit is next, a value is a number. -/
theorem readValue_of_digit {c : Cursor} {d : Char} {tail : List Char} (hc : c.skipBlanks.rest = d :: tail)
    (hd : d.isDigit = true) (room fuel : Nat) :
    readValue room (fuel + 1) c = readNumber false c.skipBlanks := by
  rw [readValue]
  dsimp only
  split
  · next hrest =>
    rw [hc] at hrest
    cases hrest
  -- The letters and marks with which other values begin are no digits.
  iterate 7 next hrest => exact absurd ((List.cons.inj (hc.symm.trans hrest)).1 ▸ hd) (by decide)
  · next hrest =>
    obtain ⟨rfl, -⟩ := List.cons.inj (hc.symm.trans hrest)
    rw [if_pos hd]

def read (text : List Char) : Except Failure Json :=
  match readValue depthLimit (2 * text.length + 2) ⟨text, 0⟩ with
  | .error e => .error e
  | .ok (value, c) =>
    let c := c.skipBlanks
    if c.rest.isEmpty then .ok value else c.failNext .trailingCharacters

def place (line column : Nat) : Nat → List Char → Nat × Nat
  | _, [] => (line, column)
  | offset, c :: rest =>
    if offset == 0 then (line, column)
    else if offset < c.utf8Size then (line, column + offset)
    else if c == '\n' then place (line + 1) 0 (offset - 1) rest
    else place line (column + c.utf8Size) (offset - c.utf8Size) rest

def Failure.message (text : List Char) (f : Failure) : String :=
  let (line, column) := place 1 0 f.offset text
  s!"{f.fault.message} at line {line} column {column}"

end Snippet.Json
