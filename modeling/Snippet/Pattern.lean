import Snippet.Text.Blank
import Snippet.Text.Word

/-!
Patterns over characters. A pattern matches at a spot of a text by trying its alternatives in order,
so the first way to succeed wins; repetitions prefer more or fewer rounds as they are told. Parts of
a match can be captured under a name.
-/

namespace Snippet

inductive Pattern where
  /-- Nothing at all. -/
  | empty
  /-- One character that satisfies a test. -/
  | one (test : Char → Bool)
  /-- Any number of characters that satisfy a test. -/
  | run (greedy : Bool) (test : Char → Bool)
  /-- A fixed text. -/
  | literal (text : List Char)
  /-- One pattern after the other. -/
  | both (first second : Pattern)
  /-- The first of two patterns that leads to success. -/
  | either (first second : Pattern)
  /-- Any number of rounds, as many as possible. -/
  | many (round : Pattern)
  /-- A pattern whose match is kept under a name. -/
  | capture (name : String) (inner : Pattern)
  /-- The start of the text. -/
  | textStart
  /-- The start of a line. -/
  | lineStart
  /-- The end of the text. -/
  | textEnd
  /-- A place where a word begins or ends. -/
  | wordEdge

namespace Pattern

structure Spot where
  previous : Option Char
  rest : List Char
  index : Nat

def Spot.step (c : Char) (rest : List Char) (s : Spot) : Spot := ⟨some c, rest, s.index + 1⟩

def Spot.textTo (s : Spot) (t : Spot) : List Char := s.rest.take (t.index - s.index)

abbrev Captures := List (String × List Char)

abbrev Continuation := Spot → Captures → Option (Spot × Captures)

def Spot.atWordEdge (s : Spot) : Bool :=
  (s.previous.any Text.isWordChar) != (s.rest.head?.any Text.isWordChar)

def Spot.after? (s : Spot) : List Char → Option Spot
  | [] => some s
  | c :: cs =>
    match s.rest with
    | [] => none
    | x :: rest => if x == c then (s.step x rest).after? cs else none

def Spot.reach (test : Char → Bool) (passed : List Spot) (previous : Option Char) (index : Nat) :
    List Char → List Spot
  -- The places reached by passing characters that satisfy a test, the farthest first; `passed`
  -- holds those found so far.
  | [] => ⟨previous, [], index⟩ :: passed
  | c :: rest =>
    let here : Spot := ⟨previous, c :: rest, index⟩
    if test c then Spot.reach test (here :: passed) (some c) (index + 1) rest else here :: passed

def firstSuccess (captures : Captures) (next : Continuation) :
    List Spot → Option (Spot × Captures)
  | [] => none
  | s :: rest =>
    match next s captures with
    | some found => some found
    | none => firstSuccess captures next rest

def rounds (round : Spot → Captures → Continuation → Option (Spot × Captures))
    (next : Continuation) : Nat → Spot → Captures → Option (Spot × Captures)
  -- Rounds of a pattern as long as they get on and lead to success, at most `fuel` of them.
  | 0, s, captures => next s captures
  | fuel + 1, s, captures =>
    let again : Continuation := fun t more =>
      if t.index == s.index then none else rounds round next fuel t more
    match round s captures again with
    | some found => some found
    | none => next s captures

def matchAt : Pattern → Spot → Captures → Continuation → Option (Spot × Captures)
  -- Matches a pattern at a place and goes on with `next`, trying the ways to match in order of
  -- preference until the whole succeeds.
  | .empty, s, captures, next => next s captures
  | .one test, s, captures, next =>
    match s.rest with
    | [] => none
    | c :: rest => if test c then next (s.step c rest) captures else none
  | .run greedy test, s, captures, next =>
    let spots := Spot.reach test [] s.previous s.index s.rest
    firstSuccess captures next (if greedy then spots else spots.reverse)
  | .literal text, s, captures, next =>
    match s.after? text with
    | some t => next t captures
    | none => none
  | .both first second, s, captures, next =>
    first.matchAt s captures fun t more => second.matchAt t more next
  | .either first second, s, captures, next =>
    match first.matchAt s captures next with
    | some found => some found
    | none => second.matchAt s captures next
  | .many round, s, captures, next =>
    rounds (fun t more next => round.matchAt t more next) next (s.rest.length + 1) s captures
  | .capture name inner, s, captures, next =>
    inner.matchAt s captures fun t more => next t ((name, s.textTo t) :: more)
  | .textStart, s, captures, next => if s.index == 0 then next s captures else none
  | .lineStart, s, captures, next =>
    if s.previous.all (· == '\n') then next s captures else none
  | .textEnd, s, captures, next => if s.rest.isEmpty then next s captures else none
  | .wordEdge, s, captures, next => if s.atWordEdge then next s captures else none

/-- The second of two patterns is tried where the first one does not lead to success. -/
theorem matchAt_either (p q : Pattern) (s : Spot) (captures : Captures) (next : Continuation) :
    (Pattern.either p q).matchAt s captures next =
      (p.matchAt s captures next).or (q.matchAt s captures next) := by
  rw [matchAt]
  cases p.matchAt s captures next <;> rfl

structure Match where
  start : Nat
  stop : Nat
  captures : Captures

def Match.get? (m : Match) (name : String) : Option (List Char) := m.captures.lookup name

def matchHere? (p : Pattern) (s : Spot) : Option (Match × Spot) :=
  (p.matchAt s [] fun t captures => some (t, captures)).map fun (t, captures) =>
    (⟨s.index, t.index, captures⟩, t)

def searchFrom? (p : Pattern) (previous : Option Char) (index : Nat) :
    List Char → Option (Match × Spot)
  | [] => p.matchHere? ⟨previous, [], index⟩
  | c :: rest =>
    match p.matchHere? ⟨previous, c :: rest, index⟩ with
    | some found => some found
    | none => searchFrom? p (some c) (index + 1) rest

def search? (p : Pattern) (text : List Char) : Option Match :=
  (p.searchFrom? none 0 text).map Prod.fst

def occursIn (p : Pattern) (text : List Char) : Bool := (p.search? text).isSome

def matchesFrom (p : Pattern) : Nat → Spot → List Match
  | 0, _ => []
  | fuel + 1, s =>
    match p.searchFrom? s.previous s.index s.rest with
    | none => []
    | some (m, t) =>
      if m.stop == m.start then
        match t.rest with
        | [] => [m]
        | c :: rest => m :: matchesFrom p fuel (t.step c rest)
      else m :: matchesFrom p fuel t

def findAll (p : Pattern) (text : List Char) : List Match :=
  p.matchesFrom (text.length + 1) ⟨none, text, 0⟩

def seq : List Pattern → Pattern
  | [] => .empty
  | [p] => p
  | p :: rest => .both p (seq rest)

def oneOf : List Pattern → Pattern
  | [] => .one fun _ => false
  | [p] => p
  | p :: rest => .either p (oneOf rest)

def optional (p : Pattern) : Pattern := .either p .empty

def word (text : String) : Pattern := .literal text.toList

def words (texts : List String) : Pattern := oneOf (texts.map word)

def char (c : Char) : Pattern := .one (· == c)

def blanks : Pattern := .run true Text.isBlank

def someBlanks : Pattern := .both (.one Text.isBlank) blanks

def anything : Pattern := .run true (· != '\n')

def isNameStart (c : Char) : Bool := c.isAlpha || c == '_'

def name : Pattern := .both (.one isNameStart) (.run true Text.isWordChar)

end Pattern

end Snippet
