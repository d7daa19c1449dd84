import Snippet.Text.CaseTable
import Snippet.Text.Cased

/-!
Texts in capitals and in small letters, after the full case mappings of Unicode: one character may
become several, and a capital sigma at the end of a word has a small form of its own.
-/

namespace Snippet.Text

def caseImage? (runs : Array CaseRun) (n lo hi : Nat) : Option Nat :=
  -- The image of `n` under the runs at the positions from `lo` up to `hi`, which ascend.
  if _h : lo < hi then
    let mid := (lo + hi) / 2
    match runs[mid]? with
    | none => none
    | some run =>
      if n < run.first then caseImage? runs n lo mid
      else if run.last < n then caseImage? runs n (mid + 1) hi
      else if (n - run.first) % run.step == 0 then some (run.image + (n - run.first))
      else none
  else none
termination_by hi - lo
decreasing_by all_goals omega

def caseMap (runs : Array CaseRun) (sequences : List (Nat × List Nat)) (c : Char) : List Char :=
  match caseImage? runs c.toNat 0 runs.size with
  | some n => [Char.ofNat n]
  | none =>
    match sequences.lookup c.toNat with
    | some ns => ns.map Char.ofNat
    | none => [c]

def upperChar (c : Char) : List Char :=
  if c.toNat < 128 then [c.toUpper] else caseMap upperRuns upperSequences c

def lowerChar (c : Char) : List Char :=
  if c.toNat < 128 then [c.toLower] else caseMap lowerRuns lowerSequences c

def upper (s : List Char) : List Char := s.flatMap upperChar

def meetsCased (s : List Char) : Bool :=
  match s.dropWhile isCaseIgnorable with
  | [] => false
  | c :: _ => isCased c

def capitalSigma : Char := Char.ofNat 0x3A3

def lowerAfter (before done : List Char) : List Char → List Char
  -- A text in small letters: `before` holds the characters already passed and `done` their images,
  -- both the last one first.
  | [] => done.reverse
  | c :: rest =>
    let image :=
      if c == capitalSigma then
        [Char.ofNat (if meetsCased before && !meetsCased rest then 0x3C2 else 0x3C3)]
      else lowerChar c
    lowerAfter (c :: before) (image.reverse ++ done) rest

def lower (s : List Char) : List Char := lowerAfter [] [] s

end Snippet.Text
