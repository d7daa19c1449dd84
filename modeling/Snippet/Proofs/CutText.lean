import Snippet.Proofs.QuotedText
import Snippet.Proofs.TextSearch
import Snippet.Scan.Scanner

/-!
How texts are cut. A rule says what is cut out of a text and which brackets keep it together. The parts with what
was cut out between them are the text again, all cuts lie outside of quotes and brackets, and what is left in a
part of the kind that is cut out lies inside of them.
-/

namespace Snippet.Scan

def Nesting.IsOutside (n : Nesting) : Prop := n.quote = none ∧ n.depth = 0

structure CutRule where
  opens : Char → Bool
  closes : Char → Bool
  IsCut : List Char → Prop
  ne_nil : ∀ {s}, IsCut s → s ≠ []
  unmarked : ∀ {s}, IsCut s → ∀ c ∈ s, isMark opens closes c = false

namespace CutRule

variable (r : CutRule)

/-- Where a reader stands behind a text that it begins to read at `n`. -/
def behind (n : Nesting) (text : List Char) : Nesting := text.foldl (Nesting.step r.opens r.closes) n

theorem behind_append (n : Nesting) (x y : List Char) : r.behind n (x ++ y) = r.behind (r.behind n x) y :=
  List.foldl_append

/-- What is cut out outside of quotes changes nothing. -/
theorem behind_cut {n : Nesting} (hn : n.quote = none) {s : List Char}
    (hs : ∀ c ∈ s, isMark r.opens r.closes c = false) : r.behind n s = n := by
  induction s with
  | nil => rfl
  | cons c s ih =>
    obtain ⟨hc, hs⟩ := List.forall_mem_cons.mp hs
    have hstep : n.step r.opens r.closes c = n := by
      simp only [isMark, Bool.or_eq_false_iff] at hc
      simp [Nesting.step, hn, hc]
    change r.behind (n.step r.opens r.closes c) s = n
    rw [hstep]
    exact ih hs

/-- Wherever in a text something to be cut out begins, what follows the text included, is inside of quotes or
brackets. -/
def Keeps (n : Nesting) (x rest : List Char) : Prop :=
  ∀ u w, x = u ++ w → w ≠ [] → ∀ s, r.IsCut s → s <+: w ++ rest → ¬ (r.behind n u).IsOutside

theorem keeps_nil (n : Nesting) (rest : List Char) : r.Keeps n [] rest := by
  intro u w hx hw
  exact absurd (List.append_eq_nil_iff.mp hx.symm).2 hw

variable {r}

/-- One character more, at which nothing is cut. -/
theorem Keeps.snoc {n : Nesting} {x rest : List Char} {c : Char} (hx : r.Keeps n x (c :: rest))
    (hc : (r.behind n x).IsOutside → ∀ s, r.IsCut s → ¬ s <+: c :: rest) : r.Keeps n (x ++ [c]) rest := by
  intro u w hsplit hw s hs hprefix hout
  obtain ⟨w, last, rfl⟩ := (List.eq_nil_or_concat w).resolve_left hw
  rw [List.concat_eq_append] at hprefix hsplit
  rw [← List.append_assoc] at hsplit
  obtain ⟨rfl, hlast⟩ := List.append_inj' hsplit rfl
  obtain ⟨rfl, -⟩ := List.cons.inj hlast
  rw [List.append_assoc, List.singleton_append] at hprefix
  -- What begins at the new character is excluded by `hc`, and what begins before it was kept without it.
  by_cases hw' : w = []
  · subst hw'
    rw [List.append_nil] at hc
    exact hc hout s hs hprefix
  · exact hx u w rfl hw' s hs hprefix hout

def joined (pieces : List (List Char × List Char)) : List Char := pieces.flatMap fun piece => piece.1 ++ piece.2

variable (r) in
inductive Cuts : Nesting → List Char → List (List Char × List Char) → List Char → Prop
  | last {n : Nesting} {part : List Char} (hkeeps : r.Keeps n part []) : Cuts n part [] part
  | piece {n : Nesting} {part s rest last : List Char} {pieces : List (List Char × List Char)}
    (hkeeps : r.Keeps n part (s ++ rest)) (hs : r.IsCut s) (hout : (r.behind n part).IsOutside)
    (hrest : Cuts (r.behind n (part ++ s)) rest pieces last) :
    Cuts n (part ++ s ++ rest) ((part, s) :: pieces) last

theorem Keeps.inside {n : Nesting} {part rest u s v : List Char} (h : r.Keeps n part rest)
    (hpart : part = u ++ (s ++ v)) (hs : r.IsCut s) : ¬ (r.behind n u).IsOutside := by
  refine h u (s ++ v) hpart (fun hnil => r.ne_nil hs (List.append_eq_nil_iff.mp hnil).1) s hs ?_
  rw [List.append_assoc]
  exact List.prefix_append _ _

variable (r) in
def Yields (n : Nesting) (text : List Char) (parts result : List (List Char)) : Prop :=
  -- What a reader gives: the parts that it has read before, which come last first, and those of the
  -- text that is before it.
  ∃ pieces last, r.Cuts n text pieces last ∧ result = parts.reverse ++ (pieces.map Prod.fst ++ [last])

section Yields

variable {n : Nesting} {part rest s : List Char} {parts result : List (List Char)}

/-- At the end of the text the part that is being read is the last one. -/
theorem Yields.done (hkeeps : r.Keeps n part.reverse []) :
    r.Yields n (part.reverse ++ []) parts (part.reverse :: parts).reverse := by
  refine ⟨[], part.reverse, ?_, List.reverse_cons⟩
  rw [List.append_nil]
  exact .last hkeeps

/-- Behind a cut the reader begins with an empty part, and stands as it stood in front of it. -/
theorem Yields.cut (hkeeps : r.Keeps n part.reverse (s ++ rest)) (hs : r.IsCut s)
    (hout : (r.behind n part.reverse).IsOutside)
    (hrest : r.Keeps (r.behind n part.reverse) [] rest →
      r.Yields (r.behind n part.reverse) rest (part.reverse :: parts) result) :
    r.Yields n (part.reverse ++ (s ++ rest)) parts result := by
  obtain ⟨pieces, last, hcuts, rfl⟩ := hrest (r.keeps_nil _ _)
  have hbehind : r.behind n (part.reverse ++ s) = r.behind n part.reverse := by
    rw [behind_append]
    exact r.behind_cut hout.1 (r.unmarked hs)
  refine ⟨(part.reverse, s) :: pieces, last, ?_, ?_⟩
  · rw [← List.append_assoc]
    exact .piece hkeeps hs hout (hbehind ▸ hcuts)
  · rw [List.reverse_cons, List.append_assoc]
    rfl

end Yields

end CutRule

structure Separator where
  first : Char
  more : List Char
  unmarked : ∀ c ∈ first :: more, isMark opensAny closesAny c = false

namespace Separator

def text (s : Separator) : List Char := s.first :: s.more

def rule (s : Separator) : CutRule where
  opens := opensAny
  closes := closesAny
  IsCut := (· = s.text)
  ne_nil := by
    rintro _ rfl
    exact List.cons_ne_nil _ _
  unmarked := by
    rintro _ rfl
    exact s.unmarked

variable (s : Separator)

def comma : Separator := ⟨',', [], List.forall_mem_singleton.mpr rfl⟩

def plus : Separator := ⟨'+', [], List.forall_mem_singleton.mpr rfl⟩

end Separator

/-- A semicolon or a brace is cut out, and only parentheses and square brackets keep a line together. -/
def CutRule.statement : CutRule where
  opens := opensStatement
  closes := closesStatement
  IsCut s := ∃ c ∈ [';', '{', '}'], s = [c]
  ne_nil := by
    rintro _ ⟨c, -, rfl⟩
    exact List.cons_ne_nil _ _
  unmarked := by
    rintro _ ⟨c, hc, rfl⟩
    simp only [List.mem_cons, List.not_mem_nil, or_false] at hc
    rcases hc with rfl | rfl | rfl
    all_goals exact List.forall_mem_singleton.mpr rfl

open CutRule (statement)

end Snippet.Scan
