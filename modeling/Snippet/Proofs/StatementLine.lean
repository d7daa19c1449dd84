import Mathlib.Data.List.DropRight
import Snippet.Proofs.InputLines
import Snippet.Proofs.QuotedText

/-!
The lines of a source and their statements. Statements in which no reader stops are scanned one after the
other, whatever spaces stand in front of them and however they are spread over lines.
-/

namespace Snippet

namespace Text

structure Tight (x : List Char) : Prop where
  head : ∀ c ∈ x.head?, isBlank c = false
  last : ∀ c ∈ x.getLast?, isBlank c = false

theorem trimStart_append {x y : List Char} (hx : ∀ c ∈ x, isBlank c = true)
    (hy : ∀ c ∈ y.head?, isBlank c = false) : trimStart (x ++ y) = y := by
  unfold trimStart
  rw [List.dropWhile_append_of_pos hx]
  cases y with
  | nil => rfl
  | cons c y => rw [List.dropWhile_cons_of_neg (by rw [hy c rfl]; exact Bool.false_ne_true)]

/-- Blanks around a text with none at its ends are removed. -/
theorem Tight.trim_between {x y z : List Char} (hy : Tight y) (hx : ∀ c ∈ x, isBlank c = true) (hne : y ≠ [])
    (hz : ∀ c ∈ z, isBlank c = true) : trim (x ++ (y ++ z)) = y := by
  have hhead : ∀ c ∈ (y ++ z).head?, isBlank c = false := by
    rw [List.head?_append_of_ne_nil _ hne]
    exact hy.head
  have hlast : trimStart (z.reverse ++ y.reverse) = y.reverse := by
    apply trimStart_append
    · intro c hc
      exact hz c (List.mem_reverse.mp hc)
    · rw [List.head?_reverse]
      exact hy.last
  unfold trim
  rw [trimStart_append hx hhead]
  unfold trimEnd dropEndWhile
  rw [List.reverse_append]
  unfold trimStart at hlast
  rw [hlast, List.reverse_reverse]

/-- Blanks in front of a text without blanks at its ends are all that trimming takes away. -/
theorem Tight.trim_append {x y : List Char} (hx : ∀ c ∈ x, isBlank c = true) (hy : Tight y) :
    trim (x ++ y) = y := by
  by_cases hne : y = []
  · subst hne
    have hblank : trimStart (x ++ []) = [] := trimStart_append hx (by rintro c ⟨⟩)
    unfold trim
    rw [hblank]
    rfl
  · have htrim := hy.trim_between hx hne (List.forall_mem_nil _)
    rwa [List.append_nil] at htrim

theorem Tight.trim_eq {x : List Char} (hx : Tight x) : trim x = x :=
  Tight.trim_append (List.forall_mem_nil _) hx

/-- What is left of a text when characters are removed from its end begins as the text does. -/
theorem dropEndWhile_cons (p : Char → Bool) (c : Char) (x : List Char) :
    dropEndWhile p (c :: x) = [] ∨ ∃ y, dropEndWhile p (c :: x) = c :: y := by
  have hprefix : dropEndWhile p (c :: x) <+: c :: x := List.rdropWhile_prefix p _
  rcases List.prefix_cons_iff.mp hprefix with hnil | ⟨y, hy, -⟩
  · exact Or.inl hnil
  · exact Or.inr ⟨y, hy⟩

theorem exists_trim_cons {c : Char} (hc : isBlank c = false) (x : List Char) :
    ∃ y, trim (c :: x) = c :: y := by
  have hstart : trimStart (c :: x) = c :: x := by
    unfold trimStart
    rw [List.dropWhile_cons_of_neg (by rw [hc]; exact Bool.false_ne_true)]
  unfold trim
  rw [hstart]
  rcases dropEndWhile_cons isBlank c x with hnil | hcons
  · have hall : ∀ d ∈ c :: x, isBlank d = true := List.rdropWhile_eq_nil_iff.mp hnil
    rw [hall c List.mem_cons_self] at hc
    cases hc
  · exact hcons

end Text

namespace Scan

variable {l : Scanned}

/-- The statements of a line in a language whose statements end in semicolons. -/
theorem statementsOf_semicolons (hl : l ≠ .python) {texts : List (List Char)}
    (h : ∀ x ∈ texts, ∀ r ∈ Reader.ofLine, r.Skips x) :
    statementsOf (grammarOf l) (texts.flatMap (· ++ [';'])) = texts.map Text.trim ++ [[]] := by
  have htexts : ∀ x ∈ texts, (Reader.marker '/').Skips x ∧ Reader.statements.Skips x :=
    fun x hx => ⟨h x hx _ (by simp [Reader.ofLine]), h x hx _ (by simp [Reader.ofLine])⟩
  have hmarker : (Reader.marker '/').Skips (texts.flatMap (· ++ [';'])) :=
    .flatMap fun x hx => (htexts x hx).1.append (.of_ignores rfl)
  have hcut : (splitStatements (beforeMarker ['/', '/'] (texts.flatMap (· ++ [';'])))).map Text.trim =
      texts.map Text.trim ++ [[]] := by
    rw [beforeMarker_of_skips hmarker, splitStatements_of_skips fun x hx => (htexts x hx).2, List.map_append]
    rfl
  cases l with
  | python => exact absurd rfl hl
  | java => exact hcut
  | cpp => exact hcut

/-- A line in which no reader stops is one statement if statements end in semicolons, even if a quote is left open. -/
theorem statementsOf_of_passes (hl : l ≠ .python) {x : List Char} (h : ∀ r ∈ Reader.ofLine, ∃ n, r.Passes {} x n) :
    statementsOf (grammarOf l) x = [Text.trim x] := by
  obtain ⟨n, hmarker⟩ := h (.marker '/') (by simp [Reader.ofLine])
  obtain ⟨n', hstatements⟩ := h .statements (by simp [Reader.ofLine])
  have hline : (splitStatements (beforeMarker ['/', '/'] x)).map Text.trim = [Text.trim x] := by
    have hbefore : beforeMarker ['/', '/'] x = x := beforeMarkerAfter_of_passes hmarker []
    rw [hbefore, splitStatements_of_passes hstatements, List.map_singleton]
  cases l with
  | python => exact absurd rfl hl
  | java => exact hline
  | cpp => exact hline

/-- The statement of a line in a language with a statement on every line. -/
theorem statementsOf_line {x : List Char} (h : ∀ r ∈ Reader.ofLine, r.Skips x)
    (hlast : (Text.trim x).getLast? ≠ some ';') : statementsOf (grammarOf .python) x = [Text.trim x] := by
  have hskips : (Reader.marker '#').Skips x := h _ (by simp [Reader.ofLine])
  have hmarker : beforeMarker (grammarOf .python).comment.toList x = x := beforeMarker_of_skips hskips
  have hnone : ¬ (grammarOf .python).semicolons = true := Bool.false_ne_true
  unfold statementsOf
  dsimp only
  rw [if_neg hnone, hmarker]
  split
  · rename_i rest hrest
    rw [← List.head?_reverse, hrest] at hlast
    exact absurd rfl hlast
  · rfl

structure IsStatement (x : List Char) : Prop where
  ne_nil : x ≠ []
  tight : Text.Tight x
  oneLine : '\n' ∉ x
  inLine : ∀ r ∈ Reader.ofLine, r.Skips x
  last : x.getLast? ≠ some ';'

/-- Two statements with something between them that means nothing to the readers of a line are one. -/
theorem IsStatement.between {x y z : List Char} (hx : IsStatement x) (hy : IsStatement y) (hz : '\n' ∉ z)
    (hreaders : ∀ r ∈ Reader.ofLine, z.all r.ignores = true) : IsStatement (x ++ (z ++ y)) := by
  have hlast : (x ++ (z ++ y)).getLast? = y.getLast? := by
    rw [← List.append_assoc]
    exact List.getLast?_append_of_ne_nil _ hy.ne_nil
  constructor
  · exact List.append_ne_nil_of_left_ne_nil hx.ne_nil _
  · refine ⟨?_, ?_⟩
    · rw [List.head?_append_of_ne_nil _ hx.ne_nil]
      exact hx.tight.head
    · rw [hlast]
      exact hy.tight.last
  · simp [hx.oneLine, hz, hy.oneLine]
  · intro r hr
    exact (hx.inLine r hr).append ((Reader.Skips.of_ignores (hreaders r hr)).append (hy.inLine r hr))
  · rw [hlast]
    exact hy.last

def terminator : Scanned → List Char
  | .python => []
  | .java => [';']
  | .cpp => [';']

def lineOf (l : Scanned) (statements : List (Nat × List Char)) : List Char :=
  statements.flatMap fun s => List.replicate s.1 ' ' ++ s.2 ++ terminator l

def Fits (l : Scanned) (statements : List (Nat × List Char)) : Prop :=
  l = .python → statements.length ≤ 1

section Lines

variable {statements : List (Nat × List Char)}

theorem isBlank_of_mem_replicate {n : Nat} {c : Char} (hc : c ∈ List.replicate n ' ') :
    Text.isBlank c = true := by
  rw [List.eq_of_mem_replicate hc]
  decide

theorem skips_spaces (n : Nat) : ∀ r ∈ Reader.ofLine, r.Skips (List.replicate n ' ') := by
  intro r hr
  apply Reader.Skips.of_ignores
  have hspace : ∀ r ∈ Reader.ofLine, r.ignores ' ' = true := by decide
  rw [List.all_replicate, hspace r hr, ite_self]

/-- A line holds no newline and does not end in a carriage return. -/
theorem lineOf_oneLine (h : ∀ s ∈ statements, IsStatement s.2) :
    '\n' ∉ lineOf l statements ∧ (lineOf l statements).getLast? ≠ some '\r' := by
  constructor
  · intro hmem
    obtain ⟨s, hs, hc⟩ := List.mem_flatMap.mp hmem
    rcases List.mem_append.mp hc with hc | hc
    · rcases List.mem_append.mp hc with hc | hc
      · cases List.eq_of_mem_replicate hc
      · exact (h s hs).oneLine hc
    · cases l with
      | python => cases hc
      | _ => cases List.mem_singleton.mp hc
  · rcases List.eq_nil_or_concat statements with rfl | ⟨front, s, rfl⟩
    · rintro ⟨⟩
    · rw [List.concat_eq_append] at h ⊢
      have hs : IsStatement s.2 := h s (List.mem_append_right front List.mem_cons_self)
      rw [lineOf, List.flatMap_append, List.flatMap_singleton]
      cases l with
      | python =>
        rw [terminator, List.append_nil, ← List.append_assoc, List.getLast?_append_of_ne_nil _ hs.ne_nil]
        intro hreturn
        exact absurd (hs.tight.last _ hreturn) (by decide)
      | _ =>
        rw [terminator, ← List.append_assoc, List.getLast?_concat]
        rintro ⟨⟩

theorem statement_nil (g : Grammar) (st : State) : State.statement g st [] = st := by
  unfold State.statement
  rw [List.isEmpty_nil, Bool.true_or, if_pos rfl]

/-- The statements of a line are scanned one after the other. -/
theorem line_lineOf (h : ∀ s ∈ statements, IsStatement s.2) (hfits : Fits l statements) (st : State) :
    State.line (grammarOf l) st (lineOf l statements) =
      (statements.map Prod.snd).foldl (State.statement (grammarOf l)) st := by
  have hskips (s : Nat × List Char) (hs : s ∈ statements) :
      ∀ r ∈ Reader.ofLine, r.Skips (List.replicate s.1 ' ' ++ s.2) :=
    fun r hr => (skips_spaces s.1 r hr).append ((h s hs).inLine r hr)
  have htrim (s : Nat × List Char) (hs : s ∈ statements) : Text.trim (List.replicate s.1 ' ' ++ s.2) = s.2 :=
    (h s hs).tight.trim_append fun c hc => isBlank_of_mem_replicate hc
  -- A line of Python holds one statement at most; the other languages end each one with a semicolon.
  by_cases hl : l = .python
  · subst hl
    rcases statements with _ | ⟨s, _ | ⟨s', statements⟩⟩
    · rfl
    · have hs : s ∈ [s] := List.mem_cons_self
      have hline : lineOf .python [s] = List.replicate s.1 ' ' ++ s.2 := by simp [lineOf, terminator]
      have hlast : (Text.trim (List.replicate s.1 ' ' ++ s.2)).getLast? ≠ some ';' := by
        rw [htrim s hs]
        exact (h s hs).last
      rw [hline, State.line, statementsOf_line (hskips s hs) hlast, htrim s hs]
      rfl
    · have htoo := hfits rfl
      rw [List.length_cons, List.length_cons] at htoo
      omega
  · have hline : lineOf l statements =
        (statements.map fun s => List.replicate s.1 ' ' ++ s.2).flatMap (· ++ [';']) := by
      rw [List.flatMap_map]
      cases l with
      | python => exact absurd rfl hl
      | _ => rfl
    have htexts : ∀ x ∈ statements.map (fun s => List.replicate s.1 ' ' ++ s.2),
        ∀ r ∈ Reader.ofLine, r.Skips x := by
      intro x hx
      obtain ⟨s, hs, rfl⟩ := List.mem_map.mp hx
      exact hskips s hs
    have hcores : (statements.map fun s => List.replicate s.1 ' ' ++ s.2).map Text.trim =
        statements.map Prod.snd := by
      rw [List.map_map]
      exact List.map_congr_left htrim
    rw [hline, State.line, statementsOf_semicolons hl htexts, hcores, List.foldl_append, List.foldl_cons,
      List.foldl_nil, statement_nil]

end Lines

theorem dropCarriageReturn_of_getLast? {x : List Char} (hx : x.getLast? ≠ some '\r') :
    Text.dropCarriageReturn x = x := by
  unfold Text.dropCarriageReturn
  split
  · rename_i rest hrest
    rw [← List.head?_reverse, hrest] at hx
    exact absurd rfl hx
  · rfl

/-- The parts between newlines are lines as they stand, but for an empty one at the end. -/
theorem linesOfParts_eq {parts : List (List Char)} (h : ∀ x ∈ parts, x.getLast? ≠ some '\r') :
    Text.linesOfParts parts = parts ∨ Text.linesOfParts parts ++ [[]] = parts := by
  induction parts with
  | nil => exact Or.inl rfl
  | cons x parts ih =>
    obtain ⟨hx, hparts⟩ := List.forall_mem_cons.mp h
    cases parts with
    | nil =>
      unfold Text.linesOfParts
      cases x with
      | nil => exact Or.inr rfl
      | cons c x => exact Or.inl rfl
    | cons y parts =>
      rw [Text.linesOfParts, dropCarriageReturn_of_getLast? hx]
      · rcases ih hparts with heq | heq
        · exact Or.inl (congrArg (x :: ·) heq)
        · exact Or.inr (congrArg (x :: ·) heq)
      · exact List.cons_ne_nil y parts

theorem line_nil (l : Scanned) (st : State) : State.line (grammarOf l) st [] = st := by
  cases l <;> rfl

/-- A source is scanned line by line; behind its last newline there is a line only if it is not empty, which
makes no difference. -/
theorem lines_intercalate {lines : List (List Char)}
    (h : ∀ x ∈ lines, '\n' ∉ x ∧ x.getLast? ≠ some '\r') (l : Scanned) (st : State) :
    st.lines (grammarOf l) (Text.lines (List.intercalate ['\n'] lines)) = st.lines (grammarOf l) lines ∧
      (Text.lines (List.intercalate ['\n'] lines)).length ≤ lines.length := by
  by_cases hlines : lines = []
  · rw [hlines]
    exact ⟨rfl, Nat.le_refl 0⟩
  have hparts : Text.lines (List.intercalate ['\n'] lines) = Text.linesOfParts lines := by
    unfold Text.lines
    rw [Text.splitNewlines_eq, List.splitOn_intercalate '\n' (fun x hx => (h x hx).1) hlines]
  rw [hparts]
  rcases linesOfParts_eq fun x hx => (h x hx).2 with heq | heq
  · rw [heq]
    exact ⟨rfl, Nat.le_refl _⟩
  · generalize Text.linesOfParts lines = read at heq
    rw [← heq]
    refine ⟨?_, by simp⟩
    unfold State.lines
    rw [List.foldl_append, List.foldl_cons, List.foldl_nil, line_nil]

/-- What the scan of a source puts out if there is time for every line. -/
theorem scan_output {lines : List (List Char)} (h : ∀ x ∈ lines, '\n' ∉ x ∧ x.getLast? ≠ some '\r')
    (l : Scanned) (stdin : String) {budget : Budget} (htime : lines.length ≤ budget.checkpoints) :
    (scan l (String.ofList (List.intercalate ['\n'] lines)) stdin budget).output =
      some (if ((State.start stdin).lines (grammarOf l) lines).records.isEmpty then
          noOutput (grammarOf l) (List.intercalate ['\n'] lines)
        else String.ofList ((State.start stdin).lines (grammarOf l) lines).transcript) := by
  obtain ⟨hsame, hlength⟩ := lines_intercalate h l (State.start stdin)
  have hall : ¬ budget.checkpoints < (Text.lines (List.intercalate ['\n'] lines)).length := by omega
  unfold scan scanWithin
  dsimp only
  rw [String.toList_ofList, List.take_of_length_le (Nat.le_of_not_lt hall), hsame]
  simp [hall]

/-- What the scan of one line puts out if the line shows one text. -/
theorem scan_output_of_emit {statements : List (Nat × List Char)} {t : List Char} {stdin : String} {budget : Budget}
    (h : ∀ s ∈ statements, IsStatement s.2) (htime : 0 < budget.checkpoints)
    (hline : State.line (grammarOf l) (State.start stdin) (lineOf l statements) = (State.start stdin).emit t) :
    (scan l (String.ofList (lineOf l statements)) stdin budget).output = some (String.ofList (Text.asRecord t)) := by
  have hlines : ∀ x ∈ [lineOf l statements], '\n' ∉ x ∧ x.getLast? ≠ some '\r' :=
    List.forall_mem_singleton.mpr (lineOf_oneLine h)
  have hend : (State.start stdin).lines (grammarOf l) [lineOf l statements] = (State.start stdin).emit t := hline
  have hscan := scan_output hlines l stdin htime
  rw [List.intercalate_singleton, hend] at hscan
  rw [hscan]
  change some (String.ofList (Text.asRecord t ++ [])) = _
  rw [List.append_nil]

end Scan

end Snippet
