import Snippet.Proofs.PrintedInteger

/-!
Sums as arguments of a print. In Java terms with plus signs between them are evaluated from left to right: the
integers in front of the first string are added, and from the first string on everything is put behind what there is.
Integers are added exactly as long as they and their sums have 64 bits.
-/

namespace Snippet.Scan

open Pattern (isNameStart)

structure StringLiteral where
  -- A string literal of a program: what stands between its double quotes, and the text that this
  -- spells.
  body : List Char
  text : List Char
  spells : Spells '"' body text

inductive Summand where
  | integer (n : Int)
  | string (s : StringLiteral)

namespace Summand

def written : Summand → List Char
  | .integer n => Number.integerText n
  | .string s => '"' :: (s.body ++ ['"'])

def shown : Summand → List Char
  | .integer n => Number.integerText n
  | .string s => s.text

def value : Summand → Literal
  | .integer n => .number (Number.integerText n)
  | .string s => .text s.text

def sumText (terms : List Summand) : List Char := List.intercalate " + ".toList (terms.map written)

def integersBefore : List Summand → List Int
  | .integer n :: rest => n :: integersBefore rest
  | _ => []

def fromString : List Summand → List Summand
  | .integer _ :: rest => fromString rest
  | terms => terms

/-- What a sum shows: the sum of the integers in front of the first string, if there are any, and then what all
other terms show, one behind the other. -/
def sumShown (terms : List Summand) : List Char :=
  (if (integersBefore terms).isEmpty then [] else Number.integerText (integersBefore terms).sum) ++
    (fromString terms).flatMap shown

variable (t : Summand)

theorem isTerm_written : IsTerm t.written := by
  cases t with
  | integer n => exact isTerm_integerText n
  | string s => exact isTerm_quoted s.spells

theorem resolveWithin?_written (style : Style) (store : Store) (fuel : Nat) :
    resolveWithin? style store (fuel + 1) t.written = some t.value := by
  cases t with
  | integer n => exact resolveWithin?_integerText n style store fuel
  | string s => exact resolveWithin?_quoted s.spells style store fuel

theorem render_value (style : Style) : t.value.render style = t.shown := by
  cases t <;> rfl

/-- No term begins as a name does. -/
theorem exists_written_cons :
    ∃ c rest, t.written = c :: rest ∧ isNameStart c = false ∧ Text.isBlank c = false := by
  cases t with
  | string s => exact ⟨'"', _, rfl, rfl, rfl⟩
  | integer n =>
    obtain ⟨c, rest, hdigits, hc⟩ := Json.digits_eq_cons n.natAbs
    by_cases hneg : n < 0
    · exact ⟨'-', _, if_pos hneg, rfl, rfl⟩
    · exact ⟨c, rest, (if_neg hneg).trans hdigits, isNameStart_of_isDigit hc, Number.isBlank_of_isDigit hc⟩

def Spaced (piece : List Char) (t : Summand) : Prop :=
  ∃ m n, piece = List.replicate m ' ' ++ (t.written ++ List.replicate n ' ')

theorem Spaced.skips {piece : List Char} (h : Spaced piece t) : (Reader.separator '+').Skips piece := by
  obtain ⟨m, n, rfl⟩ := h
  have hspaces (n : Nat) : (Reader.separator '+').Skips (List.replicate n ' ') := by
    have hspace : (Reader.separator '+').ignores ' ' = true := rfl
    apply Reader.Skips.of_ignores
    rw [List.all_replicate, hspace, ite_self]
  exact (hspaces m).append ((t.isTerm_written.inArguments _ (by simp [Reader.ofArguments])).append (hspaces n))

theorem skips_of_spaced {pieces : List (List Char)} {terms : List Summand} (h : List.Forall₂ Spaced pieces terms) :
    ∀ piece ∈ pieces, (Reader.separator '+').Skips piece := by
  induction h with
  | nil => exact List.forall_mem_nil _
  | cons hpiece _ ih => exact List.forall_mem_cons.mpr ⟨hpiece.skips, ih⟩

theorem Spaced.resolve?_eq {piece : List Char} (h : Spaced piece t) (style : Style) (store : Store) :
    resolve? style store piece = some t.value := by
  obtain ⟨m, n, rfl⟩ := h
  have hterm := t.isTerm_written
  have htrim : Text.trim (List.replicate m ' ' ++ (t.written ++ List.replicate n ' ')) = t.written :=
    hterm.tight.trim_between (fun c hc => isBlank_of_mem_replicate hc) hterm.ne_nil
      (fun c hc => isBlank_of_mem_replicate hc)
  exact (resolveWithin?_of_trim hterm.tight htrim style store _).trans (t.resolveWithin?_written style store _)

section Text

variable {terms : List Summand}

theorem sumText_cons_cons (t t' : Summand) (terms : List Summand) :
    sumText (t :: t' :: terms) = t.written ++ (" + ".toList ++ sumText (t' :: terms)) := by
  unfold sumText
  rw [List.map_cons, List.map_cons, List.intercalate_cons_cons, List.append_assoc]

theorem sumText_singleton (t : Summand) : sumText [t] = t.written := List.intercalate_singleton

/-- What is cut at the plus signs are the terms with spaces around them. -/
theorem exists_pieces (hne : terms ≠ []) (m : Nat) :
    ∃ pieces, List.replicate m ' ' ++ sumText terms = List.intercalate ['+'] pieces ∧
      List.Forall₂ Spaced pieces terms := by
  induction terms generalizing m with
  | nil => exact absurd rfl hne
  | cons t terms ih =>
    cases terms with
    | nil =>
      refine ⟨[List.replicate m ' ' ++ t.written], ?_, .cons ⟨m, 0, ?_⟩ .nil⟩
      · rw [sumText_singleton, List.intercalate_singleton]
      · rw [List.replicate_zero, List.append_nil]
    | cons t' terms =>
      -- The blank behind a plus sign belongs to the piece that comes next.
      obtain ⟨pieces, hrest, hspaced⟩ := ih (List.cons_ne_nil _ _) 1
      cases hspaced with
      | @cons piece _ pieces _ hpiece hpieces =>
        refine ⟨(List.replicate m ' ' ++ (t.written ++ List.replicate 1 ' ')) :: piece :: pieces, ?_,
          .cons ⟨m, 1, rfl⟩ (.cons hpiece hpieces)⟩
        rw [sumText_cons_cons, List.intercalate_cons_cons, ← hrest]
        simp

theorem isStatement_sumText (hne : terms ≠ []) : IsStatement (sumText terms) := by
  induction terms with
  | nil => exact absurd rfl hne
  | cons t terms ih =>
    cases terms with
    | nil =>
      rw [sumText_singleton]
      exact t.isTerm_written.toIsStatement
    | cons t' terms =>
      rw [sumText_cons_cons]
      exact t.isTerm_written.toIsStatement.between (ih (List.cons_ne_nil _ _)) (by decide) (by decide)

theorem keyword?_sumText (hne : terms ≠ []) : keyword? (sumText terms) = none := by
  obtain ⟨t, terms, rfl⟩ := List.exists_cons_of_ne_nil hne
  obtain ⟨c, rest, hwritten, hname, hblank⟩ := t.exists_written_cons
  obtain ⟨behind, htext⟩ : ∃ behind, sumText (t :: terms) = c :: behind := by
    cases terms with
    | nil => exact ⟨rest, (sumText_singleton t).trans hwritten⟩
    | cons t' terms => exact ⟨_, (sumText_cons_cons t t' terms).trans (congrArg (· ++ _) hwritten)⟩
  rw [htext]
  exact keyword?_of_first hname hblank behind

end Text

section Value

variable {style : Style} {store : Store} {pieces : List (List Char)} {terms : List Summand}

theorem integerSum?_integerText {m n : Int} (hm : Number.fitsInt64 m = true) (hn : Number.fitsInt64 n = true)
    (hsum : Number.fitsInt64 (m + n) = true) :
    integerSum? (Number.integerText m) (Number.integerText n) = some (Number.integerText (m + n)) := by
  unfold integerSum?
  rw [readInt64?_integerText hm, readInt64?_integerText hn]
  exact if_pos hsum

/-- Behind a text everything is put as text. -/
theorem sumAfter?_text (h : List.Forall₂ Spaced pieces terms) (text : List Char) :
    sumAfter? style store (.text text) pieces = some (.text (text ++ terms.flatMap shown)) := by
  induction h generalizing text with
  | nil => rw [sumAfter?, List.flatMap_nil, List.append_nil]
  | @cons piece t pieces terms hpiece _ ih =>
    have hplus : plus style (.text text) t.value = .text (text ++ t.shown) := by
      rw [← t.render_value style]
      rfl
    rw [sumAfter?, hpiece.resolve?_eq]
    dsimp only
    rw [hplus, ih, List.flatMap_cons, List.append_assoc]

/-- Behind an integer the integers up to the first string are added to it. -/
theorem sumAfter?_integer (h : List.Forall₂ Spaced pieces terms) {m : Int} (hm : Number.fitsInt64 m = true)
    (hterms : ∀ n ∈ integersBefore terms, Number.fitsInt64 n = true)
    (hsums : ∀ k ≤ (integersBefore terms).length,
      Number.fitsInt64 (m + ((integersBefore terms).take k).sum) = true) :
    (sumAfter? style store (.number (Number.integerText m)) pieces).map (Literal.render style) =
      some (Number.integerText (m + (integersBefore terms).sum) ++ (fromString terms).flatMap shown) := by
  induction h generalizing m with
  | nil => simp [sumAfter?, integersBefore, fromString, Literal.render]
  | @cons piece t pieces terms hpiece hpieces ih =>
    rw [sumAfter?, hpiece.resolve?_eq]
    dsimp only
    cases t with
    | string s =>
      have hplus : plus style (.number (Number.integerText m)) (value (.string s)) =
          .text (Number.integerText m ++ s.text) := rfl
      rw [hplus, sumAfter?_text hpieces, integersBefore, fromString, List.sum_nil, Int.add_zero, List.flatMap_cons]
      · simp [Literal.render, shown]
      all_goals exact fun n rest h => by cases h
    | integer n =>
      have hn : Number.fitsInt64 n = true := hterms n List.mem_cons_self
      have hsum : Number.fitsInt64 (m + n) = true := by
        have hone := hsums 1 (by simp [integersBefore])
        simpa [integersBefore] using hone
      have hplus : plus style (.number (Number.integerText m)) (value (.integer n)) =
          .number (Number.integerText (m + n)) := by
        unfold plus value
        dsimp only
        rw [integerSum?_integerText hm hn hsum, Option.some_or]
      -- What the induction asks of sums that begin with `m + n` is what is known of one integer more behind `m`.
      rw [hplus, ih hsum]
      · simp [integersBefore, fromString, Int.add_assoc]
      · intro n' hn'
        exact hterms n' (List.mem_cons_of_mem n hn')
      · intro k hk
        have hnext := hsums (k + 1) (by simpa [integersBefore] using hk)
        simpa [integersBefore, Int.add_assoc] using hnext

/-- A sum is rendered as it is shown, as long as the integers in front of the first string and their partial sums
fit into 64 bits. -/
theorem sum?_sumText (hne : terms ≠ []) (hterms : ∀ n ∈ integersBefore terms, Number.fitsInt64 n = true)
    (hsums : ∀ k ≤ (integersBefore terms).length, Number.fitsInt64 ((integersBefore terms).take k).sum = true) :
    (sum? style store (sumText terms)).map (Literal.render style) = some (sumShown terms) := by
  -- The signs between the terms are the only ones, so the text is cut into its terms.
  obtain ⟨pieces, htext, hspaced⟩ := exists_pieces hne 0
  rw [List.replicate_zero, List.nil_append] at htext
  have hcut : splitTopLevel ['+'] (sumText terms) = pieces := by
    rw [htext]
    refine splitTopLevel_intercalate rfl ?_ (skips_of_spaced hspaced)
    rintro rfl
    cases hspaced
    exact hne rfl
  unfold sum?
  rw [hcut]
  cases hspaced with
  | nil => exact absurd rfl hne
  | @cons piece t pieces terms hpiece hpieces =>
    dsimp only
    rw [hpiece.resolve?_eq]
    dsimp only
    -- The first term decides whether texts or numbers are added.
    cases t with
    | string s =>
      rw [value, sumAfter?_text hpieces]
      rfl
    | integer n =>
      rw [value, sumAfter?_integer hpieces (hterms n List.mem_cons_self)]
      · rfl
      · intro n' hn'
        exact hterms n' (List.mem_cons_of_mem n hn')
      · intro k hk
        have hnext := hsums (k + 1) (by simpa [integersBefore] using hk)
        simpa [integersBefore] using hnext

end Value

end Summand

open Summand

/-- In Java all arguments of a print are one sum, unless they are a keyword with a value. -/
theorem renderArguments?_java {a : List Char} (ha : IsArguments a) (hkey : keyword? a = none) (store : Store) :
    renderArguments? Java.style store a = (sum? Java.style store a).map (Literal.render Java.style) := by
  refine renderArguments?_of_add? ha (fun separator joiner hstyle => by cases hstyle) fun r => ?_
  rw [Rendering.add?_of_sum ha.tight.trim_eq hkey (by simp [Java.style]), Option.map_map]
  rfl

/-- A print of a sum prints the sum of the integers in front of the first string, nothing if it begins with a string,
and behind that the first string and all terms behind it as they are, whatever the strings hold. The integers in front
of the first string and their sums have to be integers of 64 bits. -/
theorem sums_are_taken_from_the_left {terms : List Summand} (hne : terms ≠ [])
    (hterms : ∀ n ∈ integersBefore terms, Number.fitsInt64 n = true)
    (hsums : ∀ k ≤ (integersBefore terms).length, Number.fitsInt64 ((integersBefore terms).take k).sum = true) :
    (∀ (indent : Nat) (st : State),
      State.line (grammarOf .java) st (lineOf .java [(indent, printText .java (sumText terms))]) =
        st.emit (sumShown terms)) ∧
    ∀ (indent : Nat) (stdin : String) (budget : Budget), 0 < budget.checkpoints →
      (scan .java (String.ofList (lineOf .java [(indent, printText .java (sumText terms))])) stdin budget).output =
        some (String.ofList
          (if (sumShown terms).getLast? = some '\n' then sumShown terms else sumShown terms ++ ['\n'])) := by
  have hstatement : IsStatement (sumText terms) := isStatement_sumText hne
  have hline (indent : Nat) (st : State) :
      State.line (grammarOf .java) st (lineOf .java [(indent, printText .java (sumText terms))]) =
        st.emit (sumShown terms) := by
    rw [line_lineOf (List.forall_mem_singleton.mpr (hstatement.printText .java)) fun h => by cases h]
    change State.statement (grammarOf .java) st (printText .java (sumText terms)) = _
    refine hstatement.isArguments.statement_eq_emit ?_
    change renderArguments? Java.style st.store (sumText terms) = _
    rw [renderArguments?_java hstatement.isArguments (keyword?_sumText hne), sum?_sumText hne hterms hsums]
  refine ⟨hline, fun indent stdin budget htime => ?_⟩
  rw [← asRecord_eq]
  exact scan_output_of_emit (List.forall_mem_singleton.mpr (hstatement.printText .java)) htime
    (hline indent _)

/-- The strings hold plus signs, digits and quotes, and the integers behind them are not added. -/
theorem mixed_sum_is_shown :
    let quotes : StringLiteral :=
      ⟨"\\\"+ 1".toList, "\"+ 1".toList,
        .escape (by decide) (.plain (by decide) (.plain (by decide) (.plain (by decide) .nil)))⟩
    let terms : List Summand := [.integer 40, .integer (-50), .string quotes, .integer 3, .integer (-4), .string quotes]
    terms ≠ [] ∧ (∀ n ∈ integersBefore terms, Number.fitsInt64 n = true) ∧
      (∀ k ≤ (integersBefore terms).length, Number.fitsInt64 ((integersBefore terms).take k).sum = true) ∧
      0 < (Budget.ofMilliseconds 5000).checkpoints ∧
      (scan .java "System.out.println(40 + -50 + \"\\\"+ 1\" + 3 + -4 + \"\\\"+ 1\");" ""
        (Budget.ofMilliseconds 5000)).output = some "-10\"+ 13-4\"+ 1\n" := by
  intro quotes terms
  have hne : terms ≠ [] := List.cons_ne_nil _ _
  have hterms : ∀ n ∈ integersBefore terms, Number.fitsInt64 n = true := by decide
  have hsums : ∀ k ≤ (integersBefore terms).length,
      Number.fitsInt64 ((integersBefore terms).take k).sum = true := by
    decide
  have htime : 0 < (Budget.ofMilliseconds 5000).checkpoints := by decide
  have hsource : String.ofList (lineOf .java [(0, printText .java (sumText terms))]) =
      "System.out.println(40 + -50 + \"\\\"+ 1\" + 3 + -4 + \"\\\"+ 1\");" := by
    decide +kernel
  have hshown : String.ofList
      (if (sumShown terms).getLast? = some '\n' then sumShown terms else sumShown terms ++ ['\n']) =
        "-10\"+ 13-4\"+ 1\n" := by
    decide +kernel
  have hprinted := (sums_are_taken_from_the_left hne hterms hsums).2 0 "" (Budget.ofMilliseconds 5000) htime
  rw [hsource, hshown] at hprinted
  exact ⟨hne, hterms, hsums, htime, hprinted⟩

/-- An integer that does not have 64 bits is added as a floating number, even if all sums have 64 bits. -/
theorem wide_integer_is_added_as_float :
    let terms : List Summand := [.integer (-9223372036854775808), .integer 18446744073709551615]
    (∀ k ≤ (integersBefore terms).length, Number.fitsInt64 ((integersBefore terms).take k).sum = true) ∧
      sumShown terms = "9223372036854775807".toList ∧
      String.ofList (lineOf .java [(0, printText .java (sumText terms))]) =
        "System.out.println(-9223372036854775808 + 18446744073709551615);" ∧
      (scan .java "System.out.println(-9223372036854775808 + 18446744073709551615);" ""
        (Budget.ofMilliseconds 5000)).output = some "9223372036854775808.0\n" := by
  decide +kernel

end Snippet.Scan
