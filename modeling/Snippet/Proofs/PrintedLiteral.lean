import Snippet.Proofs.PatternPath
import Snippet.Proofs.StatementLine

/-!
Printing a literal. In every language that is scanned a print of a term prints the value of the term, and a
print of a literal prints the text that the literal stands for.
-/

namespace Snippet

namespace Scan

open Pattern

def printText : Scanned → List Char → List Char
  | .python, a => "print(".toList ++ (a ++ [')'])
  | .java, a => "System.out.println(".toList ++ (a ++ [')'])
  | .cpp, a => "cout << ".toList ++ a

structure IsTerm (a : List Char) : Prop extends IsStatement a where
  inArguments : ∀ r ∈ Reader.ofArguments, r.Skips a
  keyword : keyword? a = none

variable {a : List Char} {l : Scanned}

structure IsArguments (a : List Char) : Prop where
  ne_nil : a ≠ []
  tight : Text.Tight a
  oneLine : '\n' ∉ a

theorem IsStatement.isArguments (ha : IsStatement a) : IsArguments a := ⟨ha.ne_nil, ha.tight, ha.oneLine⟩

theorem IsArguments.all_anything (ha : IsArguments a) : ∀ c ∈ a, (c != '\n') = true := by
  intro c hc
  rw [bne_iff_ne]
  rintro rfl
  exact ha.oneLine hc

/-- A rule that takes the whole statement is the one that is used if it is the first. -/
theorem firstPrint?_of_takes {rule : PrintRule} {rest : List PrintRule} {p : Pattern} {text : List Char}
    {found : Captures} (hrule : rule.pattern = .both .textStart p) (h : p.Takes text [] found) :
    firstPrint? text (rule :: rest) = some (rule, ⟨0, text.length, found⟩) := by
  rw [firstPrint?, hrule, h.search?_eq]

theorem takes_python_print (ha : IsArguments a) :
    Takes
      (seq [word "print", blanks, Pattern.char '(', .capture "args" anything, Pattern.char ')', .textEnd])
      (printText .python a) [] [("args", a)] := by
  have hcall := (Takes.char '(').before (Takes.captureUpTo "args" ')' ha.all_anything rfl)
  exact (Takes.word "print").before ((Takes.no_blanks rfl).before hcall)

theorem takes_java_print (ha : IsArguments a) :
    Takes
      (seq
        [word "System.", words ["out", "err"], Pattern.char '.',
         .both (word "print") (Pattern.optional (word "ln")), blanks, Pattern.char '(',
         .capture "args" anything, Pattern.char ')', .textEnd])
      (printText .java a) [] [("args", a)] := by
  have hcall := (Takes.char '(').before (Takes.captureUpTo "args" ')' ha.all_anything rfl)
  have hname (y : List Char) :
      Takes (.both (word "print") (Pattern.optional (word "ln"))) "println".toList y [] :=
    (Takes.word "print").both (Takes.optional_some (Takes.word "ln"))
  have hmethod := (hname _).before ((Takes.no_blanks rfl).before hcall)
  have hstream := (Takes.first_word "out" ["err"]).before ((Takes.char '.').before hmethod)
  exact (Takes.word "System.").before hstream

theorem takes_cpp_print (ha : IsArguments a) :
    Takes
      (seq
        [Cpp.std, words ["cout", "cerr"], blanks, word "<<", blanks, .capture "args" anything, .textEnd])
      (printText .cpp a) [] [("args", a)] := by
  obtain ⟨c, rest, rfl⟩ := List.exists_cons_of_ne_nil ha.ne_nil
  have hargs := (Takes.capture "args" (Takes.run_all ha.all_anything)).before Takes.textEnd
  rw [List.append_nil] at hargs
  have hc : Text.isBlank c = false := ha.tight.head c rfl
  have hmark := (Takes.word "<<").before ((Takes.one_blank hc).before hargs)
  have hstream := (Takes.first_word "cout" ["cerr"]).before ((Takes.one_blank rfl).before hmark)
  refine (Takes.optional_none ?_).before hstream
  rintro z h
  cases h

/-- The print rules of a language find a print and capture its arguments. -/
theorem exists_firstPrint? (ha : IsArguments a) :
    ∃ rule m, firstPrint? (printText l a) (grammarOf l).prints = some (rule, m) ∧
      rule.formatted = false ∧ m.get? "args" = some a := by
  cases l with
  | python => exact ⟨_, _, firstPrint?_of_takes rfl (takes_python_print ha), rfl, rfl⟩
  | java => exact ⟨_, _, firstPrint?_of_takes rfl (takes_java_print ha), rfl, rfl⟩
  | cpp => exact ⟨_, _, firstPrint?_of_takes rfl (takes_cpp_print ha), rfl, rfl⟩

theorem not_occursIn_of_leaves {p : Pattern} {text : List Char} (h : ∀ y, ¬ p.Leaves text y) :
    ¬ (Pattern.both .textStart p).occursIn text = true := by
  unfold occursIn
  rw [search?_eq_none h]
  exact Bool.false_ne_true

/-- A print is no statement that is passed over: it begins with another letter. -/
theorem printText_not_skipped (l : Scanned) (a : List Char) :
    ¬ (grammarOf l).skip.occursIn (printText l a) = true := by
  cases l with
  | python =>
    refine not_occursIn_of_leaves ?_
    rintro y ⟨z, h | h, -⟩ <;> cases h
  | java =>
    refine not_occursIn_of_leaves ?_
    rintro y ⟨z, h | h, -⟩ <;> cases h
  | cpp =>
    refine not_occursIn_of_leaves ?_
    rintro y (⟨c, hc, h⟩ | ⟨z, h, -⟩)
    · cases h
      cases hc
    · cases h

theorem printText_ne_nil (l : Scanned) (a : List Char) : printText l a ≠ [] := by
  cases l <;> exact List.cons_ne_nil _ _

/-- A statement that a print rule matches prints its arguments if they are known, and does nothing else. -/
theorem statement_of_firstPrint? {g : Grammar} {text : List Char} (hne : text ≠ [])
    (hskip : ¬ g.skip.occursIn text = true) {rule : PrintRule} {m : Match}
    (hfirst : firstPrint? text g.prints = some (rule, m)) (st : State) :
    State.statement g st text =
      match printed? g st.store rule m with
      | some shown => st.emit shown
      | none => st := by
  have hgoes : ¬ (text.isEmpty || g.skip.occursIn text) = true := by
    rw [Bool.or_eq_true, not_or, List.isEmpty_iff]
    exact ⟨hne, hskip⟩
  unfold State.statement print?
  rw [if_neg hgoes, hfirst]
  rfl

/-- A print prints its arguments if they are known, and does nothing else. -/
theorem IsArguments.statement_printText (ha : IsArguments a) (st : State) :
    State.statement (grammarOf l) st (printText l a) =
      match renderArguments? (grammarOf l).style st.store a with
      | some text => st.emit text
      | none => st := by
  obtain ⟨rule, m, hfirst, hformatted, hargs⟩ := exists_firstPrint? (l := l) ha
  have hprinted : printed? (grammarOf l) st.store rule m =
      renderArguments? (grammarOf l).style st.store a := by
    unfold printed?
    rw [hformatted, hargs]
    rfl
  rw [statement_of_firstPrint? (printText_ne_nil l a) (printText_not_skipped l a) hfirst]
  generalize printed? (grammarOf l) st.store rule m = shown at hprinted ⊢
  subst hprinted
  cases renderArguments? (grammarOf l).style st.store a <;> rfl

theorem IsArguments.statement_eq_emit (ha : IsArguments a) {st : State} {text : List Char}
    (h : renderArguments? (grammarOf l).style st.store a = some text) :
    State.statement (grammarOf l) st (printText l a) = st.emit text := by
  rw [ha.statement_printText, h]

theorem IsArguments.statement_eq_self (ha : IsArguments a) {st : State}
    (h : renderArguments? (grammarOf l).style st.store a = none) :
    State.statement (grammarOf l) st (printText l a) = st := by
  rw [ha.statement_printText, h]

theorem statement_print (ha : IsTerm a) (st : State) :
    State.statement (grammarOf l) st (printText l a) =
      match renderArguments? (grammarOf l).style st.store a with
      | some text => st.emit text
      | none => st :=
  ha.toIsStatement.isArguments.statement_printText st

/-- Blanks around a term do not count. -/
theorem resolveWithin?_of_trim {piece : List Char} (ha : Text.Tight a) (hpiece : Text.trim piece = a) (style : Style)
    (store : Store) (fuel : Nat) :
    resolveWithin? style store (fuel + 1) piece = resolveWithin? style store (fuel + 1) a := by
  rw [resolveWithin?, resolveWithin?, hpiece, ha.trim_eq]

/-- A word for a line break is a line break by itself. -/
theorem Rendering.add?_of_lineBreak {style : Style} {piece : List Char} (hpiece : Text.trim piece = a)
    (hkey : keyword? a = none) (hbreak : (style.lineBreaks.any fun word => word.toList == a) = true) (store : Store)
    (r : Rendering) : Rendering.add? style store r piece = some { r with texts := ['\n'] :: r.texts } := by
  unfold Rendering.add?
  rw [hpiece]
  dsimp only
  rw [hkey]
  dsimp only
  rw [if_pos hbreak]

/-- What is neither a keyword nor a word for a line break is put to the texts of the arguments if its sum is known. -/
theorem Rendering.add?_of_sum {style : Style} {piece : List Char} (hpiece : Text.trim piece = a)
    (hkey : keyword? a = none) (hbreak : ¬ (style.lineBreaks.any fun word => word.toList == a) = true) (store : Store)
    (r : Rendering) :
    Rendering.add? style store r piece =
      (sum? style store a).map fun v => { r with texts := v.render style :: r.texts } := by
  unfold Rendering.add?
  rw [hpiece]
  dsimp only
  rw [hkey]
  dsimp only
  rw [if_neg hbreak]

theorem intercalate_singleton (joiner x : List Char) : List.intercalate joiner [x] = x := by
  simp [List.intercalate]

theorem sum?_term (ha : IsTerm a) (style : Style) (store : Store) : sum? style store a = resolve? style store a := by
  unfold sum?
  rw [splitTopLevel_of_skips (ha.inArguments _ (by simp [Reader.ofArguments]))]
  dsimp only
  cases resolve? style store a <;> rfl

/-- Arguments that are cut nowhere print what their only part adds. -/
theorem renderArguments?_of_add? {style : Style} {store : Store} (ha : IsArguments a)
    (hone : ∀ separator joiner, style.separator = some (separator, joiner) → splitTopLevel separator.toList a = [a])
    {value : Option (List Char)}
    (hadd : ∀ r, Rendering.add? style store r a = value.map fun text => { r with texts := text :: r.texts }) :
    renderArguments? style store a = value := by
  have hnonempty : ¬ a.isEmpty = true := fun h => ha.ne_nil (List.isEmpty_iff.mp h)
  have hpart (joiner : List Char) :
      (([a].foldlM (Rendering.add? style store) ⟨joiner, []⟩).map fun r =>
        List.intercalate r.joiner r.texts.reverse) = value := by
    rw [List.foldlM_cons, hadd]
    cases value with
    | some text => exact congrArg some List.intercalate_singleton
    | none => rfl
  unfold renderArguments?
  rw [ha.tight.trim_eq, if_neg hnonempty]
  cases hstyle : style.separator with
  | none => exact hpart []
  | some cut =>
    dsimp only
    rw [hone cut.1 cut.2 hstyle]
    exact hpart cut.2.toList

/-- A term is rendered by itself: it is one argument, no keyword and no sum. -/
theorem renderArguments?_term (ha : IsTerm a) (store : Store)
    (hbreak : ((grammarOf l).style.lineBreaks.any fun word => word.toList == a) = true →
      (resolve? (grammarOf l).style store a).map (Literal.render (grammarOf l).style) = some ['\n']) :
    renderArguments? (grammarOf l).style store a =
      (resolve? (grammarOf l).style store a).map (Literal.render (grammarOf l).style) := by
  refine renderArguments?_of_add? ha.toIsStatement.isArguments ?_ fun r => ?_
  · intro separator joiner hstyle
    cases l with
    | java => cases hstyle
    | python =>
      cases hstyle
      exact splitTopLevel_of_skips (ha.inArguments (.separator ',') (by simp [Reader.ofArguments]))
    | cpp =>
      cases hstyle
      exact splitTopLevel_of_skips (ha.inArguments (.separator '<') (by simp [Reader.ofArguments]))
  · by_cases hmem : ((grammarOf l).style.lineBreaks.any fun word => word.toList == a) = true
    · rw [Rendering.add?_of_lineBreak ha.tight.trim_eq ha.keyword hmem, hbreak hmem]
      rfl
    · rw [Rendering.add?_of_sum ha.tight.trim_eq ha.keyword hmem, sum?_term ha, Option.map_map]
      rfl

/-- A text is no keyword argument if it begins with a character that neither is blank nor begins names. -/
theorem keyword?_of_first {c : Char} (hname : isNameStart c = false) (hblank : Text.isBlank c = false)
    (rest : List Char) : keyword? (c :: rest) = none := by
  have hkey : isName (Text.trim ((c :: rest).takeWhile (· != '='))) = false := by
    by_cases hc : c = '='
    · subst hc
      rfl
    · have htake : (c :: rest).takeWhile (· != '=') = c :: rest.takeWhile (· != '=') :=
        List.takeWhile_cons_of_pos (bne_iff_ne.mpr hc)
      obtain ⟨key, hkey⟩ := Text.exists_trim_cons hblank (rest.takeWhile (· != '='))
      rw [htake, hkey]
      exact Bool.and_eq_false_iff.mpr (.inl hname)
  unfold keyword?
  split
  · dsimp only
    rw [hkey]
    rfl
  · rfl

section Spelled

variable {body text : List Char} (h : Spells '"' body text)

theorem tight_quoted (body : List Char) : Text.Tight ('"' :: (body ++ ['"'])) := by
  constructor
  · rintro c ⟨⟩
    decide
  · intro c hc
    rw [← List.cons_append, List.getLast?_concat] at hc
    cases hc
    decide

include h

/-- A text in quotes is a term: its body is passed as the inside of a literal. -/
theorem isTerm_quoted : IsTerm ('"' :: (body ++ ['"'])) where
  ne_nil := List.cons_ne_nil _ _
  tight := tight_quoted body
  oneLine := by simp [h.oneLine]
  inLine := by
    intro r hr
    refine .spelled ?_ h
    simp only [Reader.ofLine, List.mem_cons, List.not_mem_nil, or_false] at hr
    rcases hr with rfl | rfl | rfl <;> rfl
  last := by
    rw [← List.cons_append, List.getLast?_concat]
    decide
  inArguments := by
    intro r hr
    refine .spelled ?_ h
    simp only [Reader.ofArguments, List.mem_cons, List.not_mem_nil, or_false] at hr
    rcases hr with rfl | rfl | rfl <;> rfl
  keyword := keyword?_of_first rfl rfl _

/-- The value of a literal is the text that it spells. -/
theorem resolveWithin?_quoted (style : Style) (store : Store) (fuel : Nat) :
    resolveWithin? style store (fuel + 1) ('"' :: (body ++ ['"'])) = some (.text text) := by
  have hnonempty : ¬ ('"' :: (body ++ ['"'])).isEmpty = true := Bool.false_ne_true
  rw [resolveWithin?, (tight_quoted body).trim_eq]
  dsimp only
  rw [if_neg hnonempty, h.quoted?_eq]
  dsimp only
  rw [h.unescape_eq]

end Spelled

theorem isTerm_literalOf (t : List Char) : IsTerm (literalOf t) := isTerm_quoted (spells_escaped t)

theorem resolve?_literalOf (style : Style) (store : Store) (t : List Char) :
    resolve? style store (literalOf t) = some (.text t) :=
  resolveWithin?_quoted (spells_escaped t) style store _

/-- The one literal that is also a word for a line break stands for a line break. -/
theorem eq_of_lineBreak (t : List Char)
    (h : ((grammarOf l).style.lineBreaks.any fun word => word.toList == literalOf t) = true) :
    t = ['\n'] := by
  obtain ⟨word, hmem, hword⟩ := List.any_eq_true.mp h
  rw [beq_iff_eq] at hword
  have htext : (quoted? word.toList).map Text.unescape = some t := by
    rw [hword, quoted?_literalOf, Option.map_some, unescape_escaped]
  cases l with
  | python => cases hmem
  | java => cases hmem
  | cpp =>
    simp only [grammarOf, Cpp.grammar, Cpp.style, List.mem_cons, List.not_mem_nil, or_false] at hmem
    rcases hmem with rfl | rfl | rfl | rfl
    · cases htext
    · cases htext
    · cases hword
    · exact (Option.some.inj htext).symm

theorem renderArguments?_literalOf (l : Scanned) (store : Store) (t : List Char) :
    renderArguments? (grammarOf l).style store (literalOf t) = some t := by
  rw [renderArguments?_term (isTerm_literalOf t), resolve?_literalOf]
  · rfl
  · intro hbreak
    rw [resolve?_literalOf, eq_of_lineBreak t hbreak]
    rfl

/-- A print stays on its line. -/
theorem newline_notMem_printText (l : Scanned) (ha : IsStatement a) : '\n' ∉ printText l a := by
  have hplain : '\n' ∉ "print(".toList ∧ '\n' ∉ "System.out.println(".toList ∧ '\n' ∉ "cout << ".toList := by
    decide
  have hclosed : '\n' ∉ a ++ [')'] := by simp [ha.oneLine]
  cases l with
  | python => exact fun h => (List.mem_append.mp h).elim hplain.1 hclosed
  | java => exact fun h => (List.mem_append.mp h).elim hplain.2.1 hclosed
  | cpp => exact fun h => (List.mem_append.mp h).elim hplain.2.2 ha.oneLine

/-- The readers of a line pass the text of a print and stop nowhere inside of it. -/
theorem skips_printText (l : Scanned) (ha : IsStatement a) {r : Reader} (hr : r ∈ Reader.ofLine) :
    r.Skips (printText l a) := by
  have hplain (x : List Char) (hx : ∀ r ∈ Reader.ofLine, x.all r.ignores = true) : r.Skips x :=
    Reader.Skips.of_ignores (hx r hr)
  have hcall : r.Skips ('(' :: (a ++ [')'])) :=
    Reader.Skips.between (Reader.pairs_parentheses r hr) (ha.inLine r hr)
  cases l with
  | python =>
    have hname : "print(".toList = "print".toList ++ ['('] := by decide
    change r.Skips ("print(".toList ++ (a ++ [')']))
    rw [hname, List.append_assoc]
    exact (hplain _ (by decide)).append hcall
  | java =>
    have hname : "System.out.println(".toList = "System.out.println".toList ++ ['('] := by decide
    change r.Skips ("System.out.println(".toList ++ (a ++ [')']))
    rw [hname, List.append_assoc]
    exact (hplain _ (by decide)).append hcall
  | cpp => exact (hplain _ (by decide)).append (ha.inLine r hr)

/-- A print ends in a closing parenthesis, or as its argument does. -/
theorem getLast?_printText (l : Scanned) (ha : IsStatement a) :
    (printText l a).getLast? = some ')' ∨ (printText l a).getLast? = a.getLast? := by
  have hcall (x : List Char) : (x ++ (a ++ [')'])).getLast? = some ')' := by
    rw [← List.append_assoc, List.getLast?_concat]
  cases l with
  | python => exact Or.inl (hcall _)
  | java => exact Or.inl (hcall _)
  | cpp => exact Or.inr (List.getLast?_append_of_ne_nil _ ha.ne_nil)

/-- The text of a print is one statement. -/
theorem IsStatement.printText (l : Scanned) (ha : IsStatement a) : IsStatement (printText l a) where
  ne_nil := printText_ne_nil l a
  tight := by
    constructor
    · cases l <;> (rintro c ⟨⟩; decide)
    · rcases getLast?_printText l ha with h | h
      · rw [h]
        rintro c ⟨⟩
        decide
      · rw [h]
        exact ha.tight.last
  oneLine := newline_notMem_printText l ha
  inLine := fun r hr => skips_printText l ha hr
  last := by
    rcases getLast?_printText l ha with h | h
    · rw [h]
      decide
    · rw [h]
      exact ha.last

theorem isStatement_printText (l : Scanned) (ha : IsTerm a) : IsStatement (printText l a) :=
  ha.toIsStatement.printText l

/-- A record is a text with a newline behind it unless it ends in one. -/
theorem asRecord_eq (t : List Char) :
    Text.asRecord t = if t.getLast? = some '\n' then t else t ++ ['\n'] := by
  unfold Text.asRecord Text.dropNewline
  rw [← List.head?_reverse]
  split
  · rename_i rest hrest
    rw [hrest, if_pos List.head?_cons, ← List.reverse_cons, ← hrest, List.reverse_reverse]
  · rename_i hother
    rw [if_neg]
    intro hhead
    obtain ⟨rest, hrest⟩ := List.head?_eq_some_iff.mp hhead
    exact hother rest hrest

/-- Printing a literal prints the text that the literal stands for, whatever characters are in it, and a
newline behind it unless it ends in one. -/
theorem printed_literal_is_its_text (l : Scanned) (t : List Char) (stdin : String) (budget : Budget)
    (htime : 0 < budget.checkpoints) :
    (scan l (String.ofList (lineOf l [(0, printText l (literalOf t))])) stdin budget).output =
      some (String.ofList (if t.getLast? = some '\n' then t else t ++ ['\n'])) := by
  have hstatement : ∀ s ∈ [(0, printText l (literalOf t))], IsStatement s.2 :=
    List.forall_mem_singleton.mpr (isStatement_printText l (isTerm_literalOf t))
  have hlines : ∀ x ∈ [lineOf l [(0, printText l (literalOf t))]], '\n' ∉ x ∧ x.getLast? ≠ some '\r' :=
    List.forall_mem_singleton.mpr (lineOf_oneLine hstatement)
  have hend : (State.start stdin).lines (grammarOf l) [lineOf l [(0, printText l (literalOf t))]] =
      (State.start stdin).emit t := by
    change State.line (grammarOf l) (State.start stdin) _ = _
    rw [line_lineOf hstatement fun _ => Nat.le_refl 1]
    change State.statement (grammarOf l) (State.start stdin) (printText l (literalOf t)) = _
    rw [statement_print (isTerm_literalOf t), renderArguments?_literalOf]
  have hsource : List.intercalate ['\n'] [lineOf l [(0, printText l (literalOf t))]] =
      lineOf l [(0, printText l (literalOf t))] := intercalate_singleton _ _
  have hscan := scan_output hlines l stdin htime
  rw [hsource, hend] at hscan
  rw [hscan, ← asRecord_eq]
  change some (String.ofList (Text.asRecord t ++ [])) = _
  rw [List.append_nil]

/-- The text holds what begins comments, ends statements, quotes, groups and joins, and ends in a newline. -/
theorem awkward_literal_is_printed :
    0 < (Budget.ofMilliseconds 5000).checkpoints ∧
      (scan .cpp (String.ofList (lineOf .cpp [(0, printText .cpp (literalOf
        "// \" ; \x7b ' << = [ # , \\n + )\n".toList))])) "" (Budget.ofMilliseconds 5000)).output =
          some (String.ofList "// \" ; \x7b ' << = [ # , \\n + )\n".toList) := by
  have htime : 0 < (Budget.ofMilliseconds 5000).checkpoints := by decide
  have hprinted := printed_literal_is_its_text .cpp "// \" ; \x7b ' << = [ # , \\n + )\n".toList ""
    (Budget.ofMilliseconds 5000) htime
  rw [if_pos (by decide)] at hprinted
  exact ⟨htime, hprinted⟩

example : String.ofList (lineOf .java [(0, printText .java (literalOf "a \"b\"".toList))]) =
    "System.out.println(\"a \\\"b\\\"\");" := by
  decide

end Scan

end Snippet
