import Mathlib.Algebra.Group.Nat.Even
import Snippet.Proofs.NumberText
import Snippet.Proofs.VariableStore

/-!
Digit separators. A decimal integer may be written with apostrophes between groups of its digits, and the reader of
numbers leaves them out. The readers that cut a line take each of them for a quote, so that every second one closes
what the one before it has opened: an even number of separators does no harm, and behind an odd one nothing of the line
is cut any more.
-/

namespace Snippet.Scan

open Pattern

structure GroupedLiteral where
  first : List Char
  rest : List (List Char)
  isDigit : ∀ group ∈ first :: rest, group ≠ [] ∧ ∀ c ∈ group, c.isDigit = true

namespace GroupedLiteral

variable (L : GroupedLiteral)

def written : List Char := L.first ++ L.rest.flatMap fun group => '\'' :: group

def digits : List Char := L.first ++ L.rest.flatten

theorem exists_first : ∃ c more, L.first = c :: more ∧ c.isDigit = true := by
  obtain ⟨hne, hdigit⟩ := L.isDigit L.first List.mem_cons_self
  obtain ⟨c, more, hfirst⟩ := List.exists_cons_of_ne_nil hne
  exact ⟨c, more, hfirst, hdigit c (hfirst ▸ List.mem_cons_self)⟩

theorem exists_written_cons : ∃ c more, L.written = c :: more ∧ c.isDigit = true := by
  obtain ⟨c, more, hfirst, hc⟩ := L.exists_first
  exact ⟨c, _, congrArg (· ++ _) hfirst, hc⟩

theorem isDigit_or_eq {c : Char} (h : c ∈ L.written) : c.isDigit = true ∨ c = '\'' := by
  rcases List.mem_append.mp h with hc | hc
  · exact .inl ((L.isDigit _ List.mem_cons_self).2 c hc)
  · obtain ⟨group, hgroup, hc⟩ := List.mem_flatMap.mp hc
    rcases List.mem_cons.mp hc with rfl | hc
    · exact .inr rfl
    · exact .inl ((L.isDigit group (List.mem_cons_of_mem _ hgroup)).2 c hc)

theorem notMem_written {k : Char} (hdigit : k.isDigit = false) (hmark : k ≠ '\'') : k ∉ L.written := by
  intro h
  rcases L.isDigit_or_eq h with hk | hk
  · rw [hdigit] at hk
    cases hk
  · exact hmark hk

/-- The last group is not empty, so the literal ends in a digit. -/
theorem isDigit_of_getLast? {c : Char} (h : c ∈ L.written.getLast?) : c.isDigit = true := by
  rcases List.eq_nil_or_concat L.rest with hrest | ⟨front, group, hrest⟩
  · rw [written, hrest, List.flatMap_nil, List.append_nil] at h
    exact (L.isDigit _ List.mem_cons_self).2 c (List.mem_of_mem_getLast? h)
  · obtain ⟨hne, hdigit⟩ := L.isDigit group (by simp [hrest])
    rw [written, hrest, List.concat_eq_append, List.flatMap_append, List.flatMap_singleton, ← List.append_assoc,
      List.append_cons, List.getLast?_append_of_ne_nil _ hne] at h
    exact hdigit c (List.mem_of_mem_getLast? h)

theorem tight_written : Text.Tight L.written where
  head := by
    obtain ⟨c, more, hwritten, hc⟩ := L.exists_written_cons
    rw [hwritten]
    rintro d ⟨⟩
    exact Number.isBlank_of_isDigit hc
  last := fun c hc => Number.isBlank_of_isDigit (L.isDigit_of_getLast? hc)

/-- Without the separators the digits are left. -/
theorem ungroup_written : ungroup L.written = L.digits := by
  have hgroup {group : List Char} (h : ∀ c ∈ group, c.isDigit = true) : ungroup group = group := by
    apply List.filter_eq_self.mpr
    intro c hc
    rw [Bool.and_eq_true, bne_iff_ne, bne_iff_ne]
    constructor <;> rintro rfl <;> cases h _ hc
  have hgroups {groups : List (List Char)} (h : ∀ group ∈ groups, ∀ c ∈ group, c.isDigit = true) :
      ungroup (groups.flatMap fun group => '\'' :: group) = groups.flatten := by
    induction groups with
    | nil => rfl
    | cons group groups ih =>
      obtain ⟨hhead, htail⟩ := List.forall_mem_cons.mp h
      have hmark : ungroup ('\'' :: group) = group := hgroup hhead
      rw [List.flatMap_cons, ungroup, List.filter_append, List.flatten_cons]
      exact congrArg₂ (· ++ ·) hmark (ih htail)
  unfold written digits ungroup
  rw [List.filter_append]
  exact congrArg₂ (· ++ ·) (hgroup (L.isDigit _ List.mem_cons_self).2)
    (hgroups fun group h => (L.isDigit group (List.mem_cons_of_mem _ h)).2)

/-- Separators and the suffixes behind them are dropped from a literal. -/
theorem number?_written : number? L.written = some L.digits := by
  obtain ⟨c, more, hwritten, hc⟩ := L.exists_written_cons
  have hhead : ∀ d ∈ L.written.head?, d.isDigit = true := by
    rw [hwritten]
    rintro d ⟨⟩
    exact hc
  have hne : L.written ≠ [] := by
    rw [hwritten]
    exact List.cons_ne_nil _ _
  have hlast : ∀ d ∈ L.written.getLast?, d.isDigit = true := fun _ h => L.isDigit_of_getLast? h
  rw [number?_plain, numberBehind?_grouped (fun _ h => L.isDigit_or_eq h) hhead hlast hne, ungroup_written,
    List.nil_append]
  intro behind h
  rw [hwritten] at h
  cases h
  cases hc

def standing (depth : Nat) (inside : Bool) : Nesting := ⟨depth, if inside then some '\'' else none, false⟩

variable {L} {r : Reader}

/-- A group of digits without its separators is passed by every reader, inside quotes or outside. -/
theorem passes_group {group : List Char} (h : ∀ c ∈ group, c.isDigit = true)
    (hr : r ∈ Reader.ofLine ++ Reader.ofArguments) (depth : Nat) (inside : Bool) :
    r.Passes (standing depth inside) group (standing depth inside) := by
  cases inside with
  | true =>
    refine .inside (fun c hc => ?_) depth
    constructor <;> rintro rfl <;> cases h _ hc
  | false =>
    refine Reader.Skips.of_ignores (List.all_eq_true.mpr fun c hc => ?_) depth
    apply ignores_of_isNameChar _ hr
    simp [isNameChar, Char.isAlphanum, h c hc]

/-- Every separator takes a reader into quotes or out of them; by induction on the groups behind the first one. -/
theorem passes_rest {groups : List (List Char)} (h : ∀ group ∈ groups, ∀ c ∈ group, c.isDigit = true)
    (hr : r ∈ Reader.ofLine ++ Reader.ofArguments) (depth : Nat) (inside : Bool) :
    r.Passes (standing depth inside) (groups.flatMap fun group => '\'' :: group)
      (standing depth (inside ^^ !decide (Even groups.length))) := by
  induction groups generalizing inside with
  | nil =>
    simp only [List.length_nil, Even.zero, decide_true, Bool.not_true, Bool.xor_false]
    exact .nil _
  | cons group groups ih =>
    obtain ⟨hgroup, hgroups⟩ := List.forall_mem_cons.mp h
    have hmark : r.stops '\'' = false := by
      have hall : ∀ r ∈ Reader.ofLine ++ Reader.ofArguments, r.stops '\'' = false := by decide
      exact hall r hr
    have hstep : (standing depth inside).step r.opens r.closes '\'' = standing depth !inside := by
      cases inside <;> rfl
    have hrest := (passes_group hgroup hr depth !inside).append (ih hgroups !inside)
    -- One more separator turns `inside` over, and one more group the parity of their number.
    have hparity : decide (Even (groups.length + 1)) = !decide (Even groups.length) :=
      (decide_eq_decide.mpr Nat.even_add_one).trans decide_not
    have hlength : (inside ^^ !decide (Even (group :: groups).length)) =
        ((!inside) ^^ !decide (Even groups.length)) := by
      rw [List.length_cons, hparity, Bool.xor_not, Bool.not_xor]
    rw [hlength]
    refine .cons (fun _ => hmark) ?_
    rw [hstep]
    exact hrest

variable (L)

/-- A reader is outside quotes behind a literal with an even number of separators, and inside otherwise. -/
theorem passes_written (hr : r ∈ Reader.ofLine ++ Reader.ofArguments) (depth : Nat) :
    r.Passes ⟨depth, none, false⟩ L.written (standing depth !decide (Even L.rest.length)) := by
  have hrest := passes_rest (fun group h => (L.isDigit group (List.mem_cons_of_mem _ h)).2) hr depth false
  rw [Bool.false_xor] at hrest
  exact (passes_group (L.isDigit _ List.mem_cons_self).2 hr depth false).append hrest

theorem skips_written (heven : Even L.rest.length) (hr : r ∈ Reader.ofLine ++ Reader.ofArguments) :
    r.Skips L.written := by
  intro depth
  have hpasses := L.passes_written hr depth
  rw [decide_eq_true heven] at hpasses
  exact hpasses

def decisive : List Char := ['\\', '\'', '\n', '-', 'x', 'X', '(']

def mayFollow (tail : List Char) : Bool := tail.all fun c => !decisive.contains c

theorem notMem_of_mayFollow {tail : List Char} (h : mayFollow tail = true) {k : Char} (hk : k ∈ decisive) :
    k ∉ tail := by
  intro hmem
  have hnone := List.all_eq_true.mp h k hmem
  rw [List.contains_iff_mem.mpr hk] at hnone
  cases hnone

theorem mayFollow_nil : mayFollow [] = true := rfl

theorem mayFollow_semicolon {tail : List Char} (h : mayFollow tail = true) : mayFollow (tail ++ [';']) = true := by
  unfold mayFollow at h ⊢
  rw [List.all_append, h]
  rfl

/-- Behind an odd number of separators a reader passes everything up to another quote. -/
theorem passes_open (hodd : ¬ Even L.rest.length) {tail : List Char} (htail : mayFollow tail = true)
    (hr : r ∈ Reader.ofLine ++ Reader.ofArguments) : ∃ n, r.Passes {} (L.written ++ tail) n := by
  have hpasses := L.passes_written hr 0
  rw [decide_eq_false hodd] at hpasses
  refine ⟨_, hpasses.append (.inside (fun c hc => ?_) 0)⟩
  constructor <;> rintro rfl
  · exact notMem_of_mayFollow htail (by decide) hc
  · exact notMem_of_mayFollow htail (by decide) hc

theorem keyword?_written (tail : List Char) : keyword? (L.written ++ tail) = none := by
  obtain ⟨c, more, hwritten, hc⟩ := L.exists_written_cons
  rw [hwritten]
  exact keyword?_of_first (isNameStart_of_isDigit hc) (Number.isBlank_of_isDigit hc) _

/-- With an even number of separators the quotes pair up, and the literal is a term. -/
theorem isTerm_written (heven : Even L.rest.length) : IsTerm L.written where
  ne_nil := by
    obtain ⟨c, more, hwritten, -⟩ := L.exists_written_cons
    rw [hwritten]
    exact List.cons_ne_nil _ _
  tight := L.tight_written
  oneLine := L.notMem_written (by decide) (by decide)
  inLine := fun r hr => L.skips_written heven (List.mem_append_left _ hr)
  last := fun h => by cases L.isDigit_of_getLast? h
  inArguments := fun r hr => L.skips_written heven (List.mem_append_right _ hr)
  keyword := by
    have hkey := L.keyword?_written []
    rwa [List.append_nil] at hkey

/-- No digit is a line break, so the record of the digits has one more character. -/
theorem asRecord_digits : Text.asRecord L.digits = L.digits ++ ['\n'] := by
  have hnone : '\n' ∉ L.digits := by
    rw [← L.ungroup_written]
    exact fun h => L.notMem_written (by decide) (by decide) (List.mem_of_mem_filter h)
  rw [asRecord_eq, if_neg fun h => hnone (List.mem_of_getLast? h)]

theorem resolveWithin?_written (style : Style) (store : Store) (fuel : Nat) :
    resolveWithin? style store (fuel + 1) L.written = some (.number L.digits) := by
  obtain ⟨c, more, hwritten, hc⟩ := L.exists_written_cons
  have htrim := L.tight_written.trim_eq
  have hnumber := L.number?_written
  rw [hwritten] at htrim hnumber ⊢
  exact resolveWithin?_of_number? (.inr (.inr hc)) htrim hnumber style store fuel

/-- With the semicolon of its statement behind it the literal is no term. -/
theorem resolve?_semicolon {tail : List Char} (htail : mayFollow tail = true) (style : Style) (store : Store) :
    resolve? style store (L.written ++ (tail ++ [';'])) = none := by
  obtain ⟨c, more, hwritten, hc⟩ := L.exists_written_cons
  have hnone {k : Char} (hdigit : k.isDigit = false) (hmark : k ≠ '\'') (hk : k ∉ tail) : k ∉ L.written ++ tail :=
    fun hmem => (List.mem_append.mp hmem).elim (L.notMem_written hdigit hmark) hk
  have hminus := hnone (by decide) (by decide) (notMem_of_mayFollow (k := '-') htail (by decide))
  have hx := hnone (by decide) (by decide) (notMem_of_mayFollow (k := 'x') htail (by decide))
  have hX := hnone (by decide) (by decide) (notMem_of_mayFollow (k := 'X') htail (by decide))
  have hcall : '(' ∉ L.written ++ (tail ++ [';']) := by
    rw [← List.append_assoc, List.mem_append, not_or]
    exact ⟨hnone (by decide) (by decide) (notMem_of_mayFollow htail (by decide)), by decide⟩
  have hnumber : number? (L.written ++ (tail ++ [';'])) = none := by
    rw [← List.append_assoc]
    exact number?_of_semicolon hminus hx hX
  have htrim : Text.trim (L.written ++ (tail ++ [';'])) = L.written ++ (tail ++ [';']) := by
    apply Text.Tight.trim_eq
    constructor
    · rw [hwritten]
      rintro d ⟨⟩
      exact Number.isBlank_of_isDigit hc
    · rw [← List.append_assoc, List.getLast?_concat]
      rintro d ⟨⟩
      decide
  unfold resolve?
  rw [hwritten] at hcall hnumber htrim ⊢
  rw [List.cons_append] at hcall hnumber htrim ⊢
  rw [resolveWithin?_of_isDigit hc htrim hcall, hnumber]
  rfl

def streamed : List Char := L.written ++ " << endl".toList

/-- The literal with what may follow it is a list of arguments. -/
theorem isArguments_tail {tail : List Char} (htail : mayFollow tail = true)
    (hlast : tail.getLast?.any Text.isBlank = false) : IsArguments (L.written ++ tail) := by
  obtain ⟨c, more, hwritten, hc⟩ := L.exists_written_cons
  refine ⟨?_, ⟨?_, ?_⟩, ?_⟩
  · rw [hwritten]
    exact List.cons_ne_nil _ _
  · rw [hwritten]
    rintro d ⟨⟩
    exact Number.isBlank_of_isDigit hc
  · by_cases hnil : tail = []
    · rw [hnil, List.append_nil]
      exact L.tight_written.last
    · rw [List.getLast?_append_of_ne_nil _ hnil]
      intro c hc
      rw [hc] at hlast
      exact hlast
  · exact fun h => (List.mem_append.mp h).elim (L.notMem_written (by decide) (by decide))
      (notMem_of_mayFollow htail (by decide))

theorem isArguments_streamed : IsArguments L.streamed := L.isArguments_tail (by decide) (by decide)

theorem isValue_written (heven : Even L.rest.length) : IsValue L.written where
  toIsStatement := (L.isTerm_written heven).toIsStatement
  noEquals := by
    obtain ⟨c, more, hwritten, hc⟩ := L.exists_written_cons
    rw [hwritten]
    rintro ⟨⟩
    cases hc

/-- A line that goes on with the literal is one statement with its semicolon if the number of separators is odd. -/
theorem line_open (hodd : ¬ Even L.rest.length) {front tail : List Char} (hfront : ∀ r ∈ Reader.ofLine, r.Skips front)
    (hblank : front.head?.any Text.isBlank = false) (hne : front ≠ []) (htail : mayFollow tail = true)
    (indent : Nat) (st : State) :
    State.line (grammarOf .cpp) st (lineOf .cpp [(indent, front ++ (L.written ++ tail))]) =
      State.statement (grammarOf .cpp) st (front ++ (L.written ++ (tail ++ [';']))) := by
  have hline : lineOf .cpp [(indent, front ++ (L.written ++ tail))] =
      List.replicate indent ' ' ++ (front ++ (L.written ++ (tail ++ [';']))) := by
    simp [lineOf, terminator]
  have htight : Text.Tight (front ++ (L.written ++ (tail ++ [';']))) := by
    constructor
    · rw [List.head?_append_of_ne_nil _ hne]
      intro c hc
      rw [hc] at hblank
      exact hblank
    · rw [← List.append_assoc, ← List.append_assoc, List.getLast?_concat]
      rintro c ⟨⟩
      decide
  have hstatements : statementsOf (grammarOf .cpp)
      (List.replicate indent ' ' ++ (front ++ (L.written ++ (tail ++ [';'])))) =
        [front ++ (L.written ++ (tail ++ [';']))] := by
    rw [statementsOf_of_passes (by decide), htight.trim_append fun c hc => isBlank_of_mem_replicate hc]
    intro r hr
    obtain ⟨n, hopen⟩ := L.passes_open hodd (mayFollow_semicolon htail) (List.mem_append_left _ hr)
    exact ⟨n, (skips_spaces indent r hr 0).append ((hfront r hr 0).append hopen)⟩
  rw [hline, State.line, hstatements]
  rfl

section Declaration

variable (x : Variable .cpp) (indent : Nat) (st : State)

/-- Behind an even number of separators a declaration gives the variable the digits. -/
theorem line_declare (heven : Even L.rest.length) :
    State.line (grammarOf .cpp) st (lineOf .cpp [(indent, declareText x.name L.written)]) =
      { st with store := st.store.put x.name (.number L.digits) } := by
  have hvalue := L.isValue_written heven
  rw [line_lineOf (List.forall_mem_singleton.mpr (isStatement_declareText x hvalue)) fun h => by cases h]
  change State.statement (grammarOf .cpp) st (declareText x.name L.written) = _
  rw [statement_declareText x hvalue.toIsStatement.isArguments hvalue.noEquals, resolve?, L.resolveWithin?_written]

/-- Behind an odd number of separators the semicolon belongs to the value, and the variable is forgotten. -/
theorem line_declare_open (hodd : ¬ Even L.rest.length) :
    State.line (grammarOf .cpp) st (lineOf .cpp [(indent, declareText x.name L.written)]) =
      { st with store := st.store.forget x.name } := by
  have htext (value : List Char) : declareText x.name value = declareText x.name [] ++ value := by
    simp [declareText, assignText]
  have hfront : ∀ r ∈ Reader.ofLine, r.Skips (declareText x.name []) := by
    intro r hr
    have hspaced : ∀ r ∈ Reader.ofLine, "int ".toList.all r.ignores = true ∧ [' ', '=', ' '].all r.ignores = true := by
      decide
    exact (Reader.Skips.of_ignores (hspaced r hr).1).append
      ((x.isTerm_name.inLine r hr).append (.of_ignores (hspaced r hr).2))
  -- The statement is an assignment of the literal with its semicolon.
  have hopen := L.line_open hodd hfront rfl (List.cons_ne_nil _ _) mayFollow_nil indent st
  rw [List.append_nil, ← htext, ← htext] at hopen
  rw [hopen, statement_declareText x, L.resolve?_semicolon (by decide)]
  · exact L.isArguments_tail (by decide) (by decide)
  · obtain ⟨c, more, hwritten, hc⟩ := L.exists_written_cons
    rw [hwritten]
    rintro ⟨⟩
    cases hc

/-- A print of the variable shows its value, or nothing if that is unknown. -/
theorem line_printName : State.line (grammarOf .cpp) st (lineOf .cpp [(indent, printText .cpp x.name)]) =
    (st.store.get? x.name).elim st fun v => st.emit (v.render Cpp.style) := by
  rw [line_lineOf (List.forall_mem_singleton.mpr (isStatement_printText .cpp x.isTerm_name)) fun h => by cases h]
  change State.statement (grammarOf .cpp) st (printText .cpp x.name) = _
  rw [statement_print x.isTerm_name, x.renderArguments?_name]
  cases st.store.get? x.name <;> rfl

/-- What a declaration and a print of the variable do. -/
theorem lines_declare (indent' : Nat) :
    st.lines (grammarOf .cpp)
        [lineOf .cpp [(indent, declareText x.name L.written)], lineOf .cpp [(indent', printText .cpp x.name)]] =
      if Even L.rest.length then State.emit { st with store := st.store.put x.name (.number L.digits) } L.digits
      else { st with store := st.store.forget x.name } := by
  change State.line _ (State.line _ st _) _ = _
  rw [line_printName]
  split
  · next heven =>
    rw [L.line_declare x indent st heven]
    dsimp only
    rw [Store.get?_put, Function.update_self]
    rfl
  · next hodd =>
    rw [L.line_declare_open x indent st hodd]
    dsimp only
    rw [Store.get?_forget, Function.update_self]
    rfl

end Declaration

section Stream

variable (indent : Nat) (st : State)

theorem isTerm_endl : IsTerm "endl".toList :=
  isTerm_of_isWordChar (by decide) (List.all_eq_true.mp (by decide))

/-- A text that begins with the literal is no word for a line break. -/
theorem not_lineBreak (tail : List Char) :
    ¬ (Cpp.style.lineBreaks.any fun word => word.toList == L.written ++ tail) = true := by
  obtain ⟨c, more, hwritten, hc⟩ := L.exists_written_cons
  have hwords : ∀ word ∈ Cpp.style.lineBreaks, word.toList.head?.any Char.isDigit = false := by decide
  rw [List.any_eq_true]
  rintro ⟨word, hmem, hword⟩
  rw [beq_iff_eq, hwritten] at hword
  have hnone := hwords word hmem
  rw [hword] at hnone
  exact Bool.noConfusion (hc.symm.trans hnone)

/-- A literal with an even number of separators is printed as its digits; with the line break behind it
nothing else is. -/
theorem renderArguments?_streamed (heven : Even L.rest.length) (store : Store) :
    renderArguments? Cpp.style store L.streamed = some (L.digits ++ ['\n']) := by
  have hterm := L.isTerm_written heven
  -- The literal and the line break are the parts between the marks of the stream.
  have hparts : splitTopLevel ['<', '<'] L.streamed = [L.written ++ [' '], " endl".toList] := by
    have htext : L.streamed = List.intercalate ['<', '<'] [L.written ++ [' '], " endl".toList] := by
      simp [streamed, List.intercalate]
    have hspace : (Reader.separator '<').Skips [' '] := .of_ignores (by decide)
    rw [htext, splitTopLevel_intercalate rfl (List.cons_ne_nil _ _)]
    refine List.forall_mem_cons.mpr ⟨?_, List.forall_mem_singleton.mpr (.of_ignores (by decide))⟩
    exact (hterm.inArguments _ (by simp [Reader.ofArguments])).append hspace
  have hliteral (r : Rendering) :
      Rendering.add? Cpp.style store r (L.written ++ [' ']) = some { r with texts := L.digits :: r.texts } := by
    have htrim : Text.trim (L.written ++ [' ']) = L.written :=
      hterm.tight.trim_between (x := []) (List.forall_mem_nil _) hterm.ne_nil (List.forall_mem_singleton.mpr rfl)
    have hbreak := L.not_lineBreak []
    rw [List.append_nil] at hbreak
    rw [Rendering.add?_of_sum htrim hterm.keyword hbreak, sum?_term hterm, resolve?, L.resolveWithin?_written]
    rfl
  have hbreak (r : Rendering) :
      Rendering.add? Cpp.style store r " endl".toList = some { r with texts := ['\n'] :: r.texts } :=
    Rendering.add?_of_lineBreak (a := "endl".toList) (by decide) isTerm_endl.keyword (by decide) store r
  have hfold : [L.written ++ [' '], " endl".toList].foldlM (Rendering.add? Cpp.style store) ⟨[], []⟩ =
      some ⟨[], [['\n'], L.digits]⟩ := by
    rw [List.foldlM_cons, hliteral, Option.bind_eq_bind, Option.bind_some, List.foldlM_cons, hbreak]
    rfl
  have hnonempty : ¬ L.streamed.isEmpty = true := by simp [streamed]
  have htight := L.isArguments_streamed.tight
  unfold renderArguments?
  rw [show Text.trim L.streamed = L.streamed from htight.trim_eq, if_neg hnonempty]
  change Option.map _ (List.foldlM (Rendering.add? Cpp.style store) ⟨[], []⟩ (splitTopLevel ['<', '<'] L.streamed)) = _
  rw [hparts, hfold]
  simp [List.intercalate]

/-- Behind an even number of separators the literal is one argument and the line break another one. -/
theorem line_stream (heven : Even L.rest.length) :
    State.line (grammarOf .cpp) st (lineOf .cpp [(indent, printText .cpp L.streamed)]) = st.emit L.digits := by
  have hstatement : IsStatement L.streamed :=
    (L.isTerm_written heven).toIsStatement.between (z := " << ".toList) isTerm_endl.toIsStatement (by decide)
      (by decide)
  have hrecord : Text.asRecord (L.digits ++ ['\n']) = L.digits ++ ['\n'] := by
    rw [asRecord_eq, if_pos List.getLast?_concat]
  rw [line_lineOf (List.forall_mem_singleton.mpr (hstatement.printText .cpp)) fun h => by cases h]
  change State.statement (grammarOf .cpp) st (printText .cpp L.streamed) = _
  rw [hstatement.isArguments.statement_eq_emit (l := .cpp) (L.renderArguments?_streamed heven st.store)]
  unfold State.emit
  rw [hrecord, L.asRecord_digits]

/-- Behind an odd number of separators all arguments are one, with the semicolon, and nothing is printed. -/
theorem line_stream_open (hodd : ¬ Even L.rest.length) :
    State.line (grammarOf .cpp) st (lineOf .cpp [(indent, printText .cpp L.streamed)]) = st := by
  have hfront : ∀ r ∈ Reader.ofLine, r.Skips "cout << ".toList := by
    intro r hr
    have hspaced : ∀ r ∈ Reader.ofLine, "cout << ".toList.all r.ignores = true := by decide
    exact .of_ignores (hspaced r hr)
  have htail : mayFollow " << endl".toList = true := by decide
  have hopen := L.line_open hodd hfront (by decide) (by decide) htail indent st
  have hargs : IsArguments (L.written ++ " << endl;".toList) := L.isArguments_tail (by decide) (by decide)
  have hpasses {r : Reader} (hr : r ∈ Reader.ofArguments) : ∃ n, r.Passes {} (L.written ++ " << endl;".toList) n :=
    L.passes_open hodd (by decide) (List.mem_append_right _ hr)
  -- In the open quote neither the marks of the stream nor a plus sign cut anything, so all is one term.
  have hsum : sum? Cpp.style st.store (L.written ++ " << endl;".toList) = none := by
    obtain ⟨n, hplus⟩ := hpasses (r := .separator '+') (by simp [Reader.ofArguments])
    unfold sum?
    rw [splitTopLevel_of_passes hplus]
    dsimp only
    rw [show " << endl;".toList = " << endl".toList ++ [';'] from rfl, L.resolve?_semicolon htail]
  have hunknown : renderArguments? Cpp.style st.store (L.written ++ " << endl;".toList) = none := by
    refine renderArguments?_of_add? hargs ?_ fun r => ?_
    · rintro separator joiner ⟨⟩
      obtain ⟨n, hstream⟩ := hpasses (r := .separator '<') (by simp [Reader.ofArguments])
      exact splitTopLevel_of_passes hstream
    · rw [Rendering.add?_of_sum hargs.tight.trim_eq (L.keyword?_written _) (L.not_lineBreak _), hsum]
      rfl
  exact hopen.trans (hargs.statement_eq_self hunknown)

/-- What a stream of the literal does. -/
theorem lines_stream : st.lines (grammarOf .cpp) [lineOf .cpp [(indent, printText .cpp L.streamed)]] =
    if Even L.rest.length then st.emit L.digits else st := by
  change State.line _ st _ = _
  split
  · next heven => exact L.line_stream indent st heven
  · next hodd => exact L.line_stream_open indent st hodd

end Stream

theorem newline_notMem_declareText (x : Variable .cpp) : '\n' ∉ declareText x.name L.written := by
  simp [declareText, assignText, x.notMem_name (k := '\n') (by decide), L.notMem_written (k := '\n') (by decide)]

theorem newline_notMem_streamed : '\n' ∉ printText .cpp L.streamed :=
  fun h => (List.mem_append.mp h).elim (by decide) L.isArguments_streamed.oneLine

def shown : String :=
  if Even L.rest.length then String.ofList (L.digits ++ ['\n'])
  else "Program compiled and ran successfully with no output"

theorem output_of_lines {lines : List (List Char)} (h : ∀ line ∈ lines, '\n' ∉ line ∧ line.getLast? ≠ some '\r')
    {stdin : String} {budget : Budget} (htime : lines.length ≤ budget.checkpoints)
    (hrecords : ((State.start stdin).lines (grammarOf .cpp) lines).records =
      if Even L.rest.length then [L.digits ++ ['\n']] else []) :
    (scan .cpp (String.ofList (List.intercalate ['\n'] lines)) stdin budget).output = some L.shown := by
  rw [scan_output h .cpp stdin htime, hrecords, State.transcript, hrecords, shown]
  split
  · simp
  · rfl

end GroupedLiteral

theorem oneLine_lineOf {statement : List Char} (h : '\n' ∉ statement) (indent : Nat) :
    '\n' ∉ lineOf .cpp [(indent, statement)] ∧ (lineOf .cpp [(indent, statement)]).getLast? ≠ some '\r' := by
  have hline : lineOf .cpp [(indent, statement)] = List.replicate indent ' ' ++ statement ++ [';'] := by
    simp [lineOf, terminator]
  rw [hline]
  constructor
  · simp [h]
  · rw [List.getLast?_concat]
    decide

/-- A declaration of a variable with an integer whose digits are written in groups, and a print of the variable, print
the digits without the apostrophes if the number of apostrophes is even, and so does a stream of the integer itself. If
it is odd the declaration makes the variable unknown, and neither print prints anything. -/
theorem separators_come_in_pairs (L : GroupedLiteral) (x : Variable .cpp) (indent indent' : Nat) (stdin : String)
    {budget : Budget} (htime : 2 ≤ budget.checkpoints) :
    let declared := lineOf .cpp [(indent, declareText x.name L.written)]
    let printed := lineOf .cpp [(indent', printText .cpp x.name)]
    let streamed := lineOf .cpp [(indent, printText .cpp L.streamed)]
    (∀ st : State,
      st.lines (grammarOf .cpp) [declared, printed] =
          (if Even L.rest.length then
            State.emit { st with store := st.store.put x.name (.number L.digits) } L.digits
          else { st with store := st.store.forget x.name }) ∧
        st.lines (grammarOf .cpp) [streamed] = if Even L.rest.length then st.emit L.digits else st) ∧
      (scan .cpp (String.ofList (List.intercalate ['\n'] [declared, printed])) stdin budget).output = some L.shown ∧
      (scan .cpp (String.ofList (List.intercalate ['\n'] [streamed])) stdin budget).output = some L.shown := by
  intro declared printed streamed
  have hname := isStatement_printText .cpp x.isTerm_name
  refine ⟨fun st => ⟨L.lines_declare x indent st indent', L.lines_stream indent st⟩,
    L.output_of_lines ?_ htime ?_, L.output_of_lines ?_ (Nat.le_of_succ_le htime) ?_⟩
  · exact List.forall_mem_cons.mpr ⟨oneLine_lineOf (L.newline_notMem_declareText x) indent,
      List.forall_mem_singleton.mpr (oneLine_lineOf hname.oneLine indent')⟩
  · rw [L.lines_declare, ← L.asRecord_digits]
    split <;> rfl
  · exact List.forall_mem_singleton.mpr (oneLine_lineOf L.newline_notMem_streamed indent)
  · rw [L.lines_stream, ← L.asRecord_digits]
    split <;> rfl

/-- With two apostrophes both prints show the digits. -/
theorem two_separators_are_left_out :
    2 ≤ (Budget.ofMilliseconds 5000).checkpoints ∧
      (scan .cpp "int x = 12'345'678;\ncout << x;" "" (Budget.ofMilliseconds 5000)).output = some "12345678\n" ∧
      (scan .cpp "cout << 12'345'678 << endl;" "" (Budget.ofMilliseconds 5000)).output = some "12345678\n" := by
  let L : GroupedLiteral := ⟨['1', '2'], [['3', '4', '5'], ['6', '7', '8']], by simp⟩
  let x : Variable .cpp := ⟨'x', [], by decide, List.forall_mem_nil _, by decide⟩
  have htime : 2 ≤ (Budget.ofMilliseconds 5000).checkpoints := by decide
  obtain ⟨-, hdeclared, hstreamed⟩ := separators_come_in_pairs L x 0 0 "" htime
  have hshown : L.shown = "12345678\n" := by decide +kernel
  have hlines : String.ofList (List.intercalate ['\n']
      [lineOf .cpp [(0, declareText x.name L.written)], lineOf .cpp [(0, printText .cpp x.name)]]) =
        "int x = 12'345'678;\ncout << x;" := by
    decide +kernel
  have hline : String.ofList (List.intercalate ['\n'] [lineOf .cpp [(0, printText .cpp L.streamed)]]) =
      "cout << 12'345'678 << endl;" := by
    decide +kernel
  rw [hlines, hshown] at hdeclared
  rw [hline, hshown] at hstreamed
  exact ⟨htime, hdeclared, hstreamed⟩

/-- One apostrophe is enough to hide the rest of the line: nothing is printed. -/
theorem one_separator_hides_line :
    (scan .cpp "int main() \x7b\nint x = 1'000;\ncout << x;\n\x7d\n" "" (Budget.ofMilliseconds 5000)).output =
        some "Program compiled and ran successfully with no output" ∧
      (scan .cpp "int main() \x7b\ncout << 1'000 << endl;\n\x7d\n" "" (Budget.ofMilliseconds 5000)).output =
        some "Program compiled and ran successfully with no output" := by
  decide +kernel

end Snippet.Scan
