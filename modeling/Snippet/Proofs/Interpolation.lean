import Snippet.Proofs.VariableName

/-!
Templates. A template is written from pieces: a text, with its braces doubled, or the name of a variable in braces.
Filling it in gives the pieces one after the other, the texts as they are and the names as their values, wherever
braces of texts meet those of names. If one of the names has no value there is no text, and the print of the template
is passed over.
-/

namespace Snippet.Scan

/-- A name that may stand in braces: an identifier that begins with a letter and is no word for a value. -/
structure Placeholder where
  name : List Char
  isName_name : isName name = true
  letter : ∀ c ∈ name.head?, c.isAlpha = true
  not_word : literalWord? name = none

inductive Piece where
  | text (t : List Char)
  | value (x : Placeholder)

def doubledChar (c : Char) : List Char := if c == '{' || c == '}' then [c, c] else [c]

def doubled (t : List Char) : List Char := t.flatMap doubledChar

namespace Piece

def written : Piece → List Char
  | .text t => doubled t
  | .value x => '{' :: (x.name ++ ['}'])

def shown? (style : Style) (store : Store) : Piece → Option (List Char)
  | .text t => some t
  | .value x => (store.get? x.name).map (Literal.render style)

end Piece

def templateOf (pieces : List Piece) : List Char := pieces.flatMap Piece.written

def filled? (style : Style) (store : Store) (pieces : List Piece) : Option (List Char) :=
  (pieces.mapM (Piece.shown? style store)).map List.flatten

namespace Placeholder

variable (x : Placeholder)

theorem isLookedUp_name : IsLookedUp x.name := by
  refine ⟨x.isName_name, ?_, x.not_word⟩
  have hletter := x.letter
  cases hname : x.name with
  | nil => rfl
  | cons c rest =>
    rw [hname] at hletter
    exact number?_of_isAlpha (hletter c rfl) rest

theorem resolveWithin?_name (style : Style) (store : Store) (fuel : Nat) :
    resolveWithin? style store (fuel + 1) x.name = store.get? x.name :=
  resolveWithin?_of_isName x.isLookedUp_name style store fuel

/-- A name does not begin with a brace, so the brace in front of it is not doubled. -/
theorem exists_cons : ∃ c rest, x.name = c :: rest ∧ c ≠ '{' := by
  have hbrace : '{' ∉ x.name := notMem_of_isName x.isName_name (by decide)
  cases hname : x.name with
  | nil => exact absurd hname (isTerm_of_isName x.isName_name).ne_nil
  | cons c rest =>
    refine ⟨c, rest, rfl, ?_⟩
    rintro rfl
    exact hbrace (hname ▸ List.mem_cons_self)

end Placeholder

section Filling

variable {style : Style} {store : Store} {value? : List Char → Option Literal}

/-- A doubled brace stands for one brace, and every other character for itself. -/
theorem interpolate?_doubledChar (c : Char) (done rest : List Char) (fuel : Nat) :
    interpolate? style value? done (fuel + 1) (doubledChar c ++ rest) =
      interpolate? style value? (c :: done) fuel rest := by
  by_cases hopen : c = '{'
  · subst hopen
    rfl
  by_cases hclose : c = '}'
  · subst hclose
    rfl
  have hplain : doubledChar c = [c] := by simp [doubledChar, hopen, hclose]
  rw [hplain, List.singleton_append, interpolate?]
  all_goals intros; contradiction

/-- A text is passed with all its braces, whatever stands behind it. -/
theorem interpolate?_doubled (t done rest : List Char) (fuel : Nat) :
    interpolate? style value? done (fuel + t.length) (doubled t ++ rest) =
      interpolate? style value? (t.reverse ++ done) fuel rest := by
  induction t generalizing done with
  | nil => rfl
  | cons c t ih =>
    have hwritten : doubled (c :: t) ++ rest = doubledChar c ++ (doubled t ++ rest) := by
      simp [doubled, List.flatMap_cons]
    rw [hwritten, List.length_cons, ← Nat.add_assoc, interpolate?_doubledChar, ih, List.reverse_cons,
      List.append_assoc, List.singleton_append]

theorem length_le_doubled (t : List Char) : t.length ≤ (doubled t).length := by
  induction t with
  | nil => exact Nat.le_refl 0
  | cons c t ih =>
    have hchar : 1 ≤ (doubledChar c).length := by
      unfold doubledChar
      split <;> simp
    have hlength : (doubled (c :: t)).length = (doubledChar c).length + (doubled t).length := by
      simp [doubled, List.flatMap_cons]
    rw [hlength, List.length_cons]
    omega

theorem splitColon_name (x : Placeholder) : splitColon x.name = (x.name, []) := by
  have hcolon : ∀ c ∈ x.name, (c != ':') = true := fun c hc =>
    bne_iff_ne.mpr (ne_of_isNameChar (isNameChar_of_isName x.isName_name hc) (by decide))
  unfold splitColon
  rw [List.takeWhile_eq_self_iff.mpr hcolon, List.dropWhile_eq_nil_iff.mpr hcolon, List.drop_nil]

/-- A name in braces is filled in with its value. -/
theorem interpolate?_name (x : Placeholder) (done rest : List Char) (fuel : Nat) :
    interpolate? style value? done (fuel + 1) ('{' :: (x.name ++ '}' :: rest)) =
      (value? x.name).bind fun v =>
        interpolate? style value? ((v.render style).reverse ++ done) fuel rest := by
  have hinside : ∀ c ∈ x.name, (c != '}') = true := fun c hc =>
    bne_iff_ne.mpr (ne_of_isNameChar (isNameChar_of_isName x.isName_name hc) (by decide))
  have hregion : (x.name ++ '}' :: rest).takeWhile (· != '}') = x.name := by
    rw [List.takeWhile_append_of_pos hinside, List.takeWhile_cons_of_neg (by decide), List.append_nil]
  have hbehind : (x.name ++ '}' :: rest).dropWhile (· != '}') = '}' :: rest := by
    rw [List.dropWhile_append_of_pos hinside, List.dropWhile_cons_of_neg (by decide)]
  rw [interpolate?]
  · rw [hregion, splitColon_name, hbehind]
    dsimp only
    cases value? x.name with
    | none => rfl
    | some v => rfl
  · obtain ⟨c, more, hname, hbrace⟩ := x.exists_cons
    intro rest' h
    rw [hname] at h
    exact hbrace (List.cons.inj h).1

theorem filled?_cons (piece : Piece) (pieces : List Piece) :
    filled? style store (piece :: pieces) =
      (piece.shown? style store).bind fun shown => (filled? style store pieces).map (shown ++ ·) := by
  unfold filled?
  rw [List.mapM_cons]
  cases piece.shown? style store with
  | none => rfl
  | some shown => cases pieces.mapM (Piece.shown? style store) <;> rfl

/-- Filling in goes on from piece to piece; by induction on the pieces. -/
theorem interpolate?_templateOf (hvalue : ∀ x : Placeholder, value? x.name = store.get? x.name)
    (pieces : List Piece) (done : List Char) (fuel : Nat) (hfuel : (templateOf pieces).length < fuel) :
    interpolate? style value? done fuel (templateOf pieces) =
      (filled? style store pieces).map (done.reverse ++ ·) := by
  -- The induction is on the pieces; each one takes the rounds that its text has characters.
  induction pieces generalizing done fuel with
  | nil =>
    obtain ⟨fuel, rfl⟩ := Nat.exists_eq_add_of_lt hfuel
    simp [templateOf, interpolate?, filled?]
  | cons piece pieces ih =>
    have htemplate : templateOf (piece :: pieces) = piece.written ++ templateOf pieces := List.flatMap_cons
    rw [htemplate, List.length_append] at hfuel
    rw [htemplate, filled?_cons]
    cases piece with
    | text t =>
      have hlength : t.length ≤ (Piece.text t).written.length := length_le_doubled t
      obtain ⟨more, rfl⟩ : ∃ more, fuel = more + t.length := ⟨fuel - t.length, by omega⟩
      change interpolate? style value? done (more + t.length) (doubled t ++ templateOf pieces) = _
      rw [interpolate?_doubled, ih _ more (by omega)]
      cases filled? style store pieces <;> simp [Piece.shown?]
    | value x =>
      obtain ⟨more, rfl⟩ : ∃ more, fuel = more + 1 := ⟨fuel - 1, by omega⟩
      have hlength : 1 ≤ (Piece.value x).written.length := Nat.succ_pos _
      have hwritten : (Piece.value x).written ++ templateOf pieces =
          '{' :: (x.name ++ '}' :: templateOf pieces) := by
        simp [Piece.written]
      rw [hwritten, interpolate?_name, hvalue]
      cases hx : store.get? x.name with
      | none => simp [Piece.shown?, hx]
      | some v =>
        rw [Option.bind_some, ih _ more (by omega)]
        cases filled? style store pieces <;> simp [Piece.shown?, hx]

/-- All pieces are known exactly if all names have values. -/
theorem filled?_eq_none_iff (pieces : List Piece) :
    filled? style store pieces = none ↔ ∃ x, Piece.value x ∈ pieces ∧ store.get? x.name = none := by
  induction pieces with
  | nil => simp [filled?]
  | cons piece pieces ih =>
    rw [filled?_cons]
    cases piece with
    | text t => simp [Piece.shown?, ih]
    | value x =>
      cases hx : store.get? x.name with
      | none => simp [Piece.shown?, hx]
      | some v => simp [Piece.shown?, hx, ih]

end Filling

def templateLiteral (capital : Bool) (template : List Char) : List Char :=
  (if capital then 'F' else 'f') :: literalOf template

theorem mem_dropWhile {p : Char → Bool} {c : Char} {text : List Char} (hp : p c = false) (hc : c ∈ text) :
    c ∈ text.dropWhile p := by
  rw [← List.takeWhile_append_dropWhile (p := p) (l := text)] at hc
  rcases List.mem_append.mp hc with htake | hdrop
  · rw [List.mem_takeWhile_imp htake] at hp
    cases hp
  · exact hdrop

theorem mem_trim {c : Char} {text : List Char} (hc : Text.isBlank c = false) (h : c ∈ text) :
    c ∈ Text.trim text := by
  unfold Text.trim Text.trimEnd Text.dropEndWhile Text.trimStart
  rw [List.mem_reverse]
  exact mem_dropWhile hc (List.mem_reverse.mpr (mem_dropWhile hc h))

section Literals

variable (capital : Bool) (template : List Char)

/-- The quotes around a template are passed by every reader, and braces do not count inside of them. -/
theorem isTerm_templateLiteral : IsTerm (templateLiteral capital template) := by
  have hletter : isNameChar (if capital then 'F' else 'f') = true := by cases capital <;> rfl
  -- The letter in front of the quote is one of a name, which no reader looks at.
  have hplain {r : Reader} (hr : r ∈ Reader.ofLine ++ Reader.ofArguments) :
      r.Skips [if capital then 'F' else 'f'] :=
    .of_ignores (List.all_eq_true.mpr fun c hc =>
      ignores_of_isNameChar (List.mem_singleton.mp hc ▸ hletter) hr)
  have hliteral := isTerm_literalOf template
  have hlast : (templateLiteral capital template).getLast? = (literalOf template).getLast? :=
    List.getLast?_cons_of_ne_nil hliteral.ne_nil
  constructor
  · constructor
    · exact List.cons_ne_nil _ _
    · constructor
      · rintro c ⟨⟩
        exact isBlank_of_isNameChar hletter
      · rw [hlast]
        exact hliteral.tight.last
    · -- Neither the letter nor the literal behind it holds a newline.
      intro hmem
      rcases List.mem_cons.mp hmem with hletter' | hinside
      · cases capital <;> cases hletter'
      · exact hliteral.oneLine hinside
    · intro r hr
      exact (hplain (List.mem_append_left _ hr)).append (hliteral.inLine r hr)
    · rw [hlast]
      exact hliteral.last
  · intro r hr
    exact (hplain (List.mem_append_right _ hr)).append (hliteral.inArguments r hr)
  · -- In front of an equals sign stands the quote, which no name holds.
    unfold keyword?
    split
    · have hquote : '"' ∈ Text.trim ((templateLiteral capital template).takeWhile (· != '=')) := by
        apply mem_trim (by decide)
        cases capital <;> simp [templateLiteral, literalOf]
      have hname : isName (Text.trim ((templateLiteral capital template).takeWhile (· != '='))) = false := by
        rw [Bool.eq_false_iff]
        intro hname
        exact notMem_of_isName hname (by decide) hquote
      dsimp only
      rw [hname]
      rfl
    · rfl

/-- A template as a literal is its text with the pieces filled in. -/
theorem resolve?_templateLiteral {style : Style} (hstyle : style.interpolates = true) (store : Store)
    (pieces : List Piece) :
    resolve? style store (templateLiteral capital (templateOf pieces)) =
      (filled? style store pieces).map .text := by
  have hnonempty : ¬ (templateLiteral capital (templateOf pieces)).isEmpty = true := Bool.false_ne_true
  have hquoted : quoted? (templateLiteral capital (templateOf pieces)) = none := by cases capital <;> rfl
  have hletter : (style.interpolates &&
      ((if capital then 'F' else 'f') == 'f' || (if capital then 'F' else 'f') == 'F')) = true := by
    rw [hstyle]
    cases capital <;> rfl
  have hvalue (x : Placeholder) :
      resolveWithin? style store (templateLiteral capital (templateOf pieces)).length x.name = store.get? x.name :=
    x.resolveWithin?_name style store _
  have hfilled : interpolate? style (resolveWithin? style store (templateLiteral capital (templateOf pieces)).length) []
      ((templateOf pieces).length + 1) (templateOf pieces) = (filled? style store pieces).map ([].reverse ++ ·) :=
    interpolate?_templateOf hvalue pieces [] _ (Nat.lt_succ_self _)
  unfold resolve?
  rw [resolveWithin?, (isTerm_templateLiteral capital (templateOf pieces)).tight.trim_eq]
  dsimp only
  rw [if_neg hnonempty, hquoted]
  dsimp only
  unfold templateLiteral at hfilled ⊢
  dsimp only
  rw [if_pos hletter, quoted?_literalOf]
  dsimp only
  rw [unescape_escaped, hfilled, Option.map_map]
  rfl

end Literals

/-- A template is filled in with its pieces, one after the other: with the texts as they are and with the values
of the names. If one of the names has no value it is not filled in. A print of it shows what it is filled in with,
or does nothing at all. -/
theorem template_is_filled_in (pieces : List Piece) :
    (∀ style store,
      interpolate? style (resolve? style store) [] ((templateOf pieces).length + 1) (templateOf pieces) =
          filled? style store pieces ∧
        (filled? style store pieces = none ↔ ∃ x, Piece.value x ∈ pieces ∧ store.get? x.name = none)) ∧
      ∀ (capital : Bool) (spaces : Nat) (st : State),
        State.line (grammarOf .python) st (lineOf .python
            [(spaces, printText .python (templateLiteral capital (templateOf pieces)))]) =
          match filled? Python.style st.store pieces with
          | some shown => st.emit shown
          | none => st := by
  constructor
  · intro style store
    refine ⟨?_, filled?_eq_none_iff pieces⟩
    have hvalue : ∀ x : Placeholder, resolve? style store x.name = store.get? x.name := fun x =>
      x.resolveWithin?_name style store x.name.length
    rw [interpolate?_templateOf hvalue pieces [] _ (Nat.lt_succ_self _)]
    cases filled? style store pieces <;> rfl
  · intro capital spaces st
    have hterm := isTerm_templateLiteral capital (templateOf pieces)
    have hstatement : ∀ s ∈ [(spaces, printText .python (templateLiteral capital (templateOf pieces)))],
        IsStatement s.2 := List.forall_mem_singleton.mpr (isStatement_printText .python hterm)
    have hshown : renderArguments? (grammarOf .python).style st.store
        (templateLiteral capital (templateOf pieces)) = filled? Python.style st.store pieces := by
      rw [renderArguments?_term hterm]
      · change (resolve? Python.style st.store _).map (Literal.render Python.style) = _
        rw [resolve?_templateLiteral capital rfl, Option.map_map]
        cases filled? Python.style st.store pieces <;> rfl
      · rintro ⟨⟩
    rw [line_lineOf hstatement fun _ => Nat.le_refl 1]
    refine (statement_print (l := .python) hterm st).trans ?_
    -- The statement prints what the arguments are rendered to, or nothing if they are not.
    generalize renderArguments? (grammarOf .python).style st.store
      (templateLiteral capital (templateOf pieces)) = shown at hshown ⊢
    subst hshown
    cases filled? Python.style st.store pieces <;> rfl

end Snippet.Scan
