import Snippet.Script.Lexer

/-!
The lines of a source. The tokens of a text, and whatever is wrong with it, stand on lines of the text, and
the source of a substitution has no more lines than the text it stands in.
-/

namespace Snippet.Script

def newlines (s : List Char) : Nat := s.count '\n'

def lineCount (s : List Char) : Nat := 1 + newlines s

theorem newlines_le_of_sublist {s t : List Char} (h : s.Sublist t) : newlines s ≤ newlines t :=
  h.count_le '\n'

def Here.lastLine (h : Here) : Nat := h.line + newlines h.rest

structure Here.Leads (h h' : Here) : Prop where
  line : h.line ≤ h'.line
  rest : h'.lastLine ≤ h.lastLine

structure Here.Has (h : Here) (e : SyntaxFault) : Prop where
  first : h.line ≤ e.line
  last : e.line ≤ h.lastLine

/-- A substitution of at most `n` lines. -/
def Chunk.Fits (n : Nat) : Chunk → Prop
  | .text _ => True
  | .code s => lineCount s.toList ≤ n

/-- A token whose substitutions have at most `n` lines. -/
def Token.Fits (n : Nat) : Token → Prop
  | .template chunks => ∀ c ∈ chunks, c.Fits n
  | _ => True

def Lexes {α : Type} (P : α → Prop) (h : Here) : Lexed α → Prop
  -- What reading from a place comes to: something that satisfies a condition, at a later place, or
  -- a fault on a line in between.
  | .ok (a, h') => P a ∧ h.Leads h'
  | .error e => h.Has e

namespace Here

theorem Leads.refl (h : Here) : h.Leads h := ⟨Nat.le_refl _, Nat.le_refl _⟩

theorem Leads.trans {h h' h'' : Here} (h₁ : h.Leads h') (h₂ : h'.Leads h'') : h.Leads h'' :=
  ⟨Nat.le_trans h₁.line h₂.line, Nat.le_trans h₂.rest h₁.rest⟩

theorem Leads.has {h h' : Here} {e : SyntaxFault} (h₁ : h.Leads h') (h₂ : h'.Has e) : h.Has e :=
  ⟨Nat.le_trans h₁.line h₂.first, Nat.le_trans h₂.last h₁.rest⟩

theorem Leads.lineCount_le {h h' : Here} (h₁ : h.Leads h') :
    lineCount h'.rest ≤ lineCount h.rest := by
  have hline := h₁.line
  have hlast := h₁.rest
  unfold lastLine at hlast
  unfold lineCount
  omega

theorem has_fail (h : Here) (e : SyntaxError) : h.Has ⟨e, h.line⟩ :=
  ⟨Nat.le_refl _, Nat.le_add_right _ _⟩

/-- Leaving something out on the same line leads to a later place. -/
theorem leads_of_sublist {s t : List Char} (hs : s.Sublist t) (line : Nat) :
    (⟨t, line⟩ : Here).Leads ⟨s, line⟩ :=
  ⟨Nat.le_refl _, Nat.add_le_add_left (newlines_le_of_sublist hs) line⟩

theorem lineAfter_eq (c : Char) (line : Nat) : lineAfter c line = line + newlines [c] := by
  unfold lineAfter newlines
  rw [List.count_singleton]
  split <;> simp_all

theorem newlines_append (s t : List Char) : newlines (s ++ t) = newlines s + newlines t :=
  List.count_append

theorem newlines_cons (c : Char) (s : List Char) : newlines (c :: s) = newlines [c] + newlines s :=
  newlines_append [c] s

/-- A character further on. -/
theorem leads_cons (c : Char) (rest : List Char) (line : Nat) :
    (⟨c :: rest, line⟩ : Here).Leads ⟨rest, lineAfter c line⟩ := by
  refine ⟨?_, ?_⟩
  · rw [lineAfter_eq]
    exact Nat.le_add_right _ _
  · unfold lastLine
    rw [lineAfter_eq, newlines_cons c rest]
    dsimp only
    omega

theorem lineAfterText_eq (s : List Char) (line : Nat) : lineAfterText s line = line + newlines s := by
  induction s generalizing line with
  | nil => rfl
  | cons c rest ih =>
    change lineAfterText rest (lineAfter c line) = _
    rw [ih, lineAfter_eq, newlines_cons c rest, Nat.add_assoc]

theorem leads_skip (h : Here) (n : Nat) : h.Leads (h.skip n) := by
  refine ⟨?_, ?_⟩
  · unfold skip
    rw [lineAfterText_eq]
    exact Nat.le_add_right _ _
  · have hrest : newlines (h.rest.take n) + newlines (h.rest.drop n) = newlines h.rest := by
      rw [← newlines_append, List.take_append_drop]
    unfold lastLine skip
    rw [lineAfterText_eq]
    dsimp only
    omega

end Here

namespace Lexes

variable {α : Type} {P : α → Prop} {h h' : Here}

theorem trans {r : Lexed α} (hlead : h.Leads h') (hr : Lexes P h' r) : Lexes P h r := by
  cases r with
  | ok result => exact ⟨hr.1, hlead.trans hr.2⟩
  | error e => exact hlead.has hr

theorem fail (h : Here) (e : SyntaxError) : Lexes P h (h.fail e) := h.has_fail e

/-- A token that is no template, behind which the text goes on in the same line. -/
theorem ok_of_sublist {a : α} {s t : List Char} {line : Nat} (ha : P a) (hs : s.Sublist t) :
    Lexes P ⟨t, line⟩ (.ok (a, ⟨s, line⟩)) :=
  ⟨ha, Here.leads_of_sublist hs line⟩

end Lexes

-- The readers of the parts of a text. Each of them leads to a later place.

/-- What is left behind the digits of a number was part of the text. -/
theorem sublist_takeDecimal (part : DecimalPart) (done s : List Char) :
    (takeDecimal part done s).2.Sublist s := by
  induction s generalizing part done with
  | nil => exact List.Sublist.refl _
  | cons c rest ih =>
    unfold takeDecimal
    split
    · exact (ih _ _).trans (List.sublist_cons_self c rest)
    · exact List.Sublist.refl _

theorem lexes_decimal (n : Nat) (h : Here) : Lexes (Token.Fits n) h (lexDecimal h) := by
  unfold lexDecimal
  dsimp only
  split
  · exact Lexes.ok_of_sublist trivial (sublist_takeDecimal _ _ _)
  · exact Lexes.fail _ _

theorem lexes_radix (n radix : Nat) (h : Here) : Lexes (Token.Fits n) h (lexRadix radix h) := by
  have hafter := Here.leads_of_sublist
    (List.dropWhile_sublist (l := h.rest) (isRadixDigit radix)) h.line
  unfold lexRadix
  dsimp only
  split
  · exact ⟨trivial, hafter⟩
  · exact Lexes.trans hafter (Lexes.fail _ _)

theorem lexes_number (n : Nat) (h : Here) : Lexes (Token.Fits n) h (lexNumber h) := by
  obtain ⟨text, line⟩ := h
  unfold lexNumber
  dsimp only
  split
  · split
    · refine Lexes.trans (Here.leads_of_sublist ?_ line) (lexes_radix n _ _)
      exact (List.sublist_cons_self _ _).trans (List.sublist_cons_self _ _)
    · exact lexes_decimal n _
  · exact lexes_decimal n _

theorem lexes_code (n : Nat) (h : Here) : Lexes (fun _ => True) h (lexCode n h) := by
  unfold lexCode
  dsimp only
  split
  · exact ⟨trivial, h.leads_skip n⟩
  · exact Lexes.trans (h.leads_skip n) (Lexes.fail _ _)

theorem lexes_bracedCode (h : Here) : Lexes (fun _ => True) h (lexBracedCode h) := by
  unfold lexBracedCode
  dsimp only
  split
  · exact ⟨trivial, h.leads_skip _⟩
  · exact Lexes.trans (h.leads_skip _) (Lexes.fail _ _)

/-- The code of an escape without braces. -/
theorem lexEscape_long {rest : List Char} (hbrace : rest.head? ≠ some '{') (line : Nat) :
    lexEscape ⟨'u' :: rest, line⟩ = lexCode 4 ⟨rest, line⟩ := by
  unfold lexEscape
  dsimp only
  simp only [Char.reduceBEq, Bool.false_eq_true, if_false, if_true]
  split
  · exact absurd rfl hbrace
  · rfl

/-- An escape is on the lines of the text, and so is what is wrong with it. -/
theorem lexes_escape (h : Here) : Lexes (fun _ => True) h (lexEscape h) := by
  obtain ⟨text, line⟩ := h
  cases text with
  | nil => exact Lexes.fail _ _
  | cons c rest =>
    apply Lexes.trans (Here.leads_cons c rest line)
    unfold lexEscape
    dsimp only
    -- An escape stands for one character, or names one by digits, with or without braces around them.
    repeat' split
    all_goals first
      | exact ⟨trivial, Here.Leads.refl _⟩
      | exact lexes_code _ _
      | exact Lexes.trans (Here.leads_of_sublist (List.sublist_cons_self _ _) _) (lexes_bracedCode _)

/-- A string keeps to the lines of the text, also where it breaks off. -/
theorem lexes_string (n : Nat) (quote : Char) (done : List Char) (fuel : Nat) (h : Here) :
    Lexes (Token.Fits n) h (lexStringFrom quote done fuel h) := by
  induction fuel generalizing done h with
  | zero => exact Lexes.fail _ _
  | succ fuel ih =>
    obtain ⟨text, line⟩ := h
    cases text with
    | nil => exact Lexes.fail _ _
    | cons c rest =>
      apply Lexes.trans (Here.leads_cons c rest line)
      unfold lexStringFrom
      dsimp only
      split
      · have hescape := lexes_escape ⟨rest, lineAfter c line⟩
        split
        · rename_i hr
          rw [hr] at hescape
          exact Lexes.trans hescape.2 (ih _ _)
        · rename_i hr
          rw [hr] at hescape
          exact hescape
      · repeat' split
        · exact ⟨trivial, Here.Leads.refl _⟩
        · exact Lexes.fail _ _
        · exact ih _ _

/-- What is taken from a text and kept has the newlines that the text loses. -/
theorem newlines_shift (c : Char) (done rest : List Char) :
    newlines (c :: done) + newlines rest = newlines done + newlines (c :: rest) := by
  have hdone := Here.newlines_cons c done
  have hrest := Here.newlines_cons c rest
  omega

/-- A literal that is passed over leads to a later place, and is kept. -/
theorem leads_passLiteral (quote : Char) (done : List Char) (line : Nat) (s : List Char) :
    (⟨s, line⟩ : Here).Leads (passLiteral quote done line s).2 ∧
      newlines (passLiteral quote done line s).1 + newlines (passLiteral quote done line s).2.rest ≤
        newlines done + newlines s := by
  fun_induction passLiteral quote done line s with
  | case1 done line => exact ⟨Here.Leads.refl _, Nat.le_refl _⟩
  | case2 done line =>
    exact ⟨Here.leads_of_sublist (List.nil_sublist _) line, Nat.le_of_eq (newlines_shift _ _ _)⟩
  | case3 done line e rest ih =>
    obtain ⟨hlead, hle⟩ := ih
    refine ⟨((Here.leads_cons '\\' _ line).trans (Here.leads_cons e rest line)).trans hlead, ?_⟩
    have hfirst := newlines_shift '\\' done (e :: rest)
    have hsecond := newlines_shift e ('\\' :: done) rest
    omega
  | case4 done line c rest _ _ hc =>
    refine ⟨Here.leads_of_sublist (List.sublist_cons_self c rest) line, ?_⟩
    exact Nat.le_of_eq (newlines_shift _ _ _)
  | case5 done line c rest _ _ hc ih =>
    obtain ⟨hlead, hle⟩ := ih
    refine ⟨(Here.leads_cons c rest line).trans hlead, ?_⟩
    have hshift := newlines_shift c done rest
    omega

/-- The source of a substitution has only newlines of the text that it is read from. -/
theorem lexes_codeFrom (n depth : Nat) (done : List Char) (fuel : Nat) (h : Here)
    (hn : 1 + newlines done + newlines h.rest ≤ n) :
    Lexes (fun code => lineCount code.toList ≤ n) h (lexCodeFrom depth done fuel h) := by
  induction fuel generalizing depth done h with
  | zero => exact Lexes.fail _ _
  | succ fuel ih =>
    obtain ⟨text, line⟩ := h
    cases text with
    | nil => exact Lexes.fail _ _
    | cons c rest =>
      -- The character that is kept is one that the text loses, so the bound stays what it is.
      have hshift := newlines_shift c done rest
      have hgo (depth : Nat) :
          Lexes (fun code => lineCount code.toList ≤ n) ⟨rest, lineAfter c line⟩
            (lexCodeFrom depth (c :: done) fuel ⟨rest, lineAfter c line⟩) := by
        apply ih
        dsimp only at hn ⊢
        omega
      apply Lexes.trans (Here.leads_cons c rest line)
      unfold lexCodeFrom
      dsimp only
      split
      · exact hgo _
      · split
        · split
          · -- The brace that closes the substitution: what was kept is its source, in reverse.
            refine ⟨?_, Here.Leads.refl _⟩
            change lineCount (String.ofList done.reverse).toList ≤ n
            rw [String.toList_ofList]
            unfold lineCount newlines
            unfold newlines at hn
            rw [List.count_reverse]
            dsimp only at hn
            omega
          · exact hgo _
        · split
          · obtain ⟨hlead, hle⟩ := leads_passLiteral c (c :: done) (lineAfter c line) rest
            apply Lexes.trans hlead
            apply ih
            dsimp only at hn
            omega
          · exact hgo _

theorem fits_flush {n : Nat} {text : List Char} {chunks : List Chunk}
    (hc : ∀ c ∈ chunks, c.Fits n) : ∀ c ∈ flush text chunks, c.Fits n := by
  unfold flush
  split
  · exact hc
  · intro c hmem
    obtain rfl | hmem := List.mem_cons.mp hmem
    · trivial
    · exact hc c hmem

/-- A template keeps to the lines of the text, and so does the source of each of its substitutions. -/
theorem lexes_template (n : Nat) (text : List Char) (chunks : List Chunk) (fuel : Nat) (h : Here)
    (hc : ∀ c ∈ chunks, c.Fits n) (hn : lineCount h.rest ≤ n) :
    Lexes (Token.Fits n) h (lexTemplateFrom text chunks fuel h) := by
  induction fuel generalizing text chunks h with
  | zero => exact Lexes.fail _ _
  | succ fuel ih =>
    -- Whatever is read next leads to a place from which the rest of the template is read.
    have hnext {h' : Here} (hlead : h.Leads h') (text : List Char) {chunks : List Chunk}
        (hc : ∀ c ∈ chunks, c.Fits n) : Lexes (Token.Fits n) h (lexTemplateFrom text chunks fuel h') :=
      Lexes.trans hlead (ih text chunks h' hc (Nat.le_trans hlead.lineCount_le hn))
    obtain ⟨rest, line⟩ := h
    unfold lexTemplateFrom
    dsimp only
    split
    · exact Lexes.fail _ _
    · -- A substitution, which becomes a chunk of its own.
      rename_i rest
      have hinside : (⟨'$' :: '{' :: rest, line⟩ : Here).Leads ⟨rest, line⟩ :=
        (Here.leads_cons '$' _ line).trans (Here.leads_cons '{' rest line)
      have hcode := lexes_codeFrom n 0 [] fuel ⟨rest, line⟩ (by
        exact Nat.le_trans hinside.lineCount_le hn)
      split
      · rename_i code h' hr
        rw [hr] at hcode
        apply hnext (hinside.trans hcode.2)
        intro c hmem
        obtain rfl | hmem := List.mem_cons.mp hmem
        · exact hcode.1
        · exact fits_flush hc c hmem
      · rename_i hr
        rw [hr] at hcode
        exact hinside.has hcode
    · rename_i c rest _
      have hcons := Here.leads_cons c rest line
      split
      · exact ⟨fun c hmem => fits_flush hc c (List.mem_reverse.mp hmem), hcons⟩
      · split
        · have hescape := lexes_escape ⟨rest, lineAfter c line⟩
          split
          · rename_i hr
            rw [hr] at hescape
            exact hnext (hcons.trans hescape.2) _ hc
          · rename_i hr
            rw [hr] at hescape
            exact hcons.has hescape
        · exact hnext hcons _ hc

theorem lexes_mark (n : Nat) (h : Here) : Lexes (Token.Fits n) h (lexMark h) := by
  unfold lexMark
  split
  · exact Lexes.ok_of_sublist trivial (List.drop_sublist _ _)
  · exact Lexes.fail _ _

/-- Every token keeps to the lines of the text. -/
theorem lexes_token {n : Nat} (fuel : Nat) {c : Char} {tail : List Char} (line : Nat)
    (hn : lineCount (c :: tail) ≤ n) :
    Lexes (Token.Fits n) ⟨c :: tail, line⟩ (lexToken fuel c tail line) := by
  have htail := Here.leads_of_sublist (List.sublist_cons_self c tail) line
  unfold lexToken
  dsimp only
  split
  · exact lexes_number n _
  · split
    · exact Lexes.trans htail (lexes_string n _ _ _ _)
    · split
      · refine Lexes.trans htail (lexes_template n _ _ _ _ nofun ?_)
        exact Nat.le_trans htail.lineCount_le hn
      · split
        · refine Lexes.ok_of_sublist trivial ?_
          exact (List.dropWhile_sublist _).trans (List.sublist_cons_self c tail)
        · exact lexes_mark n _

def Here.Passes (h : Here) : Except SyntaxFault Here → Prop
  | .ok h' => h.Leads h'
  | .error e => h.Has e

theorem Here.Passes.trans {h h' : Here} {r : Except SyntaxFault Here} (hlead : h.Leads h')
    (hr : h'.Passes r) : h.Passes r := by
  cases r with
  | ok h'' => exact Here.Leads.trans hlead hr
  | error e => exact hlead.has hr

theorem passes_afterComment (line : Nat) (s : List Char) :
    (⟨s, line⟩ : Here).Passes (afterComment line s) := by
  fun_induction afterComment line s with
  | case1 line => exact Here.has_fail ⟨[], line⟩ _
  | case2 line rest => exact (Here.leads_cons '*' _ line).trans (Here.leads_cons '/' rest line)
  | case3 line c rest _ ih => exact Here.Passes.trans (Here.leads_cons c rest line) ih

/-- Passing blanks and comments counts the newlines in them. -/
theorem passes_skipTrivia (fuel : Nat) (h : Here) : h.Passes (skipTrivia fuel h) := by
  induction fuel generalizing h with
  | zero => exact h.has_fail _
  | succ fuel ih =>
    obtain ⟨text, line⟩ := h
    unfold skipTrivia
    dsimp only
    split
    · -- A comment up to the end of the line does not take the newline with it.
      rename_i rest
      refine Here.Passes.trans (Here.leads_of_sublist ?_ line) (ih _)
      refine (List.dropWhile_sublist _).trans ?_
      exact (List.sublist_cons_self _ _).trans (List.sublist_cons_self _ _)
    · rename_i rest
      have hcomment := passes_afterComment line rest
      have hinside : (⟨'/' :: '*' :: rest, line⟩ : Here).Leads ⟨rest, line⟩ :=
        (Here.leads_cons '/' _ line).trans (Here.leads_cons '*' rest line)
      split
      · rename_i hr
        rw [hr] at hcomment
        exact Here.Passes.trans (hinside.trans hcomment) (ih _)
      · rename_i hr
        rw [hr] at hcomment
        exact hinside.has hcomment
    · split
      · exact Here.Passes.trans (Here.leads_cons _ _ line) (ih _)
      · exact Here.Leads.refl _
    · exact Here.Leads.refl _

/-- A fault on one of the first `n` lines. -/
structure SyntaxFault.Within (n : Nat) (e : SyntaxFault) : Prop where
  first : 1 ≤ e.line
  last : e.line ≤ n

/-- A token on one of the first `n` lines, whose substitutions have no more lines than that. -/
structure Placed.Within (n : Nat) (t : Placed) : Prop where
  first : 1 ≤ t.line
  last : t.line ≤ n
  token : t.token.Fits n

theorem Token.Fits.mono {n n' : Nat} {t : Token} (h : t.Fits n) (hn : n ≤ n') : t.Fits n' := by
  cases t with
  | template chunks =>
    intro c hc
    cases c with
    | text s => trivial
    | code s => exact Nat.le_trans (h _ hc) hn
  | _ => trivial

theorem SyntaxFault.Within.mono {n n' : Nat} {e : SyntaxFault} (h : e.Within n) (hn : n ≤ n') :
    e.Within n' :=
  ⟨h.first, Nat.le_trans h.last hn⟩

theorem Placed.Within.mono {n n' : Nat} {t : Placed} (h : t.Within n) (hn : n ≤ n') : t.Within n' :=
  ⟨h.first, Nat.le_trans h.last hn, h.token.mono hn⟩

/-- A place in a text of `n` lines. -/
structure Here.Within (n : Nat) (h : Here) : Prop where
  first : 1 ≤ h.line
  last : h.lastLine ≤ n

namespace Here.Within

variable {n : Nat} {h h' : Here}

theorem leads (hw : h.Within n) (hlead : h.Leads h') : h'.Within n :=
  ⟨Nat.le_trans hw.first hlead.line, Nat.le_trans hlead.rest hw.last⟩

theorem fault (hw : h.Within n) {e : SyntaxFault} (he : h.Has e) : e.Within n :=
  ⟨Nat.le_trans hw.first he.first, Nat.le_trans he.last hw.last⟩

theorem token (hw : h.Within n) {t : Token} (ht : t.Fits n) : (⟨t, h.line⟩ : Placed).Within n :=
  ⟨hw.first, Nat.le_trans (Nat.le_add_right _ _) hw.last, ht⟩

theorem lineCount_le (hw : h.Within n) : lineCount h.rest ≤ n := by
  have hlast := hw.last
  have hfirst := hw.first
  unfold lastLine at hlast
  unfold lineCount
  omega

end Here.Within

/-- What cutting a text of `n` lines into tokens comes to. -/
def Tokenizes (n : Nat) : Except SyntaxFault (List Placed) → Prop
  | .ok tokens => tokens ≠ [] ∧ ∀ t ∈ tokens, t.Within n
  | .error e => e.Within n

theorem tokenizes_stop {n : Nat} {done : List Placed} {h : Here} (hw : h.Within n)
    (hdone : ∀ t ∈ done, t.Within n) : Tokenizes n (.ok (⟨.stop, h.line⟩ :: done).reverse) := by
  refine ⟨by simp, fun t ht => ?_⟩
  obtain rfl | ht := List.mem_cons.mp (List.mem_reverse.mp ht)
  · exact hw.token trivial
  · exact hdone t ht

/-- Cutting a text into tokens keeps to its lines in every round. -/
theorem tokenizes_from {n : Nat} {done : List Placed} {fuel : Nat} {h : Here} (hw : h.Within n)
    (hdone : ∀ t ∈ done, t.Within n) : Tokenizes n (tokensFrom done fuel h) := by
  induction fuel generalizing done h with
  | zero => exact hw.fault (h.has_fail _)
  | succ fuel ih =>
    -- Blanks, comments and a token lead to another place in the text, from which the rest is cut.
    have hskip := passes_skipTrivia (fuel + 1) h
    unfold tokensFrom
    split
    · rename_i hr
      rw [hr] at hskip
      exact hw.fault hskip
    · rename_i h' hr
      rw [hr] at hskip
      have hw' := hw.leads hskip
      obtain ⟨text, line⟩ := h'
      cases text with
      | nil => exact tokenizes_stop hw' hdone
      | cons c tail =>
        have htoken := lexes_token (fuel + 1) line hw'.lineCount_le
        dsimp only
        split
        · rename_i hr
          rw [hr] at htoken
          exact hw'.fault htoken
        · rename_i token after hr
          rw [hr] at htoken
          refine ih (hw'.leads htoken.2) fun t ht => ?_
          obtain rfl | ht := List.mem_cons.mp ht
          · exact hw'.token htoken.1
          · exact hdone t ht

/-- The tokens of a text, of which there is at least one, stand on its lines, and so does what is wrong
with it. -/
theorem tokenizes (text : List Char) : Tokenizes (lineCount text) (tokenize text) :=
  tokenizes_from ⟨Nat.le_refl 1, Nat.le_refl _⟩ nofun

end Snippet.Script
