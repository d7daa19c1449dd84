import Snippet.Proofs.SourceLine

/-!
How cutting a text into tokens goes on. A round of any of its loops ends the loop or leaves fewer characters
than there were, so no loop runs out of rounds, and how many there could have been makes no difference. The
tokens of a text are followed by its end.
-/

namespace Snippet.Script

def ComesTo {α : Type} (P : α → Prop) : Except SyntaxFault α → Prop
  | .ok a => P a
  | .error e => e.error ≠ .exhausted

theorem ComesTo.imp {α : Type} {P Q : α → Prop} {r : Except SyntaxFault α} (h : ComesTo P r)
    (hPQ : ∀ a, P a → Q a) : ComesTo Q r := by
  cases r with
  | ok a => exact hPQ a h
  | error e => exact h

def Here.LeavesOf (text : List Char) (h : Here) : Prop := h.rest <:+ text

def LeavesOf {α : Type} (text : List Char) (x : α × Here) : Prop := x.2.rest <:+ text

def IsToken (text : List Char) (x : Token × Here) : Prop := x.1 ≠ .stop ∧ x.2.rest <:+ text

section Rounds

variable {σ ρ : Type}

/-- Each round of a loop ends it, or the loop goes on in a rest of the text with fewer characters. Neither
depends on the number of rounds that are left, if they are not fewer than the characters. -/
def RoundsAdvance (P : List Char → ρ → Prop) (loop : Nat → σ → Here → Except SyntaxFault ρ) : Prop :=
  ∀ a h, (∃ r, ComesTo (P h.rest) r ∧ ∀ n, h.rest.length ≤ n → loop (n + 1) a h = r) ∨
    ∃ a' h', h'.rest <:+ h.rest ∧ h'.rest.length < h.rest.length ∧
      ∀ n, h.rest.length ≤ n → loop (n + 1) a h = loop n a' h'

variable {P : List Char → ρ → Prop} {loop : Nat → σ → Here → Except SyntaxFault ρ}

/-- A loop ends by itself if it may have a round for each character and one more; by induction on their
number. -/
theorem RoundsAdvance.run (hloop : RoundsAdvance P loop)
    (hP : ∀ s t x, s <:+ t → P s x → P t x) {n : Nat} (a : σ) {h : Here} (hn : h.rest.length < n) :
    ComesTo (P h.rest) (loop n a h) ∧ loop n a h = loop (h.rest.length + 1) a h := by
  induction n using Nat.strongRecOn generalizing a h with
  | ind n ih =>
    obtain ⟨k, rfl⟩ := Nat.exists_eq_succ_of_ne_zero (Nat.ne_of_gt (Nat.zero_lt_of_lt hn))
    have hk : h.rest.length ≤ k := Nat.le_of_lt_succ hn
    obtain ⟨r, hr, hends⟩ | ⟨a', h', hsuffix, hless, hgoes⟩ := hloop a h
    · rw [Nat.succ_eq_add_one, hends k hk, hends h.rest.length (Nat.le_refl _)]
      exact ⟨hr, rfl⟩
    · have hrun := ih k (Nat.lt_succ_self k) a' (Nat.lt_of_lt_of_le hless hk)
      have hleast := ih h.rest.length (Nat.lt_of_le_of_lt hk (Nat.lt_succ_self k)) a' hless
      rw [Nat.succ_eq_add_one, hgoes k hk, hgoes h.rest.length (Nat.le_refl _), hrun.2, hleast.2]
      exact ⟨(hrun.2 ▸ hrun.1).imp fun x => hP _ _ x hsuffix, rfl⟩

theorem LeavesOf.mono {α : Type} (s t : List Char) (x : α × Here) (hst : s <:+ t) (hx : LeavesOf s x) :
    LeavesOf t x := List.IsSuffix.trans hx hst

theorem IsToken.mono (s t : List Char) (x : Token × Here) (hst : s <:+ t) (hx : IsToken s x) :
    IsToken t x := ⟨hx.1, hx.2.trans hst⟩

end Rounds

-- The readers of the parts of a text, each of which leaves characters further on.

theorem suffix_takeDecimal (part : DecimalPart) (done s : List Char) :
    (takeDecimal part done s).2 <:+ s := by
  induction s generalizing part done with
  | nil => exact List.suffix_rfl
  | cons c rest ih =>
    unfold takeDecimal
    split
    · exact (ih _ _).trans (List.suffix_cons c rest)
    · exact List.suffix_rfl

theorem comesTo_radix (radix : Nat) (h : Here) : ComesTo (IsToken h.rest) (lexRadix radix h) := by
  unfold lexRadix
  dsimp only
  split
  · exact ⟨nofun, List.dropWhile_suffix _⟩
  · exact nofun

/-- A number that begins with a digit, or with a point in front of a digit, takes that character. -/
theorem comesTo_decimal {c : Char} {tail : List Char} (line : Nat)
    (hc : (c.isDigit || c == '.' && startsWithDigit tail) = true) :
    ComesTo (IsToken tail) (lexDecimal ⟨c :: tail, line⟩) := by
  have htake : (takeDecimal .whole [] (c :: tail)).2 <:+ tail := by
    have hnext : ∃ part, DecimalPart.whole.next? c = some part := by
      unfold DecimalPart.next?
      by_cases hd : c.isDigit = true
      · rw [hd]
        exact ⟨_, rfl⟩
      · rw [Bool.not_eq_true] at hd
        rw [hd, Bool.false_or, Bool.and_eq_true] at hc
        obtain rfl := eq_of_beq hc.1
        exact ⟨_, rfl⟩
    obtain ⟨part, hpart⟩ := hnext
    unfold takeDecimal
    rw [hpart]
    exact suffix_takeDecimal _ _ _
  unfold lexDecimal
  dsimp only
  split
  · exact ⟨by rintro ⟨⟩, htake⟩
  · rintro ⟨⟩

/-- A number takes at least one character. -/
theorem comesTo_number {c : Char} {tail : List Char} (line : Nat)
    (hc : (c.isDigit || c == '.' && startsWithDigit tail) = true) :
    ComesTo (IsToken tail) (lexNumber ⟨c :: tail, line⟩) := by
  unfold lexNumber
  dsimp only
  split
  · rename_i d rest heq
    obtain ⟨rfl, rfl⟩ := List.cons.inj heq
    split
    · exact (comesTo_radix _ ⟨rest, line⟩).imp fun x hx => hx.mono _ _ _ (List.suffix_cons d rest)
    · exact comesTo_decimal line hc
  · exact comesTo_decimal line hc

theorem comesTo_code (n : Nat) (h : Here) : ComesTo (LeavesOf h.rest) (lexCode n h) := by
  unfold lexCode
  dsimp only
  split
  · exact List.drop_suffix _ _
  · exact nofun

theorem comesTo_bracedCode (h : Here) : ComesTo (LeavesOf h.rest) (lexBracedCode h) := by
  unfold lexBracedCode
  dsimp only
  split
  · exact List.drop_suffix _ _
  · exact nofun

/-- An escape takes characters from the front of the text, or there is a fault. -/
theorem comesTo_escape (h : Here) : ComesTo (LeavesOf h.rest) (lexEscape h) := by
  obtain ⟨text, line⟩ := h
  cases text with
  | nil => exact nofun
  | cons c rest =>
    refine ComesTo.imp (P := LeavesOf rest) ?_ fun x hx => hx.mono _ _ _ (List.suffix_cons c rest)
    unfold lexEscape
    dsimp only
    repeat' split
    all_goals first
      | exact List.suffix_rfl
      | exact comesTo_code _ ⟨rest, _⟩
      | exact (comesTo_bracedCode _).imp fun x hx => hx.mono _ _ _ (List.suffix_cons _ _)

theorem suffix_passLiteral (quote : Char) (done : List Char) (line : Nat) (s : List Char) :
    (passLiteral quote done line s).2.rest <:+ s := by
  fun_induction passLiteral quote done line s with
  | case1 => exact List.suffix_rfl
  | case2 => exact List.nil_suffix
  | case3 done line e rest ih => exact ih.trans ((List.suffix_cons e rest).trans (List.suffix_cons _ _))
  | case4 done line c rest => exact List.suffix_cons c rest
  | case5 done line c rest _ _ _ ih => exact ih.trans (List.suffix_cons c rest)

/-- Every mark has a character. -/
theorem comesTo_mark (c : Char) (tail : List Char) (line : Nat) :
    ComesTo (IsToken tail) (lexMark ⟨c :: tail, line⟩) := by
  unfold lexMark
  dsimp only
  split
  · rename_i mark hmark
    have hmem : mark ∈ marks := List.mem_of_find?_eq_some hmark
    have hlength : ∀ m ∈ marks, ∃ k, m.length = k + 1 := by
      have hpos : ∀ m ∈ marks, m.length ≠ 0 := by decide
      exact fun m hm => Nat.exists_eq_succ_of_ne_zero (hpos m hm)
    obtain ⟨k, hk⟩ := hlength mark hmem
    rw [hk]
    exact ⟨nofun, List.drop_suffix k tail⟩
  · exact nofun

theorem comesTo_afterComment (line : Nat) (s : List Char) :
    ComesTo (Here.LeavesOf s) (afterComment line s) := by
  fun_induction afterComment line s with
  | case1 => rintro ⟨⟩
  | case2 line rest => exact (List.suffix_cons '/' rest).trans (List.suffix_cons '*' _)
  | case3 line c rest _ ih => exact ih.imp fun h hh => hh.trans (List.suffix_cons c rest)

/-- A comment that is closed is passed. -/
theorem skipTrivia_block (n : Nat) (rest : List Char) (line : Nat) :
    skipTrivia (n + 1) ⟨'/' :: '*' :: rest, line⟩ = afterComment line rest >>= skipTrivia n := by
  unfold skipTrivia
  split
  · next heq => cases heq
  · next heq =>
    obtain rfl := (List.cons.inj (List.cons.inj heq).2).2
    dsimp only
    cases afterComment line rest <;> rfl
  · next hno heq => exact (hno rest (List.cons.inj heq).1.symm (List.cons.inj heq).2.symm).elim
  · next heq => cases heq

/-- A character that begins no comment is passed if it is a blank. -/
theorem skipTrivia_char {c : Char} {rest : List Char} (hline : ¬ ∃ tail, c :: rest = '/' :: '/' :: tail)
    (hblock : ¬ ∃ tail, c :: rest = '/' :: '*' :: tail) (n line : Nat) :
    skipTrivia (n + 1) ⟨c :: rest, line⟩ =
      if Text.isBlank c then skipTrivia n ⟨rest, lineAfter c line⟩ else .ok ⟨c :: rest, line⟩ := by
  rw [skipTrivia]
  split
  · next heq => exact absurd ⟨_, heq⟩ hline
  · next heq => exact absurd ⟨_, heq⟩ hblock
  · next heq =>
    obtain ⟨rfl, rfl⟩ := List.cons.inj heq
    rfl
  · next heq => cases heq

/-- A round passes a comment or a blank, or nothing is left to be passed. -/
theorem trivia_rounds :
    RoundsAdvance Here.LeavesOf fun n (_ : Unit) h => skipTrivia n h := by
  rintro ⟨⟩ ⟨text, line⟩
  dsimp only
  -- A comment to the end of the line is passed as a whole.
  by_cases hline : ∃ rest, text = '/' :: '/' :: rest
  · obtain ⟨rest, rfl⟩ := hline
    have hafter : rest.dropWhile (· != '\n') <:+ rest := List.dropWhile_suffix _
    have hrest : rest <:+ '/' :: '/' :: rest := (List.suffix_cons '/' _).trans (List.suffix_cons '/' _)
    have hless : (rest.dropWhile (· != '\n')).length < ('/' :: '/' :: rest).length :=
      Nat.lt_of_le_of_lt hafter.length_le (Nat.lt_succ_of_lt (Nat.lt_succ_self _))
    exact Or.inr ⟨(), ⟨rest.dropWhile (· != '\n'), line⟩, hafter.trans hrest, hless, fun n _ => rfl⟩
  by_cases hblock : ∃ rest, text = '/' :: '*' :: rest
  · obtain ⟨rest, rfl⟩ := hblock
    have hrest : rest <:+ '/' :: '*' :: rest := (List.suffix_cons '*' _).trans (List.suffix_cons '/' _)
    have hcomment := comesTo_afterComment line rest
    -- A comment in a block is passed as a whole or is faulty.
    cases hafter : afterComment line rest with
    | ok h' =>
      rw [hafter] at hcomment
      refine Or.inr ⟨(), h', hcomment.trans hrest, ?_, fun n _ => ?_⟩
      · exact Nat.lt_of_le_of_lt hcomment.length_le (Nat.lt_succ_of_lt (Nat.lt_succ_self _))
      · rw [skipTrivia_block, hafter]
        rfl
    | error e =>
      rw [hafter] at hcomment
      refine Or.inl ⟨.error e, hcomment, fun n _ => ?_⟩
      rw [skipTrivia_block, hafter]
      rfl
  cases text with
  | nil => exact Or.inl ⟨.ok ⟨[], line⟩, List.suffix_rfl, fun n _ => rfl⟩
  | cons c rest =>
    -- Any other character is passed if it is blank and ends the loop otherwise.
    have hskip (n : Nat) := skipTrivia_char hline hblock n line
    by_cases hblank : Text.isBlank c = true
    · refine Or.inr ⟨(), ⟨rest, lineAfter c line⟩, List.suffix_cons c rest, Nat.lt_succ_self _, ?_⟩
      intro n _
      rw [hskip, if_pos hblank]
    · refine Or.inl ⟨.ok ⟨c :: rest, line⟩, List.suffix_rfl, fun n _ => ?_⟩
      rw [hskip, if_neg hblank]

/-- A round takes a character or an escape, or the string ends. -/
theorem string_rounds (quote : Char) :
    RoundsAdvance IsToken fun n done h => lexStringFrom quote done n h := by
  rintro done ⟨text, line⟩
  dsimp only
  cases text with
  | nil => exact Or.inl ⟨.error ⟨.unterminatedString, line⟩, nofun, fun n _ => rfl⟩
  | cons c rest =>
    have hsuffix := List.suffix_cons c rest
    have hless : rest.length < (c :: rest).length := Nat.lt_succ_self _
    -- The first character decides: an escape, the closing quote, a newline, or text.
    by_cases hescape : (c == '\\') = true
    · have hcomes := comesTo_escape ⟨rest, lineAfter c line⟩
      cases hlex : lexEscape ⟨rest, lineAfter c line⟩ with
      | ok x =>
        rw [hlex] at hcomes
        refine Or.inr ⟨consOption x.1 done, x.2, hcomes.trans hsuffix,
          Nat.lt_of_le_of_lt hcomes.length_le hless, fun n _ => ?_⟩
        rw [lexStringFrom]
        dsimp only
        rw [if_pos hescape, hlex]
      | error e =>
        rw [hlex] at hcomes
        refine Or.inl ⟨.error e, hcomes, fun n _ => ?_⟩
        rw [lexStringFrom]
        dsimp only
        rw [if_pos hescape, hlex]
    by_cases hquote : (c == quote) = true
    · refine Or.inl ⟨.ok (.string (String.ofList done.reverse), ⟨rest, lineAfter c line⟩),
        ⟨nofun, hsuffix⟩, fun n _ => ?_⟩
      rw [lexStringFrom]
      dsimp only
      rw [if_neg hescape, if_pos hquote]
    by_cases hnewline : (c == '\n') = true
    · refine Or.inl ⟨.error ⟨.unterminatedString, lineAfter c line⟩, nofun, fun n _ => ?_⟩
      rw [lexStringFrom]
      dsimp only
      rw [if_neg hescape, if_neg hquote, if_pos hnewline]
      rfl
    · refine Or.inr ⟨c :: done, ⟨rest, lineAfter c line⟩, hsuffix, hless, fun n _ => ?_⟩
      rw [lexStringFrom]
      dsimp only
      rw [if_neg hescape, if_neg hquote, if_neg hnewline]

/-- A round takes a character or a literal, or the substitution ends. -/
theorem code_rounds :
    RoundsAdvance LeavesOf fun n (state : Nat × List Char) h => lexCodeFrom state.1 state.2 n h := by
  rintro ⟨depth, done⟩ ⟨text, line⟩
  dsimp only
  cases text with
  | nil => exact Or.inl ⟨.error ⟨.unterminatedSubstitution, line⟩, nofun, fun n _ => rfl⟩
  | cons c rest =>
    have hsuffix := List.suffix_cons c rest
    have hless : rest.length < (c :: rest).length := Nat.lt_succ_self _
    let after : Here := ⟨rest, lineAfter c line⟩
    -- Braces are counted, literals are passed as a whole, and the rest is code.
    by_cases hopen : (c == '{') = true
    · refine Or.inr ⟨(depth + 1, c :: done), after, hsuffix, hless, fun n _ => ?_⟩
      rw [lexCodeFrom]
      dsimp only
      rw [if_pos hopen]
    by_cases hclose : (c == '}') = true
    · cases depth with
      | zero =>
        refine Or.inl ⟨.ok (String.ofList done.reverse, after), hsuffix, fun n _ => ?_⟩
        rw [lexCodeFrom]
        dsimp only
        rw [if_neg hopen, if_pos hclose]
      | succ depth =>
        refine Or.inr ⟨(depth, c :: done), after, hsuffix, hless, fun n _ => ?_⟩
        rw [lexCodeFrom]
        dsimp only
        rw [if_neg hopen, if_pos hclose]
    by_cases hliteral : isDelimiter c = true
    · have hpassed := suffix_passLiteral c (c :: done) after.line rest
      refine Or.inr ⟨(depth, (passLiteral c (c :: done) after.line rest).1),
        (passLiteral c (c :: done) after.line rest).2, hpassed.trans hsuffix,
        Nat.lt_of_le_of_lt hpassed.length_le hless, fun n _ => ?_⟩
      rw [lexCodeFrom]
      dsimp only
      rw [if_neg hopen, if_neg hclose, if_pos hliteral]
    · refine Or.inr ⟨(depth, c :: done), after, hsuffix, hless, fun n _ => ?_⟩
      rw [lexCodeFrom]
      dsimp only
      rw [if_neg hopen, if_neg hclose, if_neg hliteral]

/-- A substitution goes up to its closing brace. -/
theorem lexTemplateFrom_code (done : List Char) (chunks : List Chunk) (n : Nat) (rest : List Char) (line : Nat) :
    lexTemplateFrom done chunks (n + 1) ⟨'$' :: '{' :: rest, line⟩ =
      (lexCodeFrom 0 [] n ⟨rest, line⟩).bind fun x =>
        lexTemplateFrom [] (.code x.1 :: flush done chunks) n x.2 := by
  rw [lexTemplateFrom]
  split
  · next heq => cases heq
  · next heq =>
    obtain rfl := (List.cons.inj (List.cons.inj heq).2).2
    dsimp only
    cases lexCodeFrom 0 [] n ⟨rest, line⟩ <;> rfl
  · next hno heq => exact (hno rest (List.cons.inj heq).1.symm (List.cons.inj heq).2.symm).elim

/-- A character that begins no substitution. -/
theorem lexTemplateFrom_char {c : Char} {rest : List Char} (hcode : ¬ ∃ tail, c :: rest = '$' :: '{' :: tail)
    (done : List Char) (chunks : List Chunk) (n line : Nat) :
    lexTemplateFrom done chunks (n + 1) ⟨c :: rest, line⟩ =
      if c == tick then .ok (.template (flush done chunks).reverse, ⟨rest, lineAfter c line⟩)
      else if c == '\\' then
        (lexEscape ⟨rest, lineAfter c line⟩).bind fun x => lexTemplateFrom (consOption x.1 done) chunks n x.2
      else lexTemplateFrom (c :: done) chunks n ⟨rest, lineAfter c line⟩ := by
  rw [lexTemplateFrom]
  split
  · next heq => cases heq
  · next heq => exact absurd ⟨_, heq⟩ hcode
  · next heq =>
    obtain ⟨rfl, rfl⟩ := List.cons.inj heq
    dsimp only
    cases lexEscape ⟨rest, lineAfter c line⟩ <;> rfl

/-- A round takes a character, an escape or a substitution, or the template ends. -/
theorem template_rounds :
    RoundsAdvance IsToken fun n (state : List Char × List Chunk) h => lexTemplateFrom state.1 state.2 n h := by
  rintro ⟨done, chunks⟩ ⟨text, line⟩
  dsimp only
  by_cases hcode : ∃ rest, text = '$' :: '{' :: rest
  · obtain ⟨rest, rfl⟩ := hcode
    have hrest : rest <:+ '$' :: '{' :: rest := (List.suffix_cons '{' _).trans (List.suffix_cons '$' _)
    have hless : rest.length < ('$' :: '{' :: rest).length := Nat.lt_succ_of_lt (Nat.lt_succ_self _)
    -- The code in a substitution has as many rounds as it needs, however many there are.
    have hrun {n : Nat} (hn : ('$' :: '{' :: rest).length ≤ n) :=
      code_rounds.run LeavesOf.mono (0, []) (h := ⟨rest, line⟩) (Nat.lt_of_lt_of_le hless hn)
    have hround (n : Nat) := lexTemplateFrom_code done chunks n rest line
    have hcomes := (hrun (Nat.le_refl _)).1
    rw [(hrun (Nat.le_refl _)).2] at hcomes
    dsimp only at hrun hcomes
    cases hlex : lexCodeFrom 0 [] (rest.length + 1) ⟨rest, line⟩ with
    | ok x =>
      rw [hlex] at hcomes
      refine Or.inr ⟨([], .code x.1 :: flush done chunks), x.2, hcomes.trans hrest,
        Nat.lt_of_le_of_lt hcomes.length_le hless, fun n hn => ?_⟩
      rw [hround, (hrun hn).2, hlex]
      rfl
    | error e =>
      rw [hlex] at hcomes
      refine Or.inl ⟨.error e, hcomes, fun n hn => ?_⟩
      rw [hround, (hrun hn).2, hlex]
      rfl
  cases text with
  | nil => exact Or.inl ⟨.error ⟨.unterminatedTemplate, line⟩, by rintro ⟨⟩, fun n _ => rfl⟩
  | cons c rest =>
    have hsuffix := List.suffix_cons c rest
    have hless : rest.length < (c :: rest).length := Nat.lt_succ_self _
    let after : Here := ⟨rest, lineAfter c line⟩
    have hround (n : Nat) : lexTemplateFrom done chunks (n + 1) ⟨c :: rest, line⟩ =
        if c == tick then .ok (.template (flush done chunks).reverse, after)
        else if c == '\\' then
          (lexEscape after).bind fun x => lexTemplateFrom (consOption x.1 done) chunks n x.2
        else lexTemplateFrom (c :: done) chunks n after := lexTemplateFrom_char hcode done chunks n line
    by_cases hend : (c == tick) = true
    · refine Or.inl ⟨.ok (.template (flush done chunks).reverse, after), ⟨by rintro ⟨⟩, hsuffix⟩, fun n _ => ?_⟩
      rw [hround, if_pos hend]
    by_cases hescape : (c == '\\') = true
    · have hcomes := comesTo_escape after
      cases hlex : lexEscape after with
      | ok x =>
        rw [hlex] at hcomes
        refine Or.inr ⟨(consOption x.1 done, chunks), x.2, hcomes.trans hsuffix,
          Nat.lt_of_le_of_lt hcomes.length_le hless, fun n _ => ?_⟩
        rw [hround, if_neg hend, if_pos hescape, hlex]
        rfl
      | error e =>
        rw [hlex] at hcomes
        refine Or.inl ⟨.error e, hcomes, fun n _ => ?_⟩
        rw [hround, if_neg hend, if_pos hescape, hlex]
        rfl
    · refine Or.inr ⟨(c :: done, chunks), after, hsuffix, hless, fun n _ => ?_⟩
      rw [hround, if_neg hend, if_neg hescape]

/-- A token takes its first character, and needs a round for each of those that follow it at most. -/
theorem comesTo_token {n : Nat} (c : Char) {tail : List Char} (line : Nat) (hn : tail.length < n) :
    ComesTo (IsToken tail) (lexToken n c tail line) ∧
      lexToken n c tail line = lexToken (tail.length + 1) c tail line := by
  unfold lexToken
  dsimp only
  by_cases hnumber : (c.isDigit || c == '.' && startsWithDigit tail) = true
  · rw [if_pos hnumber, if_pos hnumber]
    exact ⟨comesTo_number line hnumber, rfl⟩
  rw [if_neg hnumber, if_neg hnumber]
  by_cases hstring : (c == '"' || c == '\'') = true
  · rw [if_pos hstring, if_pos hstring]
    exact (string_rounds c).run IsToken.mono [] (h := ⟨tail, line⟩) hn
  rw [if_neg hstring, if_neg hstring]
  by_cases htemplate : (c == tick) = true
  · rw [if_pos htemplate, if_pos htemplate]
    exact template_rounds.run IsToken.mono ([], []) (h := ⟨tail, line⟩) hn
  rw [if_neg htemplate, if_neg htemplate]
  by_cases hword : startsWord c = true
  · rw [if_pos hword]
    exact ⟨⟨nofun, List.dropWhile_suffix _⟩, rfl⟩
  rw [if_neg hword]
  exact ⟨comesTo_mark c tail line, rfl⟩

/-- Blanks and comments are passed, with a round for each character at most. -/
theorem comesTo_skipTrivia {n : Nat} {h : Here} (hn : h.rest.length < n) :
    ComesTo (Here.LeavesOf h.rest) (skipTrivia n h) ∧ skipTrivia n h = skipTrivia (h.rest.length + 1) h :=
  trivia_rounds.run (fun _ _ _ hst hx => List.IsSuffix.trans hx hst) () hn

/-- A round takes a token with the blanks and comments in front of it, or the text ends. -/
theorem token_rounds : RoundsAdvance (fun _ _ => True) fun n done h => tokensFrom done n h := by
  intro done h
  dsimp only
  have hskipped := (comesTo_skipTrivia (Nat.lt_succ_self h.rest.length)).1
  -- How many rounds there are for blanks and for a token makes no difference, as there are enough.
  have hskip {n : Nat} (hn : h.rest.length ≤ n) := (comesTo_skipTrivia (Nat.lt_succ_of_le hn)).2
  cases hresult : skipTrivia (h.rest.length + 1) h with
  | error e =>
    rw [hresult] at hskipped
    refine Or.inl ⟨.error e, hskipped, fun n hn => ?_⟩
    rw [tokensFrom, hskip hn, hresult]
  | ok h' =>
    rw [hresult] at hskipped
    obtain ⟨text, line⟩ := h'
    cases text with
    | nil =>
      refine Or.inl ⟨.ok (⟨.stop, line⟩ :: done).reverse, trivial, fun n hn => ?_⟩
      rw [tokensFrom, hskip hn, hresult]
    | cons c tail =>
      have hless : tail.length < h.rest.length := Nat.lt_of_succ_le hskipped.length_le
      have htail : tail <:+ h.rest := (List.suffix_cons c tail).trans hskipped
      have htoken {n : Nat} (hn : h.rest.length ≤ n) :=
        comesTo_token c line (Nat.lt_succ_of_lt (Nat.lt_of_lt_of_le hless hn))
      have hcomes := (htoken (Nat.le_refl _)).1
      rw [(htoken (Nat.le_refl _)).2] at hcomes
      cases hlex : lexToken (tail.length + 1) c tail line with
      | error e =>
        rw [hlex] at hcomes
        refine Or.inl ⟨.error e, hcomes, fun n hn => ?_⟩
        rw [tokensFrom, hskip hn, hresult]
        dsimp only
        rw [(htoken hn).2, hlex]
      | ok x =>
        rw [hlex] at hcomes
        refine Or.inr ⟨⟨x.1, line⟩ :: done, x.2, hcomes.2.trans htail,
          Nat.lt_of_le_of_lt hcomes.2.length_le hless, fun n hn => ?_⟩
        rw [tokensFrom, hskip hn, hresult]
        dsimp only
        rw [(htoken hn).2, hlex]

def EndAtStop (tokens : List Placed) : Prop :=
  ∃ before line, tokens = before ++ [⟨.stop, line⟩] ∧ ∀ t ∈ before, t.token ≠ .stop

theorem endAtStop_reverse {done : List Placed} (hdone : ∀ t ∈ done, t.token ≠ .stop) (line : Nat) :
    EndAtStop (⟨.stop, line⟩ :: done).reverse :=
  ⟨done.reverse, line, List.reverse_cons, fun t ht => hdone t (List.mem_reverse.mp ht)⟩

/-- With a round for each character and one more, a text comes to tokens up to its end. -/
theorem comesTo_tokensFrom {done : List Placed} {n : Nat} {h : Here}
    (hdone : ∀ t ∈ done, t.token ≠ .stop) (hn : h.rest.length < n) :
    ComesTo EndAtStop (tokensFrom done n h) := by
  induction n generalizing done h with
  | zero => exact absurd hn (Nat.not_lt_zero _)
  | succ n ih =>
    -- What is passed over leaves a suffix, and a token takes at least one character of it.
    have hskipped := (comesTo_skipTrivia hn).1
    unfold tokensFrom
    cases hresult : skipTrivia (n + 1) h with
    | error e =>
      rw [hresult] at hskipped
      exact hskipped
    | ok h' =>
      rw [hresult] at hskipped
      obtain ⟨text, line⟩ := h'
      cases text with
      | nil => exact endAtStop_reverse hdone line
      | cons c tail =>
        have htail : tail.length < n := by
          have hle : tail.length + 1 ≤ h.rest.length := hskipped.length_le
          omega
        have htoken := (comesTo_token c line (Nat.lt_succ_of_lt htail)).1
        dsimp only
        cases hlex : lexToken (n + 1) c tail line with
        | error e =>
          rw [hlex] at htoken
          exact htoken
        | ok x =>
          rw [hlex] at htoken
          refine ih (List.forall_mem_cons.mpr ⟨htoken.1, hdone⟩) ?_
          exact Nat.lt_of_le_of_lt htoken.2.length_le htail

theorem comesTo_tokenize (text : List Char) : ComesTo EndAtStop (tokenize text) :=
  comesTo_tokensFrom nofun (Nat.lt_succ_self _)

end Snippet.Script
