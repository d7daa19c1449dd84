import Snippet.Proofs.DataTokens
import Snippet.Proofs.TextProgress

/-!
The text between the braces of a substitution. Its end is found by counting braces outside of what looks like a
literal: everything from a quote or a backtick up to the next one of its kind.
-/

namespace Snippet.Script

def specialChars : List Char := ['{', '}', '"', '\'', tick]

def isPlain (c : Char) : Bool := !specialChars.contains c

theorem isPlain_iff {c : Char} : isPlain c = true ↔ c ≠ '{' ∧ c ≠ '}' ∧ isDelimiter c = false := by
  simp [isPlain, specialChars, isDelimiter, and_assoc]

/-- A character of which something holds is none of those of which it does not hold. -/
theorem not_contains_of {p : Char → Bool} {chars : List Char} (hp : (chars.all fun x => !p x) = true) {c : Char}
    (h : p c = true) : (!chars.contains c) = true := by
  cases hcontains : chars.contains c with
  | false => rfl
  | true =>
    have hc : (!p c) = true := List.all_eq_true.mp hp c (List.contains_iff_mem.mp hcontains)
    rw [h] at hc
    cases hc

inductive LiteralBody (quote : Char) : List Char → Prop where
  -- What is passed as the inside of a literal: a backslash goes with the character behind it, and
  -- no other character is the delimiter.
  | nil : LiteralBody quote []
  | escape (c : Char) {rest : List Char} (h : LiteralBody quote rest) : LiteralBody quote ('\\' :: c :: rest)
  | plain {c : Char} {rest : List Char} (hc : c ≠ '\\') (hquote : c ≠ quote) (h : LiteralBody quote rest) :
    LiteralBody quote (c :: rest)

/-- Where `n` braces are open in front of a text, `k` are open behind it; none is closed that was not opened, and
no literal is left open. -/
inductive Encloses : Nat → List Char → Nat → Prop where
  | nil {n : Nat} : Encloses n [] n
  | plain {n k : Nat} {c : Char} {rest : List Char} (hc : isPlain c = true) (h : Encloses n rest k) :
    Encloses n (c :: rest) k
  | opening {n k : Nat} {rest : List Char} (h : Encloses (n + 1) rest k) : Encloses n ('{' :: rest) k
  | closing {n k : Nat} {rest : List Char} (h : Encloses n rest k) : Encloses (n + 1) ('}' :: rest) k
  | literal {n k : Nat} {quote : Char} {body rest : List Char} (hquote : isDelimiter quote = true)
    (hbody : LiteralBody quote body) (h : Encloses n rest k) : Encloses n (quote :: (body ++ quote :: rest)) k

def Enclosed (text : List Char) : Prop := Encloses 0 text 0

theorem LiteralBody.append {quote : Char} {text more : List Char} (h : LiteralBody quote text)
    (h' : LiteralBody quote more) : LiteralBody quote (text ++ more) := by
  induction h with
  | nil => exact h'
  | escape c _ ih => exact .escape c ih
  | plain hc hquote _ ih => exact .plain hc hquote ih

theorem LiteralBody.of_forall {quote : Char} {text : List Char} (h : ∀ c ∈ text, c ≠ '\\' ∧ c ≠ quote) :
    LiteralBody quote text := by
  induction text with
  | nil => exact .nil
  | cons c rest ih =>
    obtain ⟨⟨hc, hquote⟩, hrest⟩ := List.forall_mem_cons.mp h
    exact .plain hc hquote (ih hrest)

namespace Encloses

/-- What encloses a text and then another one encloses both. -/
theorem append {i j k : Nat} {text more : List Char} (h : Encloses i text j) (h' : Encloses j more k) :
    Encloses i (text ++ more) k := by
  induction h with
  | nil => exact h'
  | plain hc _ ih => exact .plain hc (ih h')
  | opening _ ih => exact .opening (ih h')
  | closing _ ih => exact .closing (ih h')
  | literal hquote hbody _ ih =>
    rw [List.cons_append, List.append_assoc, List.cons_append]
    exact .literal hquote hbody (ih h')

/-- Braces that are open around a text make no difference to it. -/
theorem within {i j : Nat} {text : List Char} (h : Encloses i text j) (n : Nat) : Encloses (i + n) text (j + n) := by
  induction h with
  | nil => exact .nil
  | plain hc _ ih => exact .plain hc ih
  | opening _ ih => exact .opening (Nat.add_right_comm _ n 1 ▸ ih)
  | closing _ ih => exact Nat.add_right_comm _ n 1 ▸ .closing ih
  | literal hquote hbody _ ih => exact .literal hquote hbody ih

theorem of_plain {n : Nat} {text : List Char} (h : ∀ c ∈ text, isPlain c = true) : Encloses n text n := by
  induction text with
  | nil => exact .nil
  | cons c rest ih =>
    obtain ⟨hc, hrest⟩ := List.forall_mem_cons.mp h
    exact .plain hc (ih hrest)

end Encloses

theorem Enclosed.within {text : List Char} (h : Enclosed text) (n : Nat) : Encloses n text n := by
  have hwithin := Encloses.within h n
  rwa [Nat.zero_add] at hwithin

theorem lineAfterText_cons (c : Char) (text : List Char) (line : Nat) :
    lineAfterText (c :: text) line = lineAfterText text (lineAfter c line) := rfl

theorem lineAfterText_append (text more : List Char) (line : Nat) :
    lineAfterText (text ++ more) line = lineAfterText more (lineAfterText text line) := List.foldl_append

/-- No delimiter ends a line or is a backslash. -/
theorem of_isDelimiter {c : Char} (h : isDelimiter c = true) :
    c ≠ '\\' ∧ c ≠ '{' ∧ c ≠ '}' ∧ ∀ line, lineAfter c line = line := by
  unfold isDelimiter at h
  rw [Bool.or_eq_true, Bool.or_eq_true, beq_iff_eq, beq_iff_eq, beq_iff_eq] at h
  rcases h with (rfl | rfl) | rfl <;> exact ⟨by decide, by decide, by decide, fun _ => rfl⟩

theorem passLiteral_plain {quote c : Char} (hc : c ≠ '\\') (done rest : List Char) (line : Nat) :
    passLiteral quote done line (c :: rest) =
      if c == quote then (c :: done, ⟨rest, line⟩)
      else passLiteral quote (c :: done) (lineAfter c line) rest := by
  rw [passLiteral]
  · rintro rfl
    exact absurd rfl hc
  · rintro e rest' rfl
    exact absurd rfl hc

/-- A literal is passed up to its delimiter; by induction on its inside. -/
theorem LiteralBody.passLiteral {quote : Char} (hquote : isDelimiter quote = true) {body : List Char}
    (h : LiteralBody quote body) (done rest : List Char) (line : Nat) :
    passLiteral quote done line (body ++ quote :: rest) =
      (quote :: (body.reverse ++ done), ⟨rest, lineAfterText body line⟩) := by
  induction h generalizing done line with
  | nil =>
    rw [List.nil_append, passLiteral_plain (of_isDelimiter hquote).1, if_pos (beq_self_eq_true quote)]
    rfl
  | @escape c body _ ih =>
    have hline : lineAfter '\\' line = line := rfl
    rw [List.cons_append, List.cons_append, Script.passLiteral, ih]
    simp [hline, lineAfterText_cons]
  | @plain c body hc hne _ ih =>
    rw [List.cons_append, passLiteral_plain hc, if_neg (by rwa [beq_iff_eq]), ih]
    simp [lineAfterText_cons]

/-- What is passed ends with the delimiter or with the text. -/
theorem of_passLiteral (quote : Char) (done : List Char) (line : Nat) (text : List Char) :
    (passLiteral quote done line text).2.rest = [] ∨
      ∃ body, LiteralBody quote body ∧ text = body ++ quote :: (passLiteral quote done line text).2.rest ∧
        (passLiteral quote done line text).1 = quote :: (body.reverse ++ done) := by
  fun_induction passLiteral quote done line text with
  | case1 => exact .inl rfl
  | case2 => exact .inl rfl
  | case3 done line e rest ih =>
    refine ih.imp_right ?_
    rintro ⟨body, hbody, hrest, hdone⟩
    refine ⟨'\\' :: e :: body, .escape e hbody, ?_, ?_⟩
    · rw [List.cons_append, List.cons_append, ← hrest]
    · rw [hdone]
      simp
  | case4 done line c rest hends hescape heq =>
    obtain rfl := eq_of_beq heq
    exact .inr ⟨[], .nil, rfl, rfl⟩
  | case5 done line c rest hends hescape hne ih =>
    refine ih.imp_right ?_
    rintro ⟨body, hbody, hrest, hdone⟩
    refine ⟨c :: body, .plain ?_ (fun heq => hne (beq_iff_eq.mpr heq)) hbody, ?_, ?_⟩
    · rintro rfl
      cases rest with
      | nil => exact hends rfl rfl
      | cons e rest => exact hescape e rest rfl rfl
    · rw [List.cons_append, ← hrest]
    · rw [hdone]
      simp

section Rounds

variable (n : Nat) (done : List Char) (fuel : Nat) (rest : List Char) (line : Nat)

theorem lexCodeFrom_opening : lexCodeFrom n done (fuel + 1) ⟨'{' :: rest, line⟩ =
    lexCodeFrom (n + 1) ('{' :: done) fuel ⟨rest, line⟩ := rfl

theorem lexCodeFrom_closing : lexCodeFrom (n + 1) done (fuel + 1) ⟨'}' :: rest, line⟩ =
    lexCodeFrom n ('}' :: done) fuel ⟨rest, line⟩ := rfl

theorem lexCodeFrom_end : lexCodeFrom 0 done (fuel + 1) ⟨'}' :: rest, line⟩ =
    .ok (String.ofList done.reverse, ⟨rest, line⟩) := rfl

theorem lexCodeFrom_plain {c : Char} (hc : isPlain c = true) :
    lexCodeFrom n done (fuel + 1) ⟨c :: rest, line⟩ =
      lexCodeFrom n (c :: done) fuel ⟨rest, lineAfter c line⟩ := by
  obtain ⟨hopening, hclosing, hdelimiter⟩ := isPlain_iff.mp hc
  rw [lexCodeFrom]
  dsimp only
  rw [if_neg (by rwa [beq_iff_eq]), if_neg (by rwa [beq_iff_eq]), if_neg (by rw [hdelimiter]; exact Bool.false_ne_true)]

theorem lexCodeFrom_literal {c : Char} (hc : isDelimiter c = true) :
    lexCodeFrom n done (fuel + 1) ⟨c :: rest, line⟩ =
      lexCodeFrom n (passLiteral c (c :: done) line rest).1 fuel (passLiteral c (c :: done) line rest).2 := by
  obtain ⟨-, hopening, hclosing, hline⟩ := of_isDelimiter hc
  rw [lexCodeFrom]
  dsimp only
  rw [if_neg (by rwa [beq_iff_eq]), if_neg (by rwa [beq_iff_eq]), if_pos hc, hline]

end Rounds

/-- A text that closes what it opens is taken as the source up to the next brace; by induction on the text. -/
theorem Encloses.lexCodeFrom {n k : Nat} {text : List Char} (h : Encloses n text k) (hk : k = 0)
    (done rest : List Char) {fuel : Nat} (hfuel : text.length < fuel) (line : Nat) :
    lexCodeFrom n done fuel ⟨text ++ '}' :: rest, line⟩ =
      .ok (String.ofList (done.reverse ++ text), ⟨rest, lineAfterText text line⟩) := by
  -- The induction is on how the text is enclosed; each of its steps is one round.
  obtain ⟨fuel, rfl⟩ : ∃ m, fuel = m + 1 := ⟨fuel - 1, by omega⟩
  induction h generalizing done fuel line with
  | nil =>
    subst hk
    rw [List.nil_append, lexCodeFrom_end, List.append_nil]
    rfl
  | @plain n k c text hc _ ih =>
    rw [List.length_cons] at hfuel
    obtain ⟨fuel, rfl⟩ : ∃ m, fuel = m + 1 := ⟨fuel - 1, by omega⟩
    rw [List.cons_append, lexCodeFrom_plain _ _ _ _ _ hc, ih hk _ _ _ (by omega)]
    simp [lineAfterText_cons]
  | @opening n k text _ ih =>
    rw [List.length_cons] at hfuel
    obtain ⟨fuel, rfl⟩ : ∃ m, fuel = m + 1 := ⟨fuel - 1, by omega⟩
    have hline : lineAfter '{' line = line := rfl
    rw [List.cons_append, lexCodeFrom_opening, ih hk _ _ _ (by omega)]
    simp [lineAfterText_cons, hline]
  | @closing n k text _ ih =>
    rw [List.length_cons] at hfuel
    obtain ⟨fuel, rfl⟩ : ∃ m, fuel = m + 1 := ⟨fuel - 1, by omega⟩
    have hline : lineAfter '}' line = line := rfl
    rw [List.cons_append, lexCodeFrom_closing, ih hk _ _ _ (by omega)]
    simp [lineAfterText_cons, hline]
  | @literal n k quote body text hquote hbody _ ih =>
    rw [List.length_cons, List.length_append, List.length_cons] at hfuel
    obtain ⟨fuel, rfl⟩ : ∃ m, fuel = m + 1 := ⟨fuel - 1, by omega⟩
    rw [List.cons_append, List.append_assoc, List.cons_append, lexCodeFrom_literal _ _ _ _ _ hquote,
      hbody.passLiteral hquote, ih hk _ _ _ (by omega)]
    simp [lineAfterText_cons, lineAfterText_append, (of_isDelimiter hquote).2.2.2]

/-- What is taken as the source closes what it opens; by induction on the rounds. -/
theorem of_lexCodeFrom {n : Nat} {done : List Char} {fuel : Nat} {h h' : Here} {code : String}
    (hlex : lexCodeFrom n done fuel h = .ok (code, h')) :
    ∃ text, Encloses n text 0 ∧ code = String.ofList (done.reverse ++ text) ∧ h.rest = text ++ '}' :: h'.rest := by
  induction fuel generalizing n done h with
  | zero => cases hlex
  | succ fuel ih =>
    obtain ⟨text, line⟩ := h
    cases text with
    | nil => cases hlex
    | cons c rest =>
      -- The first character tells which round it was, and so how the text is enclosed.
      by_cases hopening : c = '{'
      · subst hopening
        obtain ⟨text, hencloses, rfl, hrest⟩ := ih (lexCodeFrom_opening .. ▸ hlex)
        exact ⟨'{' :: text, .opening hencloses, by simp, congrArg ('{' :: ·) hrest⟩
      by_cases hclosing : c = '}'
      · subst hclosing
        cases n with
        | zero =>
          cases hlex
          exact ⟨[], .nil, by simp, rfl⟩
        | succ n =>
          obtain ⟨text, hencloses, rfl, hrest⟩ := ih (lexCodeFrom_closing .. ▸ hlex)
          exact ⟨'}' :: text, .closing hencloses, by simp, congrArg ('}' :: ·) hrest⟩
      by_cases hdelimiter : isDelimiter c = true
      · rw [lexCodeFrom_literal _ _ _ _ _ hdelimiter] at hlex
        obtain ⟨text, hencloses, rfl, hrest⟩ := ih hlex
        -- A literal that is not closed takes all the text, and then there is no end of the code.
        rcases of_passLiteral c (c :: done) line rest with hend | ⟨body, hbody, hpassed, hdone⟩
        · rw [hend] at hrest
          exact absurd hrest.symm (List.append_ne_nil_of_right_ne_nil _ nofun)
        · refine ⟨c :: (body ++ c :: text), .literal hdelimiter hbody hencloses, ?_, ?_⟩
          · rw [hdone]
            simp
          · rw [hpassed, hrest]
            simp
      · have hplain : isPlain c = true := isPlain_iff.mpr ⟨hopening, hclosing, Bool.not_eq_true _ |>.mp hdelimiter⟩
        rw [lexCodeFrom_plain _ _ _ _ _ hplain] at hlex
        obtain ⟨text, hencloses, rfl, hrest⟩ := ih hlex
        exact ⟨c :: text, .plain hplain hencloses, by simp, congrArg (c :: ·) hrest⟩

def substitutionText (source : List Char) : List Char := tick :: '$' :: '{' :: (source ++ ['}', tick])

/-- The template of one substitution is cut into one token, whose only chunk is the source, and the end. -/
def IsOneSubstitution (source : List Char) : Prop :=
  tokenize (substitutionText source) =
    .ok [⟨.template [.code (String.ofList source)], 1⟩, ⟨.stop, lineAfterText source 1⟩]

/-- The source of the substitution is taken first, then the rest of the template and what is behind it. -/
theorem tokenize_substitutionText (source : List Char) :
    tokenize (substitutionText source) =
      (lexCodeFrom 0 [] (source.length + 5) ⟨source ++ ['}', tick], 1⟩).bind fun x =>
        (lexTemplateFrom [] [.code x.1] (source.length + 5) x.2).bind fun y =>
          tokensFrom [⟨y.1, 1⟩] (source.length + 5) y.2 := by
  have hlength : (substitutionText source).length = source.length + 5 := by
    unfold substitutionText
    simp
  -- Past the two opening characters the code is cut off first and then the rest of the template.
  have htemplate : lexToken (source.length + 6) tick ('$' :: '{' :: (source ++ ['}', tick])) 1 =
      (lexCodeFrom 0 [] (source.length + 5) ⟨source ++ ['}', tick], 1⟩).bind fun x =>
        lexTemplateFrom [] [.code x.1] (source.length + 5) x.2 := by
    have hopens : lexToken (source.length + 6) tick ('$' :: '{' :: (source ++ ['}', tick])) 1 =
        lexTemplateFrom [] [] (source.length + 6) ⟨'$' :: '{' :: (source ++ ['}', tick]), 1⟩ := rfl
    rw [hopens, lexTemplateFrom]
    split
    · next heq => cases heq
    · next heq =>
      cases heq
      cases lexCodeFrom 0 [] (source.length + 5) ⟨source ++ ['}', tick], 1⟩ <;> rfl
    · next hno heq =>
      cases heq
      exact (hno _ rfl rfl).elim
  unfold tokenize
  rw [hlength]
  unfold substitutionText
  rw [tokensFrom, skipTrivia_solid (by decide)]
  dsimp only
  rw [htemplate]
  cases lexCodeFrom 0 [] (source.length + 5) ⟨source ++ ['}', tick], 1⟩ with
  | error e => rfl
  | ok x =>
    dsimp only [Except.bind]
    cases lexTemplateFrom [] [.code x.1] (source.length + 5) x.2 <;> rfl

theorem Enclosed.isOneSubstitution {source : List Char} (h : Enclosed source) : IsOneSubstitution source := by
  have hfuel : source.length < source.length + 5 := by omega
  have hcode := h.lexCodeFrom rfl [] [tick] hfuel 1
  unfold IsOneSubstitution
  rw [tokenize_substitutionText, hcode]
  rfl

end Snippet.Script
