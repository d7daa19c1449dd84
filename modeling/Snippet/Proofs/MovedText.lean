import Mathlib.Data.List.Find
import Snippet.Proofs.EnclosedText
import Snippet.Proofs.WrittenTokens

/-!
Cutting a text into tokens that stands further down in a source and may be followed by more. Each reader of a part
of a text reads the same there, as many lines further down. What follows begins with a newline, so that it goes on
with no token, and what is wrong with a text is wrong with it further down as well, if nothing follows.
-/

namespace Snippet.Script

def SyntaxFault.moved (k : Nat) (f : SyntaxFault) : SyntaxFault := ⟨f.error, f.line + k⟩

def Placed.moved (k : Nat) (p : Placed) : Placed := ⟨p.token, p.line + k⟩

def Here.moved (k : Nat) (more : List Char) (h : Here) : Here := ⟨h.rest ++ more, h.line + k⟩

def IsGap (more : List Char) : Prop := more = [] ∨ ∃ tail, more = '\n' :: tail

theorem IsGap.head {more : List Char} (h : IsGap more) : ∀ c ∈ more.head?, c = '\n' := by
  rcases h with rfl | ⟨tail, rfl⟩
  · exact nofun
  · exact fun c hc => (Option.some.inj hc).symm

theorem IsGap.endsToken {more : List Char} (h : IsGap more) : EndsToken more := fun c hc => .inr (h.head c hc)

def Carries (k : Nat) (more : List Char) {α : Type} (C : α → Prop) (place : α → α) :
    Except SyntaxFault α → Except SyntaxFault α → Prop
  -- The outcome of reading a text, and the outcome further down, if a condition holds of what has
  -- been read.
  | .ok a, r => C a → r = .ok (place a)
  | .error e, r => more = [] → e.error ≠ .exhausted → r = .error (e.moved k)

abbrev CarriesPart (k : Nat) (more : List Char) {α : Type} (r r' : Lexed α) : Prop :=
  Carries k more (fun _ => True) (fun x => (x.1, x.2.moved k more)) r r'

abbrev CarriesInside (k : Nat) (more : List Char) {α : Type} (r r' : Lexed α) : Prop :=
  -- The outcome of reading a part of a text up to its end at most, and the outcome further down
  -- unless it is the end.
  Carries k more (fun x => more = [] ∨ x.2.rest ≠ []) (fun x => (x.1, x.2.moved k more)) r r'

/-- The same choice is made further down. -/
theorem Carries.ite {k : Nat} {more : List Char} {α : Type} {C : α → Prop} {place : α → α} {c : Prop} [Decidable c]
    {r r' q q' : Except SyntaxFault α} (hr : c → Carries k more C place r r')
    (hq : ¬ c → Carries k more C place q q') :
    Carries k more C place (if c then r else q) (if c then r' else q') := by
  by_cases hc : c
  · rw [if_pos hc, if_pos hc]
    exact hr hc
  · rw [if_neg hc, if_neg hc]
    exact hq hc

section Readers

variable {k : Nat} {more : List Char}

theorem lineAfter_moved (c : Char) (line : Nat) : lineAfter c (line + k) = lineAfter c line + k := by
  rw [Here.lineAfter_eq, Here.lineAfter_eq]
  omega

theorem lineAfterText_moved (text : List Char) (line : Nat) :
    lineAfterText text (line + k) = lineAfterText text line + k := by
  rw [Here.lineAfterText_eq, Here.lineAfterText_eq]
  omega

/-- What does not go on with a newline ends at the same place. -/
theorem IsGap.takeWhile (h : IsGap more) {p : Char → Bool} (hp : p '\n' = false) (text : List Char) :
    (text ++ more).takeWhile p = text.takeWhile p ∧ (text ++ more).dropWhile p = text.dropWhile p ++ more := by
  induction text with
  | nil =>
    rcases h with rfl | ⟨tail, rfl⟩
    · exact ⟨rfl, rfl⟩
    · exact ⟨List.takeWhile_cons_of_neg (by rw [hp]; exact Bool.false_ne_true),
        List.dropWhile_cons_of_neg (by rw [hp]; exact Bool.false_ne_true)⟩
  | cons c text ih =>
    by_cases hc : p c = true
    · rw [List.cons_append, List.takeWhile_cons_of_pos hc, List.takeWhile_cons_of_pos hc,
        List.dropWhile_cons_of_pos hc, List.dropWhile_cons_of_pos hc, ih.1, ih.2]
      exact ⟨rfl, rfl⟩
    · rw [List.cons_append, List.takeWhile_cons_of_neg hc, List.takeWhile_cons_of_neg hc,
        List.dropWhile_cons_of_neg hc, List.dropWhile_cons_of_neg hc]
      exact ⟨rfl, rfl⟩

/-- The digits of a number end at the same place, whatever follows the gap. -/
theorem IsGap.takeDecimal (h : IsGap more) (part : DecimalPart) (done text : List Char) :
    takeDecimal part done (text ++ more) =
      ((takeDecimal part done text).1, (takeDecimal part done text).2 ++ more) := by
  induction text generalizing part done with
  | nil =>
    rcases h with rfl | ⟨tail, rfl⟩
    · rfl
    · have hnext : part.next? '\n' = none := by cases part <;> decide
      change Script.takeDecimal part done ('\n' :: tail) = (done.reverse, '\n' :: tail)
      rw [Script.takeDecimal, hnext]
  | cons c text ih =>
    rw [List.cons_append, Script.takeDecimal, Script.takeDecimal]
    cases part.next? c with
    | none => rfl
    | some next => exact ih next _

theorem carries_decimal (h : IsGap more) (here : Here) :
    CarriesPart k more (lexDecimal here) (lexDecimal (here.moved k more)) := by
  unfold lexDecimal Here.moved
  rw [h.takeDecimal]
  dsimp only
  cases Number.readDecimal? (takeDecimal .whole [] here.rest).1 with
  | some x => exact fun _ => rfl
  | none => exact fun _ _ => rfl

theorem carries_radix (h : IsGap more) (radix : Nat) (here : Here) :
    CarriesPart k more (lexRadix radix here) (lexRadix radix (here.moved k more)) := by
  unfold lexRadix Here.moved
  dsimp only
  obtain ⟨htake, hdrop⟩ := h.takeWhile (p := isRadixDigit radix) rfl here.rest
  rw [htake, hdrop]
  cases Number.readWord? 64 radix ((here.rest.takeWhile (isRadixDigit radix)).filter (· != '_')) with
  | some n => exact fun _ => rfl
  | none => exact fun _ _ => rfl

theorem lexNumber_of_radix {letter : Char} {radix : Nat} (h : radixOf? letter = some radix) (rest : List Char)
    (line : Nat) : lexNumber ⟨'0' :: letter :: rest, line⟩ = lexRadix radix ⟨rest, line⟩ := by
  simp only [lexNumber, h]

theorem lexNumber_of_decimal {here : Here}
    (h : ∀ letter rest, here.rest = '0' :: letter :: rest → radixOf? letter = none) :
    lexNumber here = lexDecimal here := by
  unfold lexNumber
  split
  · next letter rest heq => rw [h letter rest heq]
  · rfl

/-- A number with a fraction, an exponent or a mark in front is cut off at the same place. -/
theorem carries_number (h : IsGap more) (here : Here) :
    CarriesPart k more (lexNumber here) (lexNumber (here.moved k more)) := by
  obtain ⟨text, line⟩ := here
  by_cases hmark : ∃ letter rest radix, text = '0' :: letter :: rest ∧ radixOf? letter = some radix
  · obtain ⟨letter, rest, radix, rfl, hradix⟩ := hmark
    rw [Here.moved, List.cons_append, List.cons_append, lexNumber_of_radix hradix, lexNumber_of_radix hradix]
    exact carries_radix h radix ⟨rest, line⟩
  · have hnone (letter : Char) (rest : List Char) (htext : text = '0' :: letter :: rest) : radixOf? letter = none :=
      Option.eq_none_iff_forall_ne_some.mpr fun radix hradix => hmark ⟨letter, rest, radix, htext, hradix⟩
    have hmoved (letter : Char) (rest : List Char) (htext : text ++ more = '0' :: letter :: rest) :
        radixOf? letter = none := by
      rcases text with _ | ⟨c, _ | ⟨d, tail⟩⟩
      · rcases h with rfl | ⟨tail, rfl⟩
        · cases htext
        · cases htext
      · -- A zero at the end is followed by a newline.
        have hmore : more = letter :: rest := (List.cons.inj htext).2
        obtain rfl := h.head letter (hmore ▸ rfl)
        rfl
      · obtain ⟨rfl, htail⟩ := List.cons.inj htext
        obtain ⟨rfl, -⟩ := List.cons.inj htail
        exact hnone d tail rfl
    have hbehind : lexNumber (Here.moved k more ⟨text, line⟩) = lexDecimal (Here.moved k more ⟨text, line⟩) :=
      lexNumber_of_decimal hmoved
    rw [lexNumber_of_decimal hnone, hbehind]
    exact carries_decimal h ⟨text, line⟩

-- Escapes. The number of characters of a code is settled, so it may be cut off by the end of the
-- text.

/-- Characters that are there are passed in the same way further down. -/
theorem Here.skip_moved {n : Nat} {here : Here} (hn : more = [] ∨ n ≤ here.rest.length) :
    (here.moved k more).skip n = (here.skip n).moved k more ∧
      (here.moved k more).rest.take n = here.rest.take n := by
  have htake : (here.rest ++ more).take n = here.rest.take n := by
    rcases hn with rfl | hn
    · rw [List.append_nil]
    · exact List.take_append_of_le_length hn
  have hdrop : (here.rest ++ more).drop n = here.rest.drop n ++ more := by
    rcases hn with rfl | hn
    · rw [List.append_nil, List.append_nil]
    · exact List.drop_append_of_le_length hn
  refine ⟨?_, htake⟩
  unfold Here.skip Here.moved
  dsimp only
  rw [htake, hdrop, lineAfterText_moved]

/-- A code of a fixed number of digits is the same further down, or cut off by the end. -/
theorem carries_code (n : Nat) (here : Here) :
    CarriesInside k more (lexCode n here) (lexCode n (here.moved k more)) := by
  have hmoved (hn : more = [] ∨ n ≤ here.rest.length) := Here.skip_moved (k := k) hn
  unfold lexCode
  dsimp only
  cases hcode : codePoint? (here.rest.take n) with
  | some c =>
    intro hinside
    have hn : more = [] ∨ n ≤ here.rest.length := by
      refine hinside.imp id fun hrest => Nat.le_of_lt ?_
      exact Nat.lt_of_not_le fun hle => hrest (List.drop_eq_nil_of_le hle)
    obtain ⟨hskip, htake⟩ := hmoved hn
    rw [htake, hcode, hskip]
  | none =>
    intro hmore _
    obtain ⟨hskip, htake⟩ := hmoved (.inl hmore)
    rw [htake, hcode, hskip]
    rfl

/-- A closing brace that is searched for is found at the same place, or not before the end. -/
theorem carries_bracedCode (here : Here) :
    CarriesInside k more (lexBracedCode here) (lexBracedCode (here.moved k more)) := by
  have hmoved (hn : more = [] ∨ (here.rest.takeWhile (· != '}')).length < here.rest.length) :
      (here.moved k more).rest.takeWhile (· != '}') = here.rest.takeWhile (· != '}') ∧
        (here.moved k more).skip ((here.rest.takeWhile (· != '}')).length + 1) =
          (here.skip ((here.rest.takeWhile (· != '}')).length + 1)).moved k more := by
    refine ⟨?_, (Here.skip_moved hn).1⟩
    change (here.rest ++ more).takeWhile (· != '}') = _
    rcases hn with rfl | hn
    · rw [List.append_nil]
    · rw [List.takeWhile_append, if_neg (Nat.ne_of_lt hn)]
  unfold lexBracedCode
  dsimp only
  cases hcode : codePoint? (here.rest.takeWhile (· != '}')) with
  | some c =>
    intro hinside
    have hn : more = [] ∨ (here.rest.takeWhile (· != '}')).length < here.rest.length := by
      refine hinside.imp id fun hrest => Nat.lt_of_succ_lt ?_
      exact Nat.lt_of_not_le fun hle => hrest (List.drop_eq_nil_of_le hle)
    obtain ⟨htake, hskip⟩ := hmoved hn
    rw [htake, hcode, hskip]
  | none =>
    intro hmore _
    obtain ⟨htake, hskip⟩ := hmoved (.inl hmore)
    rw [htake, hcode, hskip]
    rfl

theorem carries_longCode (rest : List Char) (line : Nat) :
    CarriesInside k more (lexEscape ⟨'u' :: rest, line⟩) (lexEscape (Here.moved k more ⟨'u' :: rest, line⟩)) := by
  cases rest with
  | nil =>
    -- There is no code, and no character in front of what follows.
    rintro rfl -
    rfl
  | cons d rest =>
    by_cases hd : d = '{'
    · subst hd
      exact carries_bracedCode ⟨rest, line⟩
    · have hbrace (tail : List Char) : (d :: tail).head? ≠ some '{' := fun h => hd (Option.some.inj h)
      rw [lexEscape_long (hbrace rest), Here.moved, List.cons_append, List.cons_append, lexEscape_long (hbrace _)]
      exact carries_code 4 ⟨d :: rest, line⟩

/-- Each escape is the same further down, or cut off by the end. -/
theorem carries_escape (here : Here) :
    CarriesInside k more (lexEscape here) (lexEscape (here.moved k more)) := by
  obtain ⟨text, line⟩ := here
  cases text with
  | nil =>
    rintro rfl -
    rfl
  | cons c rest =>
    by_cases hu : c = 'u'
    · subst hu
      exact carries_longCode rest line
    have hkept {x : Option Char} : CarriesInside k more (.ok (x, ⟨rest, lineAfter c line⟩) : Lexed (Option Char))
        (.ok (x, ⟨rest ++ more, lineAfter c (line + k)⟩)) := by
      intro _
      rw [lineAfter_moved]
      rfl
    have hcode : CarriesInside k more (lexCode 2 ⟨rest, lineAfter c line⟩)
        (lexCode 2 ⟨rest ++ more, lineAfter c (line + k)⟩) := by
      rw [lineAfter_moved]
      exact carries_code 2 ⟨rest, lineAfter c line⟩
    -- The characters that stand for another one, or for none, come first.
    exact .ite (fun _ => hkept) fun _ => .ite (fun _ => hkept) fun _ => .ite (fun _ => hkept) fun _ =>
      .ite (fun _ => hkept) fun _ => .ite (fun _ => hkept) fun _ => .ite (fun _ => hkept) fun _ =>
      .ite (fun _ => hkept) fun _ => .ite (fun _ => hkept) fun _ => .ite (fun _ => hcode) fun _ =>
      .ite (fun h => absurd (eq_of_beq h) hu) fun _ => hkept

/-- What goes on after a part that is read at the same place or up to the end, where it cannot go on. -/
theorem CarriesInside.bind {α β : Type} {C : β → Prop} {place : β → β} {r r' : Lexed α}
    {f f' : α × Here → Except SyntaxFault β} (hr : CarriesInside k more r r')
    (hf : ∀ a here, Carries k more C place (f (a, here)) (f' (a, here.moved k more)))
    (hend : ∀ a line b, f (a, ⟨[], line⟩) ≠ .ok b) : Carries k more C place (r.bind f) (r'.bind f') := by
  cases r with
  | error e =>
    intro hmore he
    rw [hr hmore he]
    rfl
  | ok x =>
    obtain ⟨a, rest, line⟩ := x
    by_cases hinside : more = [] ∨ rest ≠ []
    · rw [hr hinside]
      exact hf a ⟨rest, line⟩
    · -- The part may go on further down, but here nothing can follow it.
      obtain rfl : rest = [] := Decidable.of_not_not fun hno => hinside (.inr hno)
      change Carries k more C place (f (a, ⟨[], line⟩)) _
      cases hout : f (a, ⟨[], line⟩) with
      | ok b => exact absurd hout (hend a line b)
      | error e => exact fun hmore => absurd (.inl hmore) hinside

theorem CarriesPart.inside {α : Type} {r r' : Lexed α} (h : CarriesPart k more r r') : CarriesInside k more r r' := by
  cases r with
  | error e => exact h
  | ok x => exact fun _ => h trivial

/-- A round of a string. -/
theorem lexStringFrom_char (quote c : Char) (done : List Char) (n : Nat) (rest : List Char) (line : Nat) :
    lexStringFrom quote done (n + 1) ⟨c :: rest, line⟩ =
      if c == '\\' then
        (lexEscape ⟨rest, lineAfter c line⟩).bind fun x => lexStringFrom quote (consOption x.1 done) n x.2
      else if c == quote then .ok (.string (String.ofList done.reverse), ⟨rest, lineAfter c line⟩)
      else if c == '\n' then .error ⟨.unterminatedString, lineAfter c line⟩
      else lexStringFrom quote (c :: done) n ⟨rest, lineAfter c line⟩ := by
  rw [lexStringFrom]
  dsimp only
  cases lexEscape ⟨rest, lineAfter c line⟩ <;> rfl

theorem lexStringFrom_nil (quote : Char) (done : List Char) (n line : Nat) (x : Token × Here) :
    lexStringFrom quote done n ⟨[], line⟩ ≠ .ok x := by
  cases n with
  | zero => exact nofun
  | succ n => exact nofun

/-- The inside of a string; by induction on the rounds, of which there may be more further down. -/
theorem carries_string (quote : Char) (done : List Char) {fuel fuel' : Nat} (hle : fuel ≤ fuel') (here : Here) :
    CarriesPart k more (lexStringFrom quote done fuel here) (lexStringFrom quote done fuel' (here.moved k more)) := by
  induction fuel generalizing fuel' done here with
  | zero => exact fun _ he => absurd rfl he
  | succ fuel ih =>
    obtain ⟨fuel', rfl⟩ := Nat.exists_eq_succ_of_ne_zero (Nat.ne_of_gt (Nat.lt_of_lt_of_le (Nat.succ_pos fuel) hle))
    have hless := Nat.le_of_succ_le_succ hle
    obtain ⟨text, line⟩ := here
    cases text with
    | nil =>
      rintro rfl -
      rfl
    | cons c rest =>
      rw [Here.moved, List.cons_append, lexStringFrom_char, Nat.succ_eq_add_one, lexStringFrom_char,
        lineAfter_moved]
      refine .ite (fun _ => ?_) fun _ => .ite (fun _ _ => rfl) fun _ => .ite (fun _ _ _ => rfl) fun _ => ?_
      · exact (carries_escape ⟨rest, lineAfter c line⟩).bind (fun x here => ih _ hless here)
          fun x line => lexStringFrom_nil quote _ fuel line
      · exact ih (c :: done) hless ⟨rest, lineAfter c line⟩

-- Templates. The end of a literal inside a substitution is searched for in the text.

/-- A literal inside of a substitution is passed in the same way, unless it is cut off by the end. -/
theorem passLiteral_moved (k : Nat) (more : List Char) (quote : Char) (done : List Char) (line : Nat) (text : List Char)
    (hinside : more = [] ∨ (passLiteral quote done line text).2.rest ≠ []) :
    passLiteral quote done (line + k) (text ++ more) =
      ((passLiteral quote done line text).1, (passLiteral quote done line text).2.moved k more) := by
  have hplain {c : Char} {rest : List Char} (hlast : c = '\\' → rest = [] → False)
      (hescape : ∀ e tail, c = '\\' → rest = e :: tail → False) : c ≠ '\\' := by
    intro hc
    cases rest with
    | nil => exact hlast hc rfl
    | cons e tail => exact hescape e tail hc rfl
  fun_induction passLiteral quote done line text with
  | case1 done line =>
    rcases hinside with rfl | hno
    · rfl
    · exact absurd rfl hno
  | case2 done line =>
    rcases hinside with rfl | hno
    · rfl
    · exact absurd rfl hno
  | case3 done line e rest ih =>
    have hmore := ih hinside
    rw [← lineAfter_moved] at hmore
    exact hmore
  | case4 done line c rest hlast hescape hc =>
    rw [List.cons_append, passLiteral_plain (hplain hlast hescape), if_pos hc]
    rfl
  | case5 done line c rest hlast hescape hc ih =>
    rw [List.cons_append, passLiteral_plain (hplain hlast hescape), if_neg hc, lineAfter_moved]
    exact ih hinside

theorem lexCodeFrom_nil (depth : Nat) (done : List Char) (n line : Nat) (x : String × Here) :
    lexCodeFrom depth done n ⟨[], line⟩ ≠ .ok x := by
  cases n with
  | zero => exact nofun
  | succ n => exact nofun

/-- The source of a substitution; by induction on the rounds. -/
theorem carries_code_from (depth : Nat) (done : List Char) {fuel fuel' : Nat} (hle : fuel ≤ fuel') (here : Here) :
    CarriesPart k more (lexCodeFrom depth done fuel here) (lexCodeFrom depth done fuel' (here.moved k more)) := by
  induction fuel generalizing fuel' depth done here with
  | zero => exact fun _ he => absurd rfl he
  | succ fuel ih =>
    obtain ⟨fuel', rfl⟩ := Nat.exists_eq_succ_of_ne_zero (Nat.ne_of_gt (Nat.lt_of_lt_of_le (Nat.succ_pos fuel) hle))
    have hless := Nat.le_of_succ_le_succ hle
    -- The next character decides in both texts, as it is in front of what is appended.
    obtain ⟨text, line⟩ := here
    cases text with
    | nil =>
      rintro rfl -
      rfl
    | cons c rest =>
      unfold lexCodeFrom Here.moved
      rw [List.cons_append]
      dsimp only
      rw [lineAfter_moved]
      refine .ite (fun _ => ih _ _ hless ⟨rest, lineAfter c line⟩) fun _ => .ite (fun _ => ?_) fun _ =>
        .ite (fun _ => ?_) fun _ => ih _ _ hless ⟨rest, lineAfter c line⟩
      · cases depth with
        | zero => exact fun _ => rfl
        | succ depth => exact ih _ _ hless ⟨rest, lineAfter c line⟩
      · -- A literal is passed alike unless the text breaks off within it.
        have hmoved := passLiteral_moved k more c (c :: done) (lineAfter c line) rest
        generalize passLiteral c (c :: done) (lineAfter c line) rest = passed at hmoved ⊢
        obtain ⟨done', text, line'⟩ := passed
        by_cases hinside : more = [] ∨ text ≠ []
        · rw [hmoved hinside]
          exact ih _ _ hless ⟨text, line'⟩
        · obtain rfl : text = [] := Decidable.of_not_not fun hno => hinside (.inr hno)
          cases hout : lexCodeFrom depth done' fuel ⟨[], line'⟩ with
          -- Without its end the first text is faulty, and the fault carries over only if nothing is appended.
          | ok x => exact absurd hout (lexCodeFrom_nil depth done' fuel line' x)
          | error e => exact fun hmore => absurd (.inl hmore) hinside

theorem lexTemplateFrom_nil (text : List Char) (chunks : List Chunk) (n line : Nat) (x : Token × Here) :
    lexTemplateFrom text chunks n ⟨[], line⟩ ≠ .ok x := by
  cases n with
  | zero => exact nofun
  | succ n => exact nofun

/-- The inside of a template; by induction on the rounds. -/
theorem carries_template (h : IsGap more) (text : List Char) (chunks : List Chunk) {fuel fuel' : Nat}
    (hle : fuel ≤ fuel') (here : Here) :
    CarriesPart k more (lexTemplateFrom text chunks fuel here)
      (lexTemplateFrom text chunks fuel' (here.moved k more)) := by
  induction fuel generalizing fuel' text chunks here with
  | zero => exact fun _ he => absurd rfl he
  | succ fuel ih =>
    obtain ⟨fuel', rfl⟩ := Nat.exists_eq_succ_of_ne_zero (Nat.ne_of_gt (Nat.lt_of_lt_of_le (Nat.succ_pos fuel) hle))
    have hless := Nat.le_of_succ_le_succ hle
    obtain ⟨source, line⟩ := here
    by_cases hcode : ∃ rest, source = '$' :: '{' :: rest
    · obtain ⟨rest, rfl⟩ := hcode
      rw [Here.moved, List.cons_append, List.cons_append, lexTemplateFrom_code, Nat.succ_eq_add_one,
        lexTemplateFrom_code]
      exact (carries_code_from 0 [] hless ⟨rest, line⟩).inside.bind (fun x here => ih _ _ hless here)
        fun x line => lexTemplateFrom_nil _ _ fuel line
    cases source with
    | nil =>
      rintro rfl -
      rfl
    | cons c rest =>
      -- What is appended does not begin with a brace, so no substitution comes about at the seam.
      have hcode' : ¬ ∃ tail, c :: (rest ++ more) = '$' :: '{' :: tail := by
        rintro ⟨tail, heq⟩
        obtain ⟨rfl, htail⟩ := List.cons.inj heq
        cases rest with
        | nil =>
          have hbrace := h.head '{' (by rw [List.nil_append] at htail; rw [htail]; rfl)
          exact absurd hbrace (by decide)
        | cons d rest =>
          obtain ⟨rfl, -⟩ := List.cons.inj htail
          exact hcode ⟨rest, rfl⟩
      rw [Here.moved, List.cons_append, lexTemplateFrom_char hcode, Nat.succ_eq_add_one,
        lexTemplateFrom_char hcode', lineAfter_moved]
      refine .ite (fun _ _ => rfl) fun _ => .ite (fun _ => ?_) fun _ => ih _ _ hless ⟨rest, lineAfter c line⟩
      exact (carries_escape ⟨rest, lineAfter c line⟩).bind (fun x here => ih _ _ hless here)
        fun x line => lexTemplateFrom_nil _ _ fuel line

/-- No mark is longer further down, since a gap is behind it. -/
theorem carries_mark (h : IsGap more) {c : Char} {tail : List Char} (line : Nat) :
    CarriesPart k more (lexMark ⟨c :: tail, line⟩) (lexMark (Here.moved k more ⟨c :: tail, line⟩)) := by
  have hfind : marks.find? (markFits (c :: tail ++ more)) = marks.find? (markFits (c :: tail)) :=
    List.find?_congr fun m hm => markFits_append hm h.endsToken _
  unfold lexMark Here.moved
  dsimp only
  rw [hfind]
  cases hmark : marks.find? (markFits (c :: tail)) with
  | none => exact fun _ _ => rfl
  | some m =>
    intro _
    have hfits := List.find?_some hmark
    unfold markFits at hfits
    obtain ⟨rest, hrest⟩ := List.isPrefixOf_iff_prefix.mp (Bool.and_eq_true_iff.mp hfits).1
    have hdrop (text : List Char) : (m.toList ++ text).drop m.length = text := by
      rw [← String.length_toList, List.drop_left]
    dsimp only
    rw [← hrest, List.append_assoc, hdrop, hdrop]
    rfl

theorem carries_token (h : IsGap more) {fuel fuel' : Nat} (hle : fuel ≤ fuel') (c : Char) (tail : List Char)
    (line : Nat) :
    CarriesPart k more (lexToken fuel c tail line) (lexToken fuel' c (tail ++ more) (line + k)) := by
  unfold lexToken
  rw [h.endsToken.startsWithDigit_append]
  refine .ite (fun _ => carries_number h ⟨c :: tail, line⟩) fun _ =>
    .ite (fun _ => carries_string c [] hle ⟨tail, line⟩) fun _ =>
    .ite (fun _ => carries_template h [] [] hle ⟨tail, line⟩) fun _ => .ite (fun _ _ => ?_) fun _ => carries_mark h line
  obtain ⟨htake, hdrop⟩ := h.takeWhile (p := continuesWord) (by decide) tail
  rw [htake, hdrop]
  rfl

-- Blanks, comments and all tokens. What follows a text is reached behind its last token.

/-- A comment is passed to its end, or up to the end of the text. -/
theorem carries_comment (h : IsGap more) (line : Nat) (text : List Char) :
    Carries k more (fun _ => True) (Here.moved k more) (afterComment line text)
      (afterComment (line + k) (text ++ more)) := by
  fun_induction afterComment line text with
  | case1 line =>
    rintro rfl -
    rfl
  | case2 line rest => exact fun _ => rfl
  | case3 line c rest hclosing ih =>
    have hstep : afterComment (line + k) (c :: (rest ++ more)) =
        afterComment (lineAfter c line + k) (rest ++ more) := by
      rw [afterComment, lineAfter_moved]
      intro tail hc htail
      cases rest with
      | nil =>
        rw [List.nil_append] at htail
        exact absurd (h.head '/' (htail ▸ rfl)) (by decide)
      | cons d rest => exact hclosing rest hc (by rw [(List.cons.inj htail).1])
    rw [List.cons_append, hstep]
    exact ih

def PassesAlike (k : Nat) (more : List Char) (start : Here) (r' : Except SyntaxFault Here) :
    Except SyntaxFault Here → Prop
  -- What passing over blanks and comments comes to, and what it comes to further down: the same
  -- place, or what follows if that is the end.
  | .ok here => here.rest <:+ start.rest ∧
    (here.rest = [] ∧ r' = skipTrivia (more.length + 1) ⟨more, here.line + k⟩ ∨
      here.rest ≠ [] ∧ r' = .ok (here.moved k more))
  | .error e => more = [] → e.error ≠ .exhausted → r' = .error (e.moved k)

theorem PassesAlike.trans {start : Here} (here : Here) {r r' : Except SyntaxFault Here}
    (hsuffix : here.rest <:+ start.rest) (h : PassesAlike k more here r' r) : PassesAlike k more start r' r := by
  cases r with
  | ok there => exact ⟨h.1.trans hsuffix, h.2⟩
  | error e => exact h

/-- What begins no comment begins none with what follows. -/
theorem IsGap.no_comment (h : IsGap more) {c d : Char} {rest : List Char} (hd : d ≠ '\n')
    (hno : ¬ ∃ tail, c :: rest = '/' :: d :: tail) : ¬ ∃ tail, c :: (rest ++ more) = '/' :: d :: tail := by
  rintro ⟨tail, heq⟩
  obtain ⟨rfl, htail⟩ := List.cons.inj heq
  cases rest with
  | nil =>
    rw [List.nil_append] at htail
    exact hd (h.head d (htail ▸ rfl))
  | cons x rest =>
    obtain ⟨rfl, -⟩ := List.cons.inj htail
    exact hno ⟨rest, rfl⟩

/-- Blanks and comments are passed over; by induction on the rounds. -/
theorem skipTrivia_moved (h : IsGap more) (fuel : Nat) (here : Here) {fuel' : Nat}
    (hfuel' : (here.rest ++ more).length < fuel') :
    PassesAlike k more here (skipTrivia fuel' (here.moved k more)) (skipTrivia fuel here) := by
  induction fuel generalizing fuel' here with
  | zero => exact fun _ he => absurd rfl he
  | succ fuel ih =>
    obtain ⟨fuel', rfl⟩ := Nat.exists_eq_succ_of_ne_zero (Nat.ne_of_gt (Nat.zero_lt_of_lt hfuel'))
    rw [Nat.succ_eq_add_one] at hfuel' ⊢
    obtain ⟨text, line⟩ := here
    dsimp only at hfuel'
    rw [List.length_append] at hfuel'
    by_cases hline : ∃ rest, text = '/' :: '/' :: rest
    · obtain ⟨rest, rfl⟩ := hline
      have hafter : rest.dropWhile (· != '\n') <:+ rest := List.dropWhile_suffix _
      -- A line comment ends in front of what is appended at the latest.
      have hrest : rest <:+ '/' :: '/' :: rest := (List.suffix_cons '/' _).trans (List.suffix_cons '/' _)
      have hlength := hafter.length_le
      rw [List.length_cons, List.length_cons] at hfuel'
      have hfuel : (rest.dropWhile (· != '\n') ++ more).length < fuel' := by
        rw [List.length_append]
        omega
      have hmore := ih ⟨rest.dropWhile (· != '\n'), line⟩ hfuel
      have hdrop : (rest ++ more).dropWhile (· != '\n') = rest.dropWhile (· != '\n') ++ more :=
        (h.takeWhile (p := (· != '\n')) rfl rest).2
      refine PassesAlike.trans ⟨rest.dropWhile (· != '\n'), line⟩ (hafter.trans hrest) ?_
      change PassesAlike k more _ (skipTrivia fuel' ⟨(rest ++ more).dropWhile (· != '\n'), line + k⟩) _
      rw [hdrop]
      exact hmore
    by_cases hblock : ∃ rest, text = '/' :: '*' :: rest
    · obtain ⟨rest, rfl⟩ := hblock
      have hrest : rest <:+ '/' :: '*' :: rest := (List.suffix_cons '*' _).trans (List.suffix_cons '/' _)
      have hcomment := carries_comment (k := k) h line rest
      have hcomes := comesTo_afterComment line rest
      rw [Here.moved, List.cons_append, List.cons_append, skipTrivia_block, skipTrivia_block]
      cases hafter : afterComment line rest with
      | error e =>
        -- A comment in a block has to end in the first text.
        rw [hafter] at hcomment
        intro hmore he
        rw [hcomment hmore he]
        rfl
      | ok here =>
        rw [hafter] at hcomment hcomes
        have hlength : here.rest.length ≤ rest.length := hcomes.length_le
        rw [List.length_cons, List.length_cons] at hfuel'
        rw [hcomment trivial]
        exact PassesAlike.trans here (hcomes.trans hrest) (ih here (by rw [List.length_append]; omega))
    cases text with
    | nil =>
      rw [List.length_nil, Nat.zero_add] at hfuel'
      -- The first text has ended, so blanks and comments go on in what is appended.
      exact ⟨List.suffix_rfl, .inl ⟨rfl, (comesTo_skipTrivia (h := ⟨more, line + k⟩) hfuel').2⟩⟩
    | cons c rest =>
      have hchar (n : Nat) := skipTrivia_char (h.no_comment (by decide) hline) (h.no_comment (by decide) hblock) n
        (line + k)
      -- A single slash stays one, as what is appended does not begin with one that makes it a comment.
      rw [skipTrivia_char hline hblock, Here.moved, List.cons_append, hchar, lineAfter_moved]
      rw [List.length_cons] at hfuel'
      by_cases hblank : Text.isBlank c = true
      · rw [if_pos hblank, if_pos hblank]
        exact PassesAlike.trans ⟨rest, lineAfter c line⟩ (List.suffix_cons c rest)
          (ih ⟨rest, lineAfter c line⟩ (by rw [List.length_append]; dsimp only; omega))
      · rw [if_neg hblank, if_neg hblank]
        exact ⟨List.suffix_rfl, .inr ⟨List.cons_ne_nil c rest, rfl⟩⟩

/-- Cutting goes on alike where passing over blanks and comments does. -/
theorem tokensFrom_skip_eq {n : Nat} {done : List Placed} {here there : Here}
    (h : skipTrivia (n + 1) here = skipTrivia (n + 1) there) :
    tokensFrom done (n + 1) here = tokensFrom done (n + 1) there := by
  rw [tokensFrom, tokensFrom, h]

def CutsAlike (k : Nat) (more : List Char) (done done' : List Placed) (r' : Except SyntaxFault (List Placed)) :
    Except SyntaxFault (List Placed) → Prop
  -- What cutting a text comes to, and what it comes to further down: the same tokens, behind which
  -- cutting goes on with what follows.
  | .ok tokens => ∃ parts line, tokens = done.reverse ++ parts ++ [⟨.stop, line⟩] ∧
    r' = tokensFrom ((parts.map (Placed.moved k)).reverse ++ done') (more.length + 1) ⟨more, line + k⟩
  | .error e => more = [] → e.error ≠ .exhausted → r' = .error (e.moved k)

theorem CutsAlike.cons {done done' : List Placed} {p : Placed} {r r' : Except SyntaxFault (List Placed)}
    (hcuts : CutsAlike k more (p :: done) (p.moved k :: done') r' r) : CutsAlike k more done done' r' r := by
  cases r with
  | error e => exact hcuts
  | ok tokens =>
    obtain ⟨parts, line, rfl, rfl⟩ := hcuts
    refine ⟨p :: parts, line, ?_, ?_⟩
    · rw [List.reverse_cons, List.append_assoc, List.append_assoc, List.append_assoc]
      rfl
    · rw [List.map_cons, List.reverse_cons, List.append_assoc]
      rfl

/-- The tokens of a text are those that it has further down; by induction on the rounds. -/
theorem tokensFrom_moved (h : IsGap more) (here : Here) {fuel fuel' : Nat} (hle : fuel ≤ fuel')
    (hfuel : here.rest.length < fuel) (hfuel' : (here.rest ++ more).length < fuel') (done done' : List Placed) :
    CutsAlike k more done done' (tokensFrom done' fuel' (here.moved k more)) (tokensFrom done fuel here) := by
  induction fuel generalizing fuel' here done done' with
  | zero => exact absurd hfuel (Nat.not_lt_zero _)
  | succ fuel ih =>
    obtain ⟨fuel', rfl⟩ := Nat.exists_eq_succ_of_ne_zero (Nat.ne_of_gt (Nat.zero_lt_of_lt hfuel'))
    rw [Nat.succ_eq_add_one] at hfuel' hle ⊢
    have hskip := skipTrivia_moved (k := k) h (fuel + 1) here hfuel'
    cases hthere : skipTrivia (fuel + 1) here with
    | error e =>
      rw [hthere] at hskip
      have hfirst : tokensFrom done (fuel + 1) here = .error e := by rw [tokensFrom, hthere]
      rw [hfirst]
      intro hmore he
      rw [tokensFrom, hskip hmore he]
    | ok there =>
      rw [hthere] at hskip
      obtain ⟨text, line⟩ := there
      obtain ⟨hsuffix, ⟨rfl, hmoved⟩ | ⟨hne, hmoved⟩⟩ := hskip
      · -- The text ends here, and further down cutting goes on with what follows it.
        have hfirst : tokensFrom done (fuel + 1) here = .ok (⟨.stop, line⟩ :: done).reverse := by
          rw [tokensFrom, hthere]
        rw [hfirst]
        refine ⟨[], line, by simp, ?_⟩
        rw [List.length_append] at hfuel'
        have hlength : more.length < fuel' + 1 := by omega
        have hsame : skipTrivia (fuel' + 1) ⟨more, line + k⟩ = skipTrivia (more.length + 1) ⟨more, line + k⟩ :=
          (comesTo_skipTrivia hlength).2
        rw [tokensFrom_skip_eq (hmoved.trans hsame.symm)]
        exact (token_rounds.run (fun _ _ _ _ hx => hx) done' (h := ⟨more, line + k⟩) hlength).2
      · cases text with
        | nil => exact absurd rfl hne
        | cons c tail =>
          have hlength : tail.length + 1 ≤ here.rest.length := hsuffix.length_le
          have hlex := carries_token (k := k) h hle c tail line
          have hcomes := (comesTo_token c line (show tail.length < fuel + 1 by omega)).1
          -- A token of the first text is one of both.
          cases htoken : lexToken (fuel + 1) c tail line with
          | error e =>
            rw [htoken] at hlex
            have hfirst : tokensFrom done (fuel + 1) here = .error e := by
              rw [tokensFrom, hthere]
              dsimp only
              rw [htoken]
            rw [hfirst]
            intro hmore he
            rw [tokensFrom, hmoved]
            dsimp only [Here.moved, List.cons_append]
            rw [hlex hmore he]
          | ok x =>
            obtain ⟨t, after⟩ := x
            rw [htoken] at hlex hcomes
            have hfirst : tokensFrom done (fuel + 1) here = tokensFrom (⟨t, line⟩ :: done) fuel after := by
              rw [tokensFrom, hthere]
              dsimp only
              rw [htoken]
            have hafter : after.rest.length ≤ tail.length := hcomes.2.length_le
            rw [List.length_append] at hfuel'
            rw [hfirst, tokensFrom, hmoved]
            dsimp only [Here.moved, List.cons_append]
            rw [hlex trivial]
            exact (ih after (Nat.le_of_succ_le_succ hle) (by omega) (by rw [List.length_append]; omega)
              (⟨t, line⟩ :: done) (⟨t, line + k⟩ :: done')).cons

end Readers

end Snippet.Script
