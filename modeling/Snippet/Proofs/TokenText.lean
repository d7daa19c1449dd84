import Mathlib.Logic.Basic
import Snippet.Proofs.EnclosedText

/-!
The text that a token is read from. Braces stand for themselves; every other token closes what it opens, but for
templates whose substitutions contain a template again.
-/

namespace Snippet.Script

def isInner (c : Char) : Bool := !(['\\', '"', '\'', tick].contains c)

theorem isInner_iff {c : Char} : isInner c = true ↔ c ≠ '\\' ∧ isDelimiter c = false := by
  simp [isInner, isDelimiter, and_assoc]

theorem LiteralBody.of_inner {quote : Char} (hquote : isDelimiter quote = true) {text : List Char}
    (h : ∀ c ∈ text, isInner c = true) : LiteralBody quote text := by
  refine .of_forall fun c hc => ?_
  obtain ⟨hescape, hdelimiter⟩ := isInner_iff.mp (h c hc)
  refine ⟨hescape, ?_⟩
  rintro rfl
  cases hquote.symm.trans hdelimiter

/-- What goes on with a decimal number. -/
theorem takeDecimal_taken (part : DecimalPart) (done text : List Char) :
    ∃ taken, text = taken ++ (takeDecimal part done text).2 ∧ ∀ c ∈ taken, isPlain c = true := by
  have hplain (part : DecimalPart) {c : Char} {next : DecimalPart} (h : part.next? c = some next) :
      isPlain c = true := by
    refine not_contains_of (p := fun c => (part.next? c).isSome) ?_ (h ▸ rfl)
    cases part <;> decide
  induction text generalizing part done with
  | nil => exact ⟨[], rfl, nofun⟩
  | cons c rest ih =>
    unfold takeDecimal
    cases hnext : part.next? c with
    | none => exact ⟨[], rfl, nofun⟩
    | some next =>
      obtain ⟨taken, hrest, htaken⟩ := ih next (if c == '_' then done else c :: done)
      exact ⟨c :: taken, congrArg (c :: ·) hrest, List.forall_mem_cons.mpr ⟨hplain part hnext, htaken⟩⟩

theorem isPlain_of_isRadixDigit {radix : Nat} {c : Char} (h : isRadixDigit radix c = true) : isPlain c = true :=
  not_contains_of (p := isRadixDigit radix) rfl h

theorem isPlain_of_continuesWord {c : Char} (h : continuesWord c = true) : isPlain c = true :=
  not_contains_of (p := continuesWord) (by decide +kernel) h

/-- The text of a number is plain. -/
theorem of_lexNumber {c : Char} {tail : List Char} {line : Nat} {t : Token} {h : Here}
    (hlex : lexNumber ⟨c :: tail, line⟩ = .ok (t, h)) :
    (∃ x, t = .number x) ∧ ∃ text, c :: tail = text ++ h.rest ∧ ∀ x ∈ text, isPlain x = true := by
  have hdecimal (hlex : lexDecimal ⟨c :: tail, line⟩ = .ok (t, h)) :
      (∃ x, t = .number x) ∧ ∃ text, c :: tail = text ++ h.rest ∧ ∀ x ∈ text, isPlain x = true := by
    unfold lexDecimal at hlex
    dsimp only at hlex
    split at hlex
    · cases hlex
      exact ⟨⟨_, rfl⟩, takeDecimal_taken .whole [] (c :: tail)⟩
    · cases hlex
  -- Only the prefix of a radix makes a difference; its letter and digits are plain like the others.
  unfold lexNumber at hlex
  dsimp only at hlex
  split at hlex
  · next letter rest heq =>
    split at hlex
    · next radix hradix =>
      unfold lexRadix at hlex
      dsimp only at hlex
      split at hlex
      · cases hlex
        refine ⟨⟨_, rfl⟩, '0' :: letter :: rest.takeWhile (isRadixDigit radix), ?_, ?_⟩
        · rw [heq, List.cons_append, List.cons_append, List.takeWhile_append_dropWhile]
        · have hletter : isPlain letter = true :=
            not_contains_of (p := fun c => (radixOf? c).isSome) (by decide) (by rw [hradix]; rfl)
          have hdigits : ∀ x ∈ rest.takeWhile (isRadixDigit radix), isPlain x = true := fun x hx =>
            isPlain_of_isRadixDigit (List.all_eq_true.mp List.all_takeWhile x hx)
          exact List.forall_mem_cons.mpr ⟨by decide, List.forall_mem_cons.mpr ⟨hletter, hdigits⟩⟩
      · cases hlex
    · exact hdecimal hlex
  · exact hdecimal hlex

-- Strings. The characters of a code are digits, so it makes no difference that a substitution is
-- searched for its end without knowing how long an escape is.

/-- What has a value as a numeral consists of digits. -/
theorem isSome_of_digitsValue {radix acc n : Nat} {text : List Char}
    (h : Number.digitsValue? radix acc text = some n) :
    ∀ c ∈ text, (Number.digitValue? radix c).isSome = true := by
  induction text generalizing acc with
  | nil => exact nofun
  | cons c rest ih =>
    unfold Number.digitsValue? at h
    split at h
    · next d hdigit =>
      refine List.forall_mem_cons.mpr ⟨?_, ih h⟩
      rw [hdigit]
      rfl
    · cases h

/-- The digits of a code, and the sign in front of them. -/
theorem isInner_of_codePoint {hex : List Char} {x : Char} (h : codePoint? hex = some x) :
    ∀ c ∈ hex, isInner c = true := by
  have hdigits {body : List Char} {n : Nat}
      (hbody : (if body.isEmpty then none
        else (Number.digitsValue? 16 0 body).filter (· < Number.twoTo 32)) = some n) :
      ∀ c ∈ body, isInner c = true := by
    split at hbody
    · cases hbody
    · obtain ⟨hvalue, -⟩ := Option.filter_eq_some_iff.mp hbody
      exact fun c hc => not_contains_of (p := fun c => (Number.digitValue? 16 c).isSome) (by decide)
        (isSome_of_digitsValue hvalue c hc)
  obtain ⟨n, hword, -⟩ := Option.bind_eq_some_iff.mp h
  unfold Number.readWord? at hword
  dsimp only at hword
  split at hword
  · exact List.forall_mem_cons.mpr ⟨by decide, hdigits hword⟩
  · exact hdigits hword

/-- The digits of a code stand at the front of what is left, and none of them ends the literal. -/
theorem of_lexCode {n : Nat} {h h' : Here} {x : Option Char} (hlex : lexCode n h = .ok (x, h')) :
    ∃ hex, h.rest = hex ++ h'.rest ∧ ∀ c ∈ hex, isInner c = true := by
  unfold lexCode at hlex
  dsimp only at hlex
  split at hlex
  · next y hpoint =>
    cases hlex
    exact ⟨h.rest.take n, (List.take_append_drop n h.rest).symm, isInner_of_codePoint hpoint⟩
  · cases hlex

/-- With the digits in braces the closing one is taken, if there is one. -/
theorem of_lexBracedCode {h h' : Here} {x : Option Char} (hlex : lexBracedCode h = .ok (x, h')) :
    ∃ hex, h.rest = hex ++ h'.rest ∧ ∀ c ∈ hex, isInner c = true := by
  unfold lexBracedCode at hlex
  dsimp only at hlex
  split at hlex
  · next y hpoint =>
    cases hlex
    refine ⟨h.rest.take ((h.rest.takeWhile (· != '}')).length + 1), (List.take_append_drop _ h.rest).symm, ?_⟩
    have htaken : h.rest.take ((h.rest.takeWhile (· != '}')).length + 1) =
        h.rest.takeWhile (· != '}') ++ (h.rest.dropWhile (· != '}')).take 1 := by
      have htake := @List.take_length_add_append _ (h.rest.takeWhile (· != '}')) (h.rest.dropWhile (· != '}')) 1
      rwa [List.takeWhile_append_dropWhile] at htake
    rw [htaken, List.forall_mem_append]
    refine ⟨isInner_of_codePoint hpoint, ?_⟩
    have hbrace := List.head?_dropWhile_not (· != '}') h.rest
    cases hend : h.rest.dropWhile (· != '}') with
    | nil => exact nofun
    | cons d more =>
      rw [hend] at hbrace
      obtain rfl : d = '}' := by simpa using hbrace
      exact List.forall_mem_cons.mpr ⟨by decide, nofun⟩
  · cases hlex

/-- An escape takes a character, and the digits of a code behind it. -/
theorem of_lexEscape {h h' : Here} {x : Option Char} (hlex : lexEscape h = .ok (x, h')) :
    ∃ c hex, h.rest = c :: (hex ++ h'.rest) ∧ ∀ y ∈ hex, isInner y = true := by
  obtain ⟨text, line⟩ := h
  cases text with
  | nil => cases hlex
  | cons c rest =>
    suffices htail : ∃ hex, rest = hex ++ h'.rest ∧ ∀ y ∈ hex, isInner y = true by
      obtain ⟨hex, hrest, hinner⟩ := htail
      exact ⟨c, hex, congrArg (c :: ·) hrest, hinner⟩
    have hnone {y : Option Char} {line : Nat}
        (hlex : (Except.ok (y, ⟨rest, line⟩) : Lexed (Option Char)) = .ok (x, h')) :
        ∃ hex, rest = hex ++ h'.rest ∧ ∀ y ∈ hex, isInner y = true := by
      cases hlex
      exact ⟨[], rfl, nofun⟩
    unfold lexEscape at hlex
    dsimp only at hlex
    -- The characters that stand for another one, or for none.
    iterate 8
      obtain ⟨-, hlex⟩ | ⟨-, hlex⟩ := ite_eq_iff.mp hlex
      · exact hnone hlex
    obtain ⟨-, hlex⟩ | ⟨-, hlex⟩ := ite_eq_iff.mp hlex
    · exact of_lexCode hlex
    obtain ⟨-, hlex⟩ | ⟨-, hlex⟩ := ite_eq_iff.mp hlex
    · split at hlex
      · obtain ⟨hex, hrest, hinner⟩ := of_lexBracedCode hlex
        exact ⟨'{' :: hex, congrArg ('{' :: ·) hrest, List.forall_mem_cons.mpr ⟨by decide, hinner⟩⟩
      · exact of_lexCode hlex
    · exact hnone hlex

/-- The inside of a string is passed as that of a literal; by induction on the rounds. -/
theorem of_lexStringFrom {quote : Char} (hquote : isDelimiter quote = true) {done : List Char} {fuel : Nat}
    {h h' : Here} {t : Token} (hlex : lexStringFrom quote done fuel h = .ok (t, h')) :
    (∃ s, t = .string s) ∧ ∃ body, LiteralBody quote body ∧ h.rest = body ++ quote :: h'.rest := by
  -- The first character decides how the body of the literal goes on.
  induction fuel generalizing done h with
  | zero => cases hlex
  | succ fuel ih =>
    obtain ⟨text, line⟩ := h
    cases text with
    | nil => cases hlex
    | cons c rest =>
      unfold lexStringFrom at hlex
      dsimp only at hlex
      by_cases hescape : (c == '\\') = true
      · rw [if_pos hescape] at hlex
        obtain rfl := eq_of_beq hescape
        split at hlex
        · next y after hcode =>
          obtain ⟨e, hex, hrest, hinner⟩ := of_lexEscape hcode
          obtain ⟨hstring, body, hbody, hafter⟩ := ih hlex
          have hescaped : LiteralBody quote (hex ++ body) := (LiteralBody.of_inner hquote hinner).append hbody
          refine ⟨hstring, '\\' :: e :: (hex ++ body), .escape e hescaped, ?_⟩
          have htext : rest = e :: (hex ++ after.rest) := hrest
          rw [htext, hafter]
          simp
        · cases hlex
      rw [if_neg hescape] at hlex
      by_cases hend : (c == quote) = true
      · rw [if_pos hend] at hlex
        obtain rfl := eq_of_beq hend
        cases hlex
        exact ⟨⟨_, rfl⟩, [], .nil, rfl⟩
      rw [if_neg hend] at hlex
      split at hlex
      · cases hlex
      · obtain ⟨hstring, body, hbody, hafter⟩ := ih hlex
        refine ⟨hstring, c :: body, .plain ?_ ?_ hbody, congrArg (c :: ·) hafter⟩
        · exact fun heq => hescape (beq_iff_eq.mpr heq)
        · exact fun heq => hend (beq_iff_eq.mpr heq)

-- Templates. Taken for a literal, a template ends at the first backtick that no backslash stands in
-- front of.

/-- A backslash at the end of a text without the delimiter goes with the character behind the text; by induction
on the length of the text, as a backslash goes with the next character. -/
theorem LiteralBody.of_not_mem {quote last : Char} (hlast : last ≠ '\\') (hquote : last ≠ quote) {text : List Char}
    (h : quote ∉ text) : LiteralBody quote (text ++ [last]) := by
  induction hn : text.length using Nat.strongRecOn generalizing text with
  | ind n ih =>
    cases text with
    | nil => exact .plain hlast hquote .nil
    | cons c rest =>
      subst hn
      by_cases hc : c = '\\'
      · subst hc
        cases rest with
        | nil => exact .escape last .nil
        | cons e rest =>
          have hrest : quote ∉ rest := fun hmem => h (List.mem_cons_of_mem _ (List.mem_cons_of_mem _ hmem))
          exact .escape e (ih rest.length (Nat.lt_succ_of_lt (Nat.lt_succ_self _)) hrest rfl)
      · have hne : c ≠ quote := fun heq => h (heq ▸ List.mem_cons_self)
        have hrest : quote ∉ rest := fun hmem => h (List.mem_cons_of_mem _ hmem)
        exact .plain hc hne (ih rest.length (Nat.lt_succ_self _) hrest rfl)

/-- Text goes behind the chunks that there are. -/
theorem flush_reverse (text : List Char) (chunks : List Chunk) :
    ∃ more, (flush text chunks).reverse = chunks.reverse ++ more := by
  unfold flush
  split
  · exact ⟨[], (List.append_nil _).symm⟩
  · exact ⟨[_], List.reverse_cons⟩

def WithoutTicks (chunks : List Chunk) : Prop := ∀ source, Chunk.code source ∈ chunks → tick ∉ source.toList

/-- The inside of a template is passed as that of a literal if there is no backtick in it; by induction on the
rounds. -/
theorem of_lexTemplateFrom {text : List Char} {chunks : List Chunk} {fuel : Nat} {h h' : Here} {t : Token}
    (hlex : lexTemplateFrom text chunks fuel h = .ok (t, h')) :
    ∃ more body, t = .template (chunks.reverse ++ more) ∧ h.rest = body ++ tick :: h'.rest ∧
      (WithoutTicks more → LiteralBody tick body) := by
  induction fuel generalizing text chunks h with
  | zero => cases hlex
  | succ fuel ih =>
    unfold lexTemplateFrom at hlex
    split at hlex
    · cases hlex
    · next rest hrest =>
      split at hlex
      · next code after hcode =>
        obtain ⟨source, -, rfl, hsource⟩ := of_lexCodeFrom hcode
        obtain ⟨more, body, rfl, hafter, hbody⟩ := ih hlex
        -- The text in front of the substitution becomes a chunk of its own.
        obtain ⟨front, hfront⟩ := flush_reverse text chunks
        refine ⟨front ++ .code (String.ofList source) :: more, '$' :: '{' :: (source ++ ['}'] ++ body), ?_, ?_, ?_⟩
        · rw [List.reverse_cons, hfront]
          simp
        · have hinside : rest = source ++ '}' :: after.rest := hsource
          rw [hrest, hinside, hafter]
          simp
        · intro hticks
          have hsourceticks : tick ∉ source := by
            have hmem := hticks _ (List.mem_append_right front List.mem_cons_self)
            rwa [String.toList_ofList] at hmem
          have hmore : WithoutTicks more := fun code hmem =>
            hticks code (List.mem_append_right front (List.mem_cons_of_mem _ hmem))
          -- The closing brace is there for a backslash at the end of the source to go with.
          have hclosed : LiteralBody tick (source ++ ['}']) := .of_not_mem (by decide) (by decide) hsourceticks
          exact .plain (by decide) (by decide) (.plain (by decide) (by decide) (hclosed.append (hbody hmore)))
      · cases hlex
    · next c rest hno hrest =>
      dsimp only at hlex
      by_cases hend : (c == tick) = true
      · rw [if_pos hend] at hlex
        obtain rfl := eq_of_beq hend
        cases hlex
        obtain ⟨front, hfront⟩ := flush_reverse text chunks
        exact ⟨front, [], by rw [hfront], hrest, fun _ => .nil⟩
      rw [if_neg hend] at hlex
      by_cases hescape : (c == '\\') = true
      · rw [if_pos hescape] at hlex
        obtain rfl := eq_of_beq hescape
        split at hlex
        · next y after hcode =>
          obtain ⟨e, hex, htext, hinner⟩ := of_lexEscape hcode
          obtain ⟨more, body, rfl, hafter, hbody⟩ := ih hlex
          refine ⟨more, '\\' :: e :: (hex ++ body), rfl, ?_, fun hticks => ?_⟩
          · have hrest' : rest = e :: (hex ++ after.rest) := htext
            rw [hrest, hrest', hafter]
            simp
          · exact .escape e ((LiteralBody.of_inner rfl hinner).append (hbody hticks))
        · cases hlex
      rw [if_neg hescape] at hlex
      obtain ⟨more, body, rfl, hafter, hbody⟩ := ih hlex
      refine ⟨more, c :: body, rfl, ?_, fun hticks => .plain ?_ ?_ (hbody hticks)⟩
      · have hrest' : rest = body ++ tick :: h'.rest := hafter
        rw [hrest, hrest']
        rfl
      · exact fun heq => hescape (beq_iff_eq.mpr heq)
      · exact fun heq => hend (beq_iff_eq.mpr heq)

structure TokenText (t : Token) (text : List Char) : Prop where
  -- What the text of a token is: a brace is itself, and of any other token it closes what it opens,
  -- of a template if no substitution in it contains a backtick.
  opening : t = .mark "\x7b" → text = ['{']
  closing : t = .mark "\x7d" → text = ['}']
  template : ∀ chunks, t = .template chunks → WithoutTicks chunks → Enclosed text
  other : t ≠ .mark "\x7b" → t ≠ .mark "\x7d" → (∀ chunks, t ≠ .template chunks) → Enclosed text

theorem TokenText.of_enclosed {t : Token} {text : List Char} (h : Enclosed text) (hopening : t ≠ .mark "\x7b")
    (hclosing : t ≠ .mark "\x7d") : TokenText t text where
  opening heq := absurd heq hopening
  closing heq := absurd heq hclosing
  template _ _ _ := h
  other _ _ _ := h

/-- A literal with its delimiters. -/
theorem LiteralBody.enclosed {quote : Char} {body : List Char} (h : LiteralBody quote body)
    (hquote : isDelimiter quote = true) : Enclosed (quote :: (body ++ [quote])) := .literal hquote h .nil

theorem marks_are_plain : ∀ m ∈ marks, m = "\x7b" ∨ m = "\x7d" ∨ m.toList.all isPlain = true := by
  decide +kernel

/-- A mark that is read is one of the table, and it stands at the front of the text. -/
theorem of_lexMark {text : List Char} {line : Nat} {t : Token} {h : Here}
    (hlex : lexMark ⟨text, line⟩ = .ok (t, h)) : ∃ m ∈ marks, t = .mark m ∧ text = m.toList ++ h.rest := by
  unfold lexMark at hlex
  dsimp only at hlex
  split at hlex
  · next m hfind =>
    cases hlex
    have hfits : markFits text m = true := List.find?_some hfind
    unfold markFits at hfits
    obtain ⟨rest, rfl⟩ := List.isPrefixOf_iff_prefix.mp (Bool.and_eq_true_iff.mp hfits).1
    refine ⟨m, List.mem_of_find?_eq_some hfind, rfl, ?_⟩
    rw [← String.length_toList, List.drop_left]
  · cases hlex

/-- The text of a token. -/
theorem of_lexToken {fuel : Nat} {c : Char} {tail : List Char} {line : Nat} {t : Token} {h : Here}
    (hlex : lexToken fuel c tail line = .ok (t, h)) :
    ∃ text, c :: tail = text ++ h.rest ∧ TokenText t text := by
  unfold lexToken at hlex
  dsimp only at hlex
  -- The first character decides which kind of token it is.
  by_cases hnumber : (c.isDigit || c == '.' && startsWithDigit tail) = true
  · rw [if_pos hnumber] at hlex
    obtain ⟨⟨x, rfl⟩, text, htext, hplain⟩ := of_lexNumber hlex
    exact ⟨text, htext, .of_enclosed (.of_plain hplain) nofun nofun⟩
  rw [if_neg hnumber] at hlex
  by_cases hstring : (c == '"' || c == '\'') = true
  · rw [if_pos hstring] at hlex
    have hquote : isDelimiter c = true := Bool.or_eq_true_iff.mpr (.inl hstring)
    obtain ⟨⟨s, rfl⟩, body, hbody, htext⟩ := of_lexStringFrom hquote hlex
    have hrest : tail = body ++ c :: h.rest := htext
    refine ⟨c :: (body ++ [c]), ?_, .of_enclosed (hbody.enclosed hquote) nofun nofun⟩
    rw [hrest]
    simp
  rw [if_neg hstring] at hlex
  by_cases htemplate : (c == tick) = true
  · rw [if_pos htemplate] at hlex
    obtain rfl := eq_of_beq htemplate
    obtain ⟨chunks, body, rfl, htext, hbody⟩ := of_lexTemplateFrom hlex
    have hrest : tail = body ++ tick :: h.rest := htext
    refine ⟨tick :: (body ++ [tick]), ?_, nofun, nofun, ?_, ?_⟩
    · rw [hrest]
      simp
    · intro chunks' heq hticks
      obtain rfl := Token.template.inj heq
      exact (hbody hticks).enclosed rfl
    · exact fun _ _ hno => absurd rfl (hno _)
  rw [if_neg htemplate] at hlex
  by_cases hword : startsWord c = true
  · rw [if_pos hword] at hlex
    cases hlex
    refine ⟨c :: tail.takeWhile continuesWord, ?_, .of_enclosed (.of_plain ?_) nofun nofun⟩
    · rw [List.cons_append, List.takeWhile_append_dropWhile]
    · have hfirst : isPlain c = true := not_contains_of (p := startsWord) (by decide +kernel) hword
      exact List.forall_mem_cons.mpr ⟨hfirst, fun x hx =>
        isPlain_of_continuesWord (List.all_eq_true.mp List.all_takeWhile x hx)⟩
  rw [if_neg hword] at hlex
  obtain ⟨m, hm, rfl, htext⟩ := of_lexMark hlex
  refine ⟨m.toList, htext, ?_⟩
  -- Among the marks only the two braces open or close anything.
  rcases marks_are_plain m hm with rfl | rfl | hplain
  · exact ⟨fun _ => rfl, fun heq => absurd (Token.mark.inj heq) (by decide), nofun, fun hne => absurd rfl hne⟩
  · exact ⟨fun heq => absurd (Token.mark.inj heq) (by decide), fun _ => rfl, nofun, fun _ hne => absurd rfl hne⟩
  · refine .of_enclosed (.of_plain (List.all_eq_true.mp hplain)) ?_ ?_
    · intro heq
      obtain rfl := Token.mark.inj heq
      cases hplain
    · intro heq
      obtain rfl := Token.mark.inj heq
      cases hplain

end Snippet.Script
