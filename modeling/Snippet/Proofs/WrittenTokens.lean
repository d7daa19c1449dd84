import Snippet.Proofs.DataTokens
import Snippet.Proofs.TextProgress

/-!
Tokens that are written and read again. Names and marks are written as they are and strings in quotes, with one
blank between two tokens. A mark of the table is taken as a whole there, since a longer one would have to go on
with the blank; a slash begins no comment; and the escapes that quoting puts in are the ones that reading takes
out.
-/

namespace Snippet.Script

inductive WrittenToken where
  | word (name : String) (h : isPlainKey name.toList = true)
  | mark (m : String) (h : m ∈ marks)
  | string (s : String)

namespace WrittenToken

def token : WrittenToken → Token
  | .word name _ => .word name
  | .mark m _ => .mark m
  | .string s => .string s

def text : WrittenToken → List Char
  | .word name _ => name.toList
  | .mark m _ => m.toList
  | .string s => quoted s.toList

end WrittenToken

def writeTokens (tokens : List WrittenToken) : List Char := [' '].intercalate (tokens.map (·.text))

def EndsToken (rest : List Char) : Prop := ∀ c ∈ rest.head?, c = ' ' ∨ c = '\n'

theorem EndsToken.apart {rest : List Char} (h : EndsToken rest) : Apart rest := by
  intro c hc
  rcases h c hc with rfl | rfl <;> rfl

theorem EndsToken.startsWithDigit_append {rest : List Char} (h : EndsToken rest) (text : List Char) :
    startsWithDigit (text ++ rest) = startsWithDigit text := by
  cases text with
  | cons c tail => rfl
  | nil =>
    cases rest with
    | nil => rfl
    | cons c tail => rcases h c rfl with rfl | rfl <;> rfl

/-- What has neither in it is at the beginning of a token as a whole or not at all. -/
theorem EndsToken.isPrefixOf_append {rest : List Char} (h : EndsToken rest) (text : List Char)
    {mark : List Char} (hmark : ' ' ∉ mark ∧ '\n' ∉ mark) : mark.isPrefixOf (text ++ rest) = mark.isPrefixOf text := by
  induction mark generalizing text with
  | nil => rw [List.isPrefixOf_nil_left, List.isPrefixOf_nil_left]
  | cons c mark ih =>
    cases text with
    | nil =>
      cases rest with
      | nil => rfl
      | cons x more =>
        have hne : (c == x) = false := by
          refine beq_eq_false_iff_ne.mpr fun heq => ?_
          subst heq
          rcases h c rfl with rfl | rfl
          · exact hmark.1 List.mem_cons_self
          · exact hmark.2 List.mem_cons_self
        change ((c == x) && mark.isPrefixOf more) = false
        rw [hne, Bool.false_and]
    | cons x text =>
      change ((c == x) && mark.isPrefixOf (text ++ rest)) = ((c == x) && mark.isPrefixOf text)
      have hrest : ' ' ∉ mark ∧ '\n' ∉ mark :=
        ⟨fun hmem => hmark.1 (List.mem_cons_of_mem _ hmem), fun hmem => hmark.2 (List.mem_cons_of_mem _ hmem)⟩
      rw [ih text hrest]

/-- A token that has come to an end opens no comment together with what follows. -/
theorem EndsToken.opensComment_append {rest : List Char} (h : EndsToken rest) {text : List Char}
    (hne : text ≠ []) : opensComment (text ++ rest) = opensComment text := by
  obtain ⟨c, tail, rfl⟩ := List.exists_cons_of_ne_nil hne
  cases tail with
  | cons d tail => rfl
  | nil =>
    -- A slash in front of a blank or of the end begins no comment.
    cases rest with
    | nil => rfl
    | cons x more =>
      rcases h x rfl with rfl | rfl
      · simp [opensComment]
      · simp [opensComment]

theorem marks_have_no_blank : ∀ m ∈ marks, ' ' ∉ m.toList ∧ '\n' ∉ m.toList := by decide +kernel

/-- On its own every mark is the first one of the table that fits. -/
theorem find_mark : ∀ m ∈ marks, marks.find? (markFits m.toList) = some m := by decide +kernel

/-- Which mark fits does not depend on what follows the token. -/
theorem markFits_append {m : String} (hm : m ∈ marks) {rest : List Char} (hrest : EndsToken rest)
    (text : List Char) : markFits (text ++ rest) m = markFits text m := by
  unfold markFits
  rw [hrest.isPrefixOf_append text (marks_have_no_blank m hm)]
  cases hprefix : m.toList.isPrefixOf text with
  | false => rfl
  | true =>
    by_cases hchain : m = "?."
    · -- The text begins with both characters, so the one behind them is in it or in what follows.
      subst hchain
      obtain ⟨more, rfl⟩ := List.isPrefixOf_iff_prefix.mp hprefix
      have hdrop : ("?.".toList ++ more ++ rest).drop 2 = more ++ rest := rfl
      have hdrop' : ("?.".toList ++ more).drop 2 = more := rfl
      rw [hdrop, hdrop', hrest.startsWithDigit_append]
    · rw [beq_eq_false_iff_ne.mpr hchain]
      rfl

structure BeginsMark (c : Char) (tail : List Char) : Prop where
  -- A mark begins with nothing that begins a number, a literal or a name, and neither with a blank
  -- nor as a comment.
  noNumber : (c.isDigit || c == '.' && startsWithDigit tail) = false
  noLiteral : isDelimiter c = false
  noWord : startsWord c = false
  noBlank : Text.isBlank c = false
  noComment : opensComment (c :: tail) = false

/-- Every mark of the table begins as the lexer expects of a mark. -/
theorem marks_begin : ∀ m ∈ marks, ∃ c tail, m.toList = c :: tail ∧ BeginsMark c tail := by
  have hmarks : ∀ m ∈ marks, (m.toList.head?.any fun c =>
      !(c.isDigit || c == '.' && startsWithDigit m.toList.tail) && !isDelimiter c && !startsWord c &&
        !Text.isBlank c && !opensComment m.toList) = true := by decide +kernel
  intro m hm
  obtain ⟨c, hc, hbegins⟩ := (Option.any_eq_true _ _).mp (hmarks m hm)
  obtain ⟨tail, htext⟩ := List.head?_eq_some_iff.mp hc
  rw [htext] at hbegins
  simp only [Bool.and_eq_true, Bool.not_eq_true'] at hbegins
  obtain ⟨⟨⟨⟨hnumber, hliteral⟩, hword⟩, hblank⟩, hcomment⟩ := hbegins
  exact ⟨c, tail, htext, hnumber, hliteral, hword, hblank, hcomment⟩

/-- What begins as a mark is read as one. -/
theorem BeginsMark.lexToken {c : Char} {tail : List Char} (h : BeginsMark c tail) (fuel line : Nat) :
    lexToken fuel c tail line = lexMark ⟨c :: tail, line⟩ := by
  have hdelimiter := h.noLiteral
  unfold isDelimiter at hdelimiter
  rw [Bool.or_eq_false_iff, Bool.or_eq_false_iff] at hdelimiter
  obtain ⟨⟨hdouble, hsingle⟩, htick⟩ := hdelimiter
  unfold Script.lexToken
  simp only [h.noNumber, hdouble, hsingle, htick, h.noWord, Bool.or_false, Bool.false_eq_true, if_false]

/-- A mark is taken as a whole in front of a blank and at the end. -/
theorem lexMark_mark {m : String} (hm : m ∈ marks) {rest : List Char} (hrest : EndsToken rest) (line : Nat) :
    lexMark ⟨m.toList ++ rest, line⟩ = .ok (.mark m, ⟨rest, line⟩) := by
  have hfind : marks.find? (markFits (m.toList ++ rest)) = some m := by
    -- The mark fits, and none of those in front of it in the table does.
    obtain ⟨hfits, before, after, hmarks, hbefore⟩ := List.find?_eq_some_iff_append.mp (find_mark m hm)
    refine List.find?_eq_some_iff_append.mpr ⟨?_, before, after, hmarks, ?_⟩
    · rw [markFits_append hm hrest]
      exact hfits
    · intro mark hmark
      have hmem : mark ∈ marks := by
        rw [hmarks]
        exact List.mem_append_left _ hmark
      rw [markFits_append hmem hrest]
      exact hbefore mark hmark
  have hdrop : (m.toList ++ rest).drop m.length = rest := by
    rw [← String.length_toList, List.drop_left]
  unfold lexMark
  simp only [hfind, hdrop]

namespace WrittenToken

/-- A written token in front of a blank or the end is read. -/
theorem tokensFrom_text (t : WrittenToken) {rest : List Char} (hrest : EndsToken rest) (done : List Placed)
    {fuel : Nat} (hfuel : (t.text ++ rest).length < fuel) :
    ∃ fuel', rest.length < fuel' ∧
      tokensFrom done fuel ⟨t.text ++ rest, 1⟩ = tokensFrom (⟨t.token, 1⟩ :: done) fuel' ⟨rest, 1⟩ := by
  cases t with
  | word name h =>
    have hspells := Spells.word h
    rw [String.ofList_toList] at hspells
    exact hspells rest hrest.apart done fuel hfuel
  | string s =>
    have hspells := Spells.string s.toList
    rw [String.ofList_toList] at hspells
    exact hspells rest hrest.apart done fuel hfuel
  | mark m hm =>
    -- A mark is followed by what ends it, so the longest mark there is the mark itself.
    have hlex := lexMark_mark hm hrest 1
    obtain ⟨c, tail, htext, hbegins⟩ := marks_begin m hm
    change (m.toList ++ rest).length < fuel at hfuel
    change ∃ fuel', rest.length < fuel' ∧
      tokensFrom done fuel ⟨m.toList ++ rest, 1⟩ = tokensFrom (⟨.mark m, 1⟩ :: done) fuel' ⟨rest, 1⟩
    rw [htext] at hlex hfuel ⊢
    rw [List.cons_append] at hlex hfuel ⊢
    rw [List.length_cons, List.length_append] at hfuel
    obtain ⟨fuel, rfl⟩ : ∃ n, fuel = n + 1 := ⟨fuel - 1, by omega⟩
    have hcomment : opensComment (c :: (tail ++ rest)) = false :=
      (hrest.opensComment_append (List.cons_ne_nil c tail)).trans hbegins.noComment
    have happended : BeginsMark c (tail ++ rest) :=
      { hbegins with
        noNumber := by rw [hrest.startsWithDigit_append, hbegins.noNumber]
        noComment := hcomment }
    refine ⟨fuel, by omega, ?_⟩
    rw [tokensFrom, skipTrivia_stays hbegins.noBlank hcomment]
    simp only [happended.lexToken, hlex]

end WrittenToken

/-- A blank in front of a text is skipped. -/
theorem tokensFrom_skip (done : List Placed) {fuel : Nat} {text : List Char} (hfuel : text.length < fuel) :
    tokensFrom done (fuel + 1) ⟨' ' :: text, 1⟩ = tokensFrom done (fuel + 1) ⟨text, 1⟩ := by
  have hrounds (n : Nat) (hn : text.length < n) :
      skipTrivia n ⟨text, 1⟩ = skipTrivia (text.length + 1) ⟨text, 1⟩ :=
    (trivia_rounds.run (fun _ _ _ hst hx => hx.trans hst) () (h := ⟨text, 1⟩) hn).2
  have hskip : skipTrivia (fuel + 1) ⟨' ' :: text, 1⟩ = skipTrivia fuel ⟨text, 1⟩ := rfl
  unfold tokensFrom
  rw [hskip, hrounds fuel hfuel, hrounds (fuel + 1) (by omega)]

/-- The tokens of a text that is written from tokens, at whatever place in the list they are; by induction on
them. -/
theorem tokensFrom_written (tokens : List WrittenToken) (done : List Placed) {fuel : Nat}
    (hfuel : (writeTokens tokens).length < fuel) :
    tokensFrom done fuel ⟨writeTokens tokens, 1⟩ =
      .ok (done.reverse ++ (tokens.map fun t => ⟨t.token, 1⟩) ++ [⟨.stop, 1⟩]) := by
  have hend (done : List Placed) (fuel : Nat) :
      tokensFrom done (fuel + 1) ⟨[], 1⟩ = .ok (done.reverse ++ [⟨.stop, 1⟩]) := by
    rw [← List.reverse_cons]
    rfl
  induction tokens generalizing done fuel with
  | nil =>
    obtain ⟨fuel, rfl⟩ : ∃ n, fuel = n + 1 := ⟨fuel - 1, by omega⟩
    rw [List.map_nil, List.append_nil]
    exact hend done fuel
  | cons t tokens ih =>
    -- Behind the last token there is the end, and a blank behind any other one.
    cases tokens with
    | nil =>
      have htext : writeTokens [t] = t.text ++ [] := by
        unfold writeTokens
        rw [List.map_singleton, List.intercalate_singleton, List.append_nil]
      rw [htext] at hfuel ⊢
      have hends : EndsToken [] := fun c hc => by cases hc
      obtain ⟨fuel', hfuel', hread⟩ := t.tokensFrom_text hends done hfuel
      obtain ⟨fuel', rfl⟩ : ∃ n, fuel' = n + 1 := ⟨fuel' - 1, by omega⟩
      rw [hread, hend, List.reverse_cons]
      rfl
    | cons u more =>
      have htext : writeTokens (t :: u :: more) = t.text ++ (' ' :: writeTokens (u :: more)) := by
        unfold writeTokens
        rw [List.map_cons, List.map_cons, List.intercalate_cons_cons]
        simp
      have hends : EndsToken (' ' :: writeTokens (u :: more)) := by
        intro c hc
        exact .inl (Option.some.inj hc).symm
      rw [htext] at hfuel ⊢
      obtain ⟨fuel', hfuel', hread⟩ := t.tokensFrom_text hends done hfuel
      rw [List.length_cons] at hfuel'
      obtain ⟨fuel', rfl⟩ : ∃ n, fuel' = n + 1 := ⟨fuel' - 1, by omega⟩
      rw [hread, tokensFrom_skip _ (by omega), ih _ (by omega), List.reverse_cons]
      simp

/-- Cutting a text into tokens undoes writing them: names, marks and strings with any contents come back in
their order, all on the first line, and behind them the end. -/
theorem tokenize_writeTokens (tokens : List WrittenToken) :
    tokenize (writeTokens tokens) = .ok ((tokens.map fun t => ⟨t.token, 1⟩) ++ [⟨.stop, 1⟩]) := by
  unfold tokenize
  exact tokensFrom_written tokens [] (Nat.lt_succ_self _)

end Snippet.Script
