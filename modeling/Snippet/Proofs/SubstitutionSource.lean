import Snippet.Proofs.PairedParser
import Snippet.Proofs.ParserProgress
import Snippet.Proofs.TokenText
import Snippet.Proofs.WrittenTokens

/-!
The source of a substitution. An expression is cut into blanks, comments and tokens; the braces among its tokens are
paired, so the braces of a substitution around it are found wherever its comments and templates close what they
open. A comment may do otherwise, and so may a template within a template.
-/

namespace Snippet.Script

inductive Lexeme where
  | blank (c : Char)
  | comment (text : List Char)
  | token (text : List Char) (p : Placed)

namespace Lexeme

def text : Lexeme → List Char
  | .blank c => [c]
  | .comment text => text
  | .token text _ => text

def token? : Lexeme → Option Placed
  | .blank _ => none
  | .comment _ => none
  | .token _ p => some p

end Lexeme

inductive CutInto : Here → List Lexeme → Prop where
  | stop (line : Nat) : CutInto ⟨[], line⟩ []
  | blank {c : Char} {rest : List Char} {line : Nat} {more : List Lexeme} (hc : Text.isBlank c = true)
    (h : CutInto ⟨rest, lineAfter c line⟩ more) : CutInto ⟨c :: rest, line⟩ (.blank c :: more)
  | lineComment {text : List Char} {line : Nat} {more : List Lexeme}
    (h : CutInto ⟨text.dropWhile (· != '\n'), line⟩ more) :
    CutInto ⟨'/' :: '/' :: text, line⟩ (.comment ('/' :: '/' :: text.takeWhile (· != '\n')) :: more)
  | blockComment {text rest : List Char} {line line' : Nat} {more : List Lexeme}
    (hcomment : afterComment line (text ++ rest) = .ok ⟨rest, line'⟩) (h : CutInto ⟨rest, line'⟩ more) :
    CutInto ⟨'/' :: '*' :: (text ++ rest), line⟩ (.comment ('/' :: '*' :: text) :: more)
  | token {c : Char} {tail text rest : List Char} {line line' fuel : Nat} {t : Token} {more : List Lexeme}
    (hblank : Text.isBlank c = false) (hcomment : opensComment (c :: tail) = false)
    (htext : c :: tail = text ++ rest) (htoken : lexToken fuel c tail line = .ok (t, ⟨rest, line'⟩))
    (h : CutInto ⟨rest, line'⟩ more) : CutInto ⟨c :: tail, line⟩ (.token text ⟨t, line⟩ :: more)

namespace CutInto

/-- The parts make up the text. -/
theorem text_eq {h : Here} {parts : List Lexeme} (hcut : CutInto h parts) :
    h.rest = parts.flatMap Lexeme.text := by
  induction hcut with
  | stop line => rfl
  | blank _ _ ih => exact congrArg _ ih
  | lineComment _ ih =>
    rw [List.flatMap_cons, ← ih]
    simp [Lexeme.text]
  | blockComment _ _ ih =>
    rw [List.flatMap_cons, ← ih]
    rfl
  | token _ _ htext _ _ ih =>
    rw [List.flatMap_cons, ← ih]
    exact htext

end CutInto

theorem of_afterComment {line : Nat} {text : List Char} {h : Here} (hcomment : afterComment line text = .ok h) :
    ∃ inside, text = inside ++ h.rest := by
  have hleaves := comesTo_afterComment line text
  rw [hcomment] at hleaves
  obtain ⟨inside, htext⟩ := hleaves
  exact ⟨inside, htext.symm⟩

def Skips (h h' : Here) : Prop :=
  ∀ parts, CutInto h' parts → ∃ skipped, CutInto h (skipped ++ parts) ∧ skipped.filterMap Lexeme.token? = []

theorem Skips.refl (h : Here) : Skips h h := fun _ hparts => ⟨[], hparts, rfl⟩

theorem Skips.cons {h here h' : Here} {x : Lexeme} (hx : x.token? = none)
    (hfirst : ∀ parts, CutInto here parts → CutInto h (x :: parts)) (hskips : Skips here h') : Skips h h' := by
  intro parts hparts
  obtain ⟨skipped, hcut, hnone⟩ := hskips parts hparts
  refine ⟨x :: skipped, hfirst _ hcut, ?_⟩
  rw [List.filterMap_cons_none hx, hnone]

/-- Blanks and comments are skipped up to a place where neither begins; by induction on the rounds. -/
theorem of_skipTrivia {fuel : Nat} {h h' : Here} (hskip : skipTrivia fuel h = .ok h') :
    (∀ c tail, h'.rest = c :: tail → Text.isBlank c = false ∧ opensComment (c :: tail) = false) ∧
      Skips h h' := by
  induction fuel generalizing h with
  | zero => cases hskip
  | succ fuel ih =>
    obtain ⟨text, line⟩ := h
    unfold skipTrivia at hskip
    split at hskip
    · next rest heq =>
      obtain rfl : text = '/' :: '/' :: rest := heq
      obtain ⟨hstays, hskips⟩ := ih hskip
      exact ⟨hstays, hskips.cons rfl fun _ hcut => .lineComment hcut⟩
    · next rest heq =>
      obtain rfl : text = '/' :: '*' :: rest := heq
      split at hskip
      · next after hcomment =>
        obtain ⟨inside, rfl⟩ := of_afterComment hcomment
        obtain ⟨hstays, hskips⟩ := ih hskip
        exact ⟨hstays, hskips.cons rfl fun _ hcut => .blockComment hcomment hcut⟩
      · cases hskip
    · next c rest hline hblock heq =>
      obtain rfl : text = c :: rest := heq
      split at hskip
      · next hblank =>
        obtain ⟨hstays, hskips⟩ := ih hskip
        exact ⟨hstays, hskips.cons rfl fun _ hcut => .blank hblank hcut⟩
      · next hblank =>
        cases hskip
        -- The place is in front of a character that begins neither.
        refine ⟨fun d tail heq => ?_, .refl _⟩
        obtain ⟨rfl, rfl⟩ := List.cons.inj heq
        refine ⟨Bool.eq_false_iff.mpr hblank, opensComment_eq_false ?_ ?_⟩
        · exact fun more heq => hline more (List.cons.inj heq).1 (List.cons.inj heq).2
        · exact fun more heq => hblock more (List.cons.inj heq).1 (List.cons.inj heq).2
    · next heq =>
      obtain rfl : text = [] := heq
      cases hskip
      exact ⟨fun c tail hrest => (List.cons_ne_nil c tail hrest.symm).elim, .refl _⟩

/-- What is cut into tokens is cut into parts, and the tokens are those of the parts; by induction on the rounds. -/
theorem of_tokensFrom {done tokens : List Placed} {fuel : Nat} {h : Here}
    (htokens : tokensFrom done fuel h = .ok tokens) :
    ∃ parts line, CutInto h parts ∧
      tokens = done.reverse ++ parts.filterMap Lexeme.token? ++ [⟨.stop, line⟩] := by
  -- Each round cuts off what is passed over and one token.
  induction fuel generalizing done h with
  | zero => cases htokens
  | succ fuel ih =>
    unfold tokensFrom at htokens
    split at htokens
    · cases htokens
    · next here hskip =>
      obtain ⟨hstays, hskips⟩ := of_skipTrivia hskip
      obtain ⟨text, line⟩ := here
      split at htokens
      · next heq =>
        obtain rfl : text = [] := heq
        cases htokens
        obtain ⟨skipped, hcut, hnone⟩ := hskips [] (.stop line)
        rw [List.append_nil] at hcut
        refine ⟨skipped, line, hcut, ?_⟩
        rw [hnone, List.append_nil, List.reverse_cons]
      · next c tail heq =>
        obtain rfl : text = c :: tail := heq
        obtain ⟨hblank, hcomment⟩ := hstays c tail rfl
        split at htokens
        · cases htokens
        · next t after hlex =>
          obtain ⟨text, htext, -⟩ := of_lexToken hlex
          obtain ⟨parts, stopLine, hparts, rfl⟩ := ih htokens
          obtain ⟨skipped, hcut, hnone⟩ := hskips _ (.token hblank hcomment htext hlex hparts)
          refine ⟨_, stopLine, hcut, ?_⟩
          rw [List.filterMap_append, hnone]
          simp [Lexeme.token?]

def Token.isTemplate : Token → Bool
  | .template _ => true
  | _ => false

namespace Lexeme

def Closed : Lexeme → Prop
  | .blank _ => True
  | .comment text => Enclosed text
  | .token text p => p.token.isTemplate = true → Enclosed text

def Simple : Lexeme → Prop
  | .blank _ => True
  | .comment text => ∀ c ∈ text, isPlain c = true
  | .token _ p => ∀ chunks, p.token = .template chunks → WithoutTicks chunks

end Lexeme

theorem tokenText_of_lexToken {fuel : Nat} {c : Char} {tail text rest : List Char} {line line' : Nat} {t : Token}
    (htext : c :: tail = text ++ rest) (htoken : lexToken fuel c tail line = .ok (t, ⟨rest, line'⟩)) :
    TokenText t text := by
  obtain ⟨text', htext', h⟩ := of_lexToken htoken
  obtain rfl : text = text' := List.append_cancel_right (htext.symm.trans htext')
  exact h

/-- The text of a token that is no brace closes what it opens. -/
theorem TokenText.enclosed {t : Token} {text : List Char} (h : TokenText t text) (hopening : t ≠ .mark "\x7b")
    (hclosing : t ≠ .mark "\x7d") (htemplate : t.isTemplate = true → Enclosed text) : Enclosed text := by
  cases hkind : t.isTemplate with
  | true => exact htemplate hkind
  | false =>
    refine h.other hopening hclosing ?_
    rintro chunks rfl
    cases hkind

def OpenBrackets.openBraces (i : OpenBrackets) : Nat := i.count "\x7d"

theorem OpenBrackets.openBraces_cons {i : OpenBrackets} :
    OpenBrackets.openBraces ("\x7d" :: i) = OpenBrackets.openBraces i + 1 := List.count_cons_self

theorem OpenBrackets.openBraces_cons_of_ne {c : String} {i : OpenBrackets} (hc : c ≠ "\x7d") :
    OpenBrackets.openBraces (c :: i) = OpenBrackets.openBraces i := List.count_cons_of_ne hc

theorem closerOf?_eq_brace {m : String} (hm : closerOf? m = some "\x7d") : m = "\x7b" := by
  unfold closerOf? at hm
  split at hm
  · exact absurd hm (by decide)
  · exact absurd hm (by decide)
  · rfl
  · cases hm

namespace CutInto

/-- The simple pieces that a text is cut into are closed. -/
theorem closed_of_simple {h : Here} {parts : List Lexeme} (hcut : CutInto h parts) :
    ∀ x ∈ parts, x.Simple → x.Closed := by
  induction hcut with
  | stop line => exact nofun
  | blank _ _ ih => exact List.forall_mem_cons.mpr ⟨fun _ => trivial, ih⟩
  | lineComment _ ih => exact List.forall_mem_cons.mpr ⟨.of_plain, ih⟩
  | blockComment _ _ ih => exact List.forall_mem_cons.mpr ⟨.of_plain, ih⟩
  | @token _ _ _ _ _ _ _ t _ _ _ htext htoken _ ih =>
    refine List.forall_mem_cons.mpr ⟨fun hsimple hkind => ?_, ih⟩
    cases t with
    | template chunks => exact (tokenText_of_lexToken htext htoken).template chunks rfl (hsimple chunks rfl)
    | _ => cases hkind

/-- The braces of a text are those of its tokens if its comments and templates close what they open; by induction
on the parts. -/
theorem encloses {h : Here} {parts : List Lexeme} (hcut : CutInto h parts) {i k : OpenBrackets}
    (hbrackets : Brackets i (parts.filterMap Lexeme.token?) k) (hclosed : ∀ x ∈ parts, x.Closed) :
    Encloses i.openBraces h.rest k.openBraces := by
  induction hcut generalizing i with
  | stop line =>
    cases hbrackets
    exact .nil
  | blank hc _ ih =>
    have hplain : isPlain _ = true := not_contains_of (p := Text.isBlank) (by decide) hc
    exact .plain hplain (ih hbrackets (List.forall_mem_cons.mp hclosed).2)
  | @lineComment text _ _ _ ih =>
    obtain ⟨hcomment, hclosed⟩ := List.forall_mem_cons.mp hclosed
    have htext : '/' :: '/' :: text = '/' :: '/' :: text.takeWhile (· != '\n') ++ text.dropWhile (· != '\n') := by
      rw [List.cons_append, List.cons_append, List.takeWhile_append_dropWhile]
    exact htext ▸ (Enclosed.within hcomment _).append (ih hbrackets hclosed)
  | blockComment _ _ ih =>
    obtain ⟨hcomment, hclosed⟩ := List.forall_mem_cons.mp hclosed
    exact (Enclosed.within hcomment _).append (ih hbrackets hclosed)
  | @token c tail text rest line line' fuel t more _ _ htext htoken _ ih =>
    obtain ⟨htemplate, hmore⟩ := List.forall_mem_cons.mp hclosed
    have hread := tokenText_of_lexToken htext htoken
    change Encloses i.openBraces (c :: tail) k.openBraces
    rw [htext]
    change Brackets i (⟨t, line⟩ :: more.filterMap Lexeme.token?) k at hbrackets
    -- A brace is a token of its own, and any other token closes what it opens.
    cases hbrackets with
    | @opening _ _ _ m mark hm _ h =>
      by_cases hbrace : m = "\x7b"
      · subst hbrace
        cases hm
        have hrest := ih h hmore
        rw [OpenBrackets.openBraces_cons] at hrest
        rw [hread.opening rfl]
        exact .opening hrest
      · have hother : mark ≠ "\x7d" := fun hmark => hbrace (closerOf?_eq_brace (hmark ▸ hm))
        have hclosing : m ≠ "\x7d" := fun heq => (closerOf?_eq_some hm).2.1 (heq ▸ by decide)
        have hrest := ih h hmore
        rw [OpenBrackets.openBraces_cons_of_ne hother] at hrest
        refine ((hread.enclosed ?_ ?_ htemplate).within _).append hrest
        · exact fun heq => hbrace (Token.mark.inj heq)
        · exact fun heq => hclosing (Token.mark.inj heq)
    | @closing i _ _ mark hmark _ h =>
      by_cases hbrace : mark = "\x7d"
      · subst hbrace
        rw [hread.closing rfl, OpenBrackets.openBraces_cons]
        exact .closing (ih h hmore)
      · have hopening : mark ≠ "\x7b" := fun heq => absurd (heq ▸ hmark) (by decide)
        rw [OpenBrackets.openBraces_cons_of_ne hbrace]
        refine ((hread.enclosed ?_ ?_ htemplate).within _).append (ih h hmore)
        · exact fun heq => hopening (Token.mark.inj heq)
        · exact fun heq => hbrace (Token.mark.inj heq)
    | other hbracket _ h =>
      refine ((hread.enclosed ?_ ?_ htemplate).within _).append (ih h hmore)
      · rintro rfl
        cases hbracket
      · rintro rfl
        cases hbracket

end CutInto

def ReadsAsExpression (tokens : List Placed) : Prop :=
  ∃ n e t, Parse.expression (Parse.descent n) { rest := tokens, size := tokens.length } = .ok (e, t) ∧
    Parse.tokenOf t.rest = .stop

/-- The brackets of an expression are paired. -/
theorem ReadsAsExpression.brackets {all tokens : List Placed} {line : Nat} (h : ReadsAsExpression all)
    (hend : EndAtStop all) (hall : all = tokens ++ [⟨.stop, line⟩]) : Brackets [] tokens [] := by
  obtain ⟨n, e, t, hread, hstop⟩ := h
  obtain ⟨-, passed, hpassed, hbrackets, -⟩ :=
    (Pairing.Reads.expression (Parse.Descent.beside_anywhere (Nat.le_refl n)) id (i := [])).same trivial hread
  have hpasses : Passes all.length Anywhere (fun _ => 1) (Parse.expression (Parse.descent n)) :=
    .expression (Parse.Descent.passing n)
  have hcomes := hpasses { rest := all, size := all.length } ⟨hend, Nat.le_refl _⟩ (Nat.le_refl _) trivial
  rw [hread] at hcomes
  -- Only the end is left, so all tokens in front of it have been passed.
  have hleft : t.rest.map Placed.token = [.stop] := hcomes.sound.ends.tokens_eq hstop
  have hlength : t.rest.length = [(⟨.stop, line⟩ : Placed)].length := by
    simpa using congrArg List.length hleft
  have hsame : tokens = passed := (List.append_inj' (hall.symm.trans hpassed) hlength.symm).1
  exact hsame ▸ hbrackets

/-- Where a template is cut into one substitution, its source closes what it opens. -/
theorem IsOneSubstitution.enclosed {source : List Char} (h : IsOneSubstitution source) : Enclosed source := by
  unfold IsOneSubstitution at h
  rw [tokenize_substitutionText] at h
  cases hcode : lexCodeFrom 0 [] (source.length + 5) ⟨source ++ ['}', tick], 1⟩ with
  | error e =>
    rw [hcode] at h
    cases h
  | ok x =>
    obtain ⟨text, hencloses, hx, -⟩ := of_lexCodeFrom hcode
    rw [hcode] at h
    dsimp only [Except.bind] at h
    cases htemplate : lexTemplateFrom [] [.code x.1] (source.length + 5) x.2 with
    | error e =>
      rw [htemplate] at h
      cases h
    | ok y =>
      rw [htemplate] at h
      obtain ⟨chunks, body, htoken, -⟩ := of_lexTemplateFrom htemplate
      obtain ⟨parts, line, -, htokens⟩ := of_tokensFrom h
      -- The first chunk of the template is the source that has been taken.
      have hfirst : y.1 = .template [.code (String.ofList source)] :=
        (Placed.mk.inj (List.cons.inj htokens).1).1.symm
      have hchunk : Chunk.code x.1 = .code (String.ofList source) :=
        (List.cons.inj (Token.template.inj (htoken.symm.trans hfirst))).1
      have hsource : String.ofList text = String.ofList source := hx.symm.trans (Chunk.code.inj hchunk)
      exact String.ofList_injective hsource ▸ hencloses

/-- A substitution may hold an expression that closes what it opens, in the sense in which its end is searched for,
and no other one. An expression is cut into parts, of which only comments and templates can fail to do so: never a
comment without braces and quotes, nor a template without a backtick in its substitutions. -/
theorem substitutions_hold_expressions {source : List Char} {tokens : List Placed}
    (htokens : tokenize source = .ok tokens) (hread : ReadsAsExpression tokens) :
    (IsOneSubstitution source ↔ Enclosed source) ∧
      ∃ parts line, CutInto ⟨source, 1⟩ parts ∧ source = parts.flatMap Lexeme.text ∧
        tokens = parts.filterMap Lexeme.token? ++ [⟨.stop, line⟩] ∧
        ((∀ x ∈ parts, x.Closed) → IsOneSubstitution source) ∧ ∀ x ∈ parts, x.Simple → x.Closed := by
  obtain ⟨parts, line, hcut, hparts⟩ := of_tokensFrom htokens
  have hall : tokens = parts.filterMap Lexeme.token? ++ [⟨.stop, line⟩] := hparts
  have hend : EndAtStop tokens := by
    have hcomes := comesTo_tokenize source
    rwa [htokens] at hcomes
  refine ⟨⟨fun h => h.enclosed, fun h => h.isOneSubstitution⟩, parts, line, hcut, hcut.text_eq, hall, fun hclosed => ?_,
    hcut.closed_of_simple⟩
  exact Enclosed.isOneSubstitution (hcut.encloses (hread.brackets hend hall) hclosed)

def bracedSource : List Char := ['{', 'a', ':', '\'', '}', '\'', '}']

/-- A substitution may hold an object: its braces are told apart from the one that ends it. -/
theorem substitution_holds_object : ∃ tokens, tokenize bracedSource = .ok tokens ∧ ReadsAsExpression tokens ∧
    IsOneSubstitution bracedSource := by
  have htokens : tokenize bracedSource = .ok
      [⟨.mark "\x7b", 1⟩, ⟨.word "a", 1⟩, ⟨.mark ":", 1⟩, ⟨.string "\x7d", 1⟩, ⟨.mark "\x7d", 1⟩, ⟨.stop, 1⟩] := rfl
  have hread : ReadsAsExpression
      [⟨.mark "\x7b", 1⟩, ⟨.word "a", 1⟩, ⟨.mark ":", 1⟩, ⟨.string "\x7d", 1⟩, ⟨.mark "\x7d", 1⟩, ⟨.stop, 1⟩] :=
    ⟨2, .object [.init (.named "a") (.string "\x7d")], ⟨[⟨.stop, 1⟩], 6, 1, false⟩, rfl, rfl⟩
  have hquoted : Encloses 1 ('\'' :: (['}'] ++ '\'' :: ['}'])) 0 :=
    .literal rfl (.plain (by decide) (by decide) .nil) (.closing .nil)
  have henclosed : Enclosed bracedSource := .opening (.plain rfl (.plain rfl hquoted))
  exact ⟨_, htokens, hread, (substitutions_hold_expressions htokens hread).1.mpr henclosed⟩

def nestedSource : List Char := "\x60$\x7b\x60\x7d\x60\x7d\x60".toList

/-- The first backtick inside is taken for the end of a literal, and the brace behind it for that of the source. -/
theorem nested_template_ends_substitution : ∃ tokens, tokenize nestedSource = .ok tokens ∧
    ReadsAsExpression tokens ∧ ¬ IsOneSubstitution nestedSource := by
  have htokens : tokenize nestedSource = .ok [⟨.template [.code "\x60\x7d\x60"], 1⟩, ⟨.stop, 1⟩] := rfl
  have hread : ReadsAsExpression [⟨.template [.code "\x60\x7d\x60"], 1⟩, ⟨.stop, 1⟩] :=
    ⟨4, .template [.value (.template [.text "\x7d"])], ⟨[⟨.stop, 1⟩], 2, 1, false⟩, rfl, rfl⟩
  have hcut : tokenize (substitutionText nestedSource) =
      .ok [⟨.template [.code "\x60$\x7b\x60"], 1⟩, ⟨.mark "\x7d", 1⟩, ⟨.template [.text "\x7d"], 1⟩, ⟨.stop, 1⟩] := rfl
  refine ⟨_, htokens, hread, fun h => ?_⟩
  have hlength : 4 = 2 := congrArg List.length (Except.ok.inj (hcut.symm.trans h))
  cases hlength

end Snippet.Script
