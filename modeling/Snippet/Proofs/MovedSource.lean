import Snippet.Proofs.MovedText
import Snippet.Proofs.PairedParser

/-!
Sources with newlines in front. A source reads the same behind any number of newlines, and what is wrong with it is
found as many lines further down, unless it is wrong with the source of a substitution: the lines of such a source
are counted from its own beginning.
-/

namespace Snippet.Script

/-- Newlines are passed over one by one; by induction on their number. -/
theorem skipTrivia_newlines (n k : Nat) (text : List Char) (line : Nat) :
    skipTrivia (n + k) ⟨List.replicate k '\n' ++ text, line⟩ = skipTrivia n ⟨text, line + k⟩ := by
  induction k generalizing line with
  | zero => rfl
  | succ k ih =>
    have hstep : skipTrivia (n + k + 1) ⟨'\n' :: (List.replicate k '\n' ++ text), line⟩ =
        skipTrivia (n + k) ⟨List.replicate k '\n' ++ text, line + 1⟩ := rfl
    rw [List.replicate_succ, List.cons_append, ← Nat.add_assoc, hstep, ih, Nat.add_assoc, Nat.add_comm 1 k]

def tokensMoved (k : Nat) : Except SyntaxFault (List Placed) → Except SyntaxFault (List Placed)
  | .ok tokens => .ok (tokens.map (Placed.moved k))
  | .error e => .error (e.moved k)

/-- Newlines in front move all tokens of a text, or what is wrong with it. -/
theorem tokenize_newlines (k : Nat) (text : List Char) :
    tokenize (List.replicate k '\n' ++ text) = tokensMoved k (tokenize text) := by
  have hlength : (List.replicate k '\n' ++ text).length + 1 = text.length + k + 1 := by
    rw [List.length_append, List.length_replicate, Nat.add_comm k]
  -- The newlines take `k` rounds, and the text needs no more than there are left.
  have hskip : skipTrivia (text.length + k + 1) ⟨List.replicate k '\n' ++ text, 1⟩ =
      skipTrivia (text.length + k + 1) ⟨text, 1 + k⟩ := by
    have hleast : skipTrivia (text.length + k + 1) ⟨text, 1 + k⟩ = skipTrivia (text.length + 1) ⟨text, 1 + k⟩ :=
      (comesTo_skipTrivia (h := ⟨text, 1 + k⟩) (Nat.lt_succ_of_le (Nat.le_add_right _ k))).2
    rw [hleast, Nat.add_right_comm, skipTrivia_newlines]
  have hstart : tokenize (List.replicate k '\n' ++ text) =
      tokensFrom [] (text.length + k + 1) (Here.moved k [] ⟨text, 1⟩) := by
    rw [tokenize, hlength, tokensFrom_skip_eq hskip, Here.moved, List.append_nil]
  have hcuts := tokensFrom_moved (k := k) (.inl rfl) ⟨text, 1⟩
    (show text.length + 1 ≤ text.length + k + 1 by omega) (Nat.lt_succ_self _)
    (by rw [List.append_nil]; dsimp only; omega) [] []
  have hcomes := comesTo_tokenize text
  rw [hstart]
  change CutsAlike k [] [] [] _ (tokenize text) at hcuts
  cases htokens : tokenize text with
  | error e =>
    rw [htokens] at hcuts hcomes
    exact hcuts rfl hcomes
  | ok tokens =>
    rw [htokens] at hcuts
    obtain ⟨parts, line, rfl, hcut⟩ := hcuts
    rw [hcut]
    simp [tokensFrom, skipTrivia, tokensMoved, Placed.moved]

theorem tokenOf_moved (k : Nat) (tokens : List Placed) :
    Parse.tokenOf (tokens.map (Placed.moved k)) = Parse.tokenOf tokens := by
  cases tokens <;> rfl

/-- Where a parenthesis closes does not depend on the lines; by induction on the tokens. -/
theorem closesBeforeArrow_moved (k depth : Nat) (tokens : List Placed) :
    Parse.closesBeforeArrow depth (tokens.map (Placed.moved k)) = Parse.closesBeforeArrow depth tokens := by
  induction tokens generalizing depth with
  | nil => rfl
  | cons p rest ih =>
    rw [List.map_cons, Parse.closesBeforeArrow, Parse.closesBeforeArrow, tokenOf_moved, ih, ih, ih]
    rfl

theorem startsArrow_moved (k : Nat) (tokens : List Placed) :
    Parse.startsArrow (tokens.map (Placed.moved k)) = Parse.startsArrow tokens := by
  unfold Parse.startsArrow
  rw [tokenOf_moved, closesBeforeArrow_moved, ← List.map_tail, tokenOf_moved]

-- Reading the tokens of the moved source next to those of the source itself.

def FaultInside (tokens : List Placed) (f : SyntaxFault) : Prop :=
  ∃ p ∈ tokens, ∃ chunks code n, p.token = .template chunks ∧ Chunk.code code ∈ chunks ∧
    Parse.substitution (Parse.descent n) code = .error f

structure Input.IsMoved (k : Nat) (tokens : List Placed) (s s' : Input) : Prop where
  suffix : s.rest <:+ tokens
  rest : s'.rest = s.rest.map (Placed.moved k)
  size : s'.size = s.size
  noIn : s'.noIn = s.noIn
  line : s'.line = s.line + k
  newline : s'.previousLine < s'.line ↔ s.previousLine < s.line

def SyntaxFault.IsMoved (k : Nat) (tokens : List Placed) (f f' : SyntaxFault) : Prop :=
  f' = f.moved k ∨ f' = f ∧ FaultInside tokens f

namespace Input.IsMoved

variable {k : Nat} {tokens : List Placed} {s s' t t' : Input}

theorem tokenOf_eq (h : s.IsMoved k tokens s') : Parse.tokenOf s'.rest = Parse.tokenOf s.rest := by
  rw [h.rest, tokenOf_moved]

theorem behind (h : s.IsMoved k tokens s') {p : Placed} {rest : List Placed} (hrest : s.rest = p :: rest) :
    s'.rest = p.moved k :: rest.map (Placed.moved k) ∧
      (s.behind p rest).IsMoved k tokens (s'.behind (p.moved k) (rest.map (Placed.moved k))) := by
  have hsuffix : rest <:+ tokens := (List.suffix_cons p rest).trans (hrest ▸ h.suffix)
  have hline : (s'.behind (p.moved k) (rest.map (Placed.moved k))).line = (s.behind p rest).line + k := by
    cases rest <;> rfl
  refine ⟨by rw [h.rest, hrest, List.map_cons], hsuffix, rfl, h.size, h.noIn, hline, ?_⟩
  rw [hline]
  exact Nat.add_lt_add_iff_right

theorem withNoIn (h : s.IsMoved k tokens s') (b : Bool) :
    Input.IsMoved k tokens { s with noIn := b } { s' with noIn := b } :=
  ⟨h.suffix, h.rest, h.size, rfl, h.line, h.newline⟩

end Input.IsMoved

def Pairing.moved (k : Nat) (tokens : List Placed) : Pairing where
  Belongs _ s s' := s.IsMoved k tokens s'
  Ends _ _ := False
  Strict := True
  Fault := SyntaxFault.IsMoved k tokens
  Inner code f := ∃ n, Parse.substitution (Parse.descent n) code = .error f
  ends h := Pairing.ends_never h
  inside h := h
  next h := .inl h.tokenOf_eq
  advance h hrest _ := by
    obtain ⟨hrest', hbehind⟩ := h.behind hrest
    exact ⟨_, _, hrest', hbehind⟩
  startsArrow h := by rw [h.rest, startsArrow_moved]
  afterNewline h _ := h.newline
  operator h := by rw [h.noIn, h.tokenOf_eq]
  size h := ⟨Nat.le_of_eq h.size.symm, fun _ => Nat.le_of_eq h.size⟩
  withNoIn h b := h.withNoIn b
  restore h h' := by
    rw [h.noIn]
    exact h'.withNoIn _
  fault _ h := ⟨h.tokenOf_eq, fun e => .inl (by rw [h.line]; rfl)⟩
  inner := by
    rintro i s s' chunks code f h hs hcode ⟨n, hn⟩
    obtain ⟨p, rest, hrest, hp⟩ := Parse.rest_of_ne_stop (s := s) (by rw [hs]; exact nofun)
    have hmem : p ∈ tokens := h.suffix.subset (hrest ▸ List.mem_cons_self)
    exact .inr ⟨rfl, p, hmem, chunks, code, n, hp.trans hs, hcode, hn⟩

/-- By induction on the level; the source of a substitution is the same one in both inputs. -/
theorem Parse.Descent.beside_moved (k : Nat) (tokens : List Placed) (n : Nat) :
    (descent n).Beside (.moved k tokens) (descent n) := by
  induction n with
  | zero =>
    exact ⟨fun _ => .fail _, .fail _, .fail _, fun _ => .fail _, .fail _, id, fun _ h => ⟨h, 0, h⟩⟩
  | succ n ih =>
    exact ⟨.statement ih, .assignment ih, .unary ih, fun least => .binary ih least, .primary ih, id,
      fun _ h => ⟨h, n + 1, h⟩⟩

theorem Pairing.Reads.program_moved (k : Nat) (tokens : List Placed) :
    (Pairing.moved k tokens).Reads Anywhere [] (fun _ => []) Parse.program Parse.program := by
  refine .repeatFrom fun done => .atStop (fun _ => id) fun _ => .ite (fun _ => .pure rfl) fun _ => ?_
  exact .bind ((Parse.Descent.beside_moved k tokens Parse.maxNesting).statement fun _ => id) fun _ => .pure rfl

/-- A source behind some newlines reads the same, and what is wrong with it is found as many lines further down;
only what is wrong with the source of a substitution in a template is found on the line that it has there. -/
theorem lines_move_with_source (source : String) (k : Nat) :
    match parseProgram source with
    | .ok statements => parseProgram (String.ofList (List.replicate k '\n') ++ source) = .ok statements
    | .error f =>
      parseProgram (String.ofList (List.replicate k '\n') ++ source) = .error (f.moved k) ∨
        parseProgram (String.ofList (List.replicate k '\n') ++ source) = .error f ∧
          ∃ tokens, tokenize source.toList = .ok tokens ∧ FaultInside tokens f := by
  have hmoved := tokenize_newlines k source.toList
  have hplaced := tokenizes source.toList
  have htext : (String.ofList (List.replicate k '\n') ++ source).toList =
      List.replicate k '\n' ++ source.toList := by
    rw [String.toList_append, String.toList_ofList]
  rw [parseProgram, parseProgram, htext, hmoved]
  cases htokens : tokenize source.toList with
  | error f => exact .inl rfl
  | ok tokens =>
    rw [htokens] at hplaced
    have hstart : Input.IsMoved k tokens { rest := tokens, size := tokens.length }
        { rest := tokens.map (Placed.moved k), size := (tokens.map (Placed.moved k)).length } := by
      obtain ⟨p, rest, rfl⟩ := List.exists_cons_of_ne_nil hplaced.1
      -- No token is in front of the first one, and it begins on a line of the source in both.
      have hfirst : 1 ≤ p.line := (hplaced.2 p List.mem_cons_self).first
      refine ⟨List.suffix_rfl, rfl, List.length_map _, rfl, rfl, ?_⟩
      change 0 < p.line + k ↔ 0 < p.line
      omega
    have hread := Pairing.Reads.program_moved k tokens _ _ hstart trivial
    dsimp only [tokensMoved]
    cases hprogram : Parse.program { rest := tokens, size := tokens.length } with
    | ok x =>
      obtain ⟨statements, t⟩ := x
      rw [hprogram] at hread
      obtain ⟨t', hread', -⟩ := hread
      rw [hread']
    | error f =>
      rw [hprogram] at hread
      obtain ⟨f', hread', rfl | ⟨rfl, hinside⟩⟩ := hread trivial
      · rw [hread']
        exact .inl rfl
      · rw [hread']
        exact .inr ⟨rfl, tokens, rfl, hinside⟩

def faultLine? (source : String) : Option Nat :=
  match parseProgram source with
  | .ok _ => none
  | .error f => some f.line

/-- A substitution on the second line of a source that ends where an operand is missing. -/
theorem substitution_counts_its_own_lines :
    faultLine? "\x60$\x7ba +\x7d\x60" = some 1 ∧ faultLine? ("\n" ++ "\x60$\x7ba +\x7d\x60") = some 1 := by
  decide +kernel

-- An expression that is read on its own, next to the same one some lines further down in front of a
-- closing bracket. What is read up to the end there is read up to the bracket here. Whether the
-- word `in` is an operator has to be the same for both, unless the word does not occur.

open Parse

/-- A bracket that closes stands behind expressions. -/
theorem endMarks_of_closers {m : String} (hm : m ∈ closers) : m ∈ endMarks := List.mem_append_left [","] hm

theorem isArrow_append (ts : List Placed) {more more' : List Placed} (k : Nat)
    (hmore : isMarkToken "=>" (tokenOf more') = isMarkToken "=>" (tokenOf more)) :
    isMarkToken "=>" (tokenOf (ts.map (Placed.moved k) ++ more')) = isMarkToken "=>" (tokenOf (ts ++ more)) := by
  cases ts with
  | nil => exact hmore
  | cons p rest => rfl

theorem closesBeforeArrow_opening {m c : String} (hm : closerOf? m = some c) (depth line : Nat) (rest : List Placed) :
    closesBeforeArrow depth (⟨.mark m, line⟩ :: rest) = closesBeforeArrow (depth + 1) rest := by
  have hopens : (m == "(" || m == "[" || m == "\x7b") = true := by
    unfold closerOf? at hm
    split at hm <;> first | rfl | cases hm
  simp only [closesBeforeArrow, hopens, if_true]

theorem closesBeforeArrow_closing {c : String} (hc : c ∈ closers) (depth line : Nat) (rest : List Placed) :
    closesBeforeArrow depth (⟨.mark c, line⟩ :: rest) =
      if depth ≤ 1 then isMarkToken "=>" (tokenOf rest) else closesBeforeArrow (depth - 1) rest := by
  have hcloses : (c == "(" || c == "[" || c == "\x7b") = false ∧ (c == ")" || c == "]" || c == "\x7d") = true := by
    simp only [closers, List.mem_cons, List.not_mem_nil, or_false] at hc
    rcases hc with rfl | rfl | rfl <;> exact ⟨rfl, rfl⟩
  simp only [closesBeforeArrow, hcloses.1, hcloses.2, if_true, Bool.false_eq_true, if_false]

theorem closesBeforeArrow_other {p : Placed} (hbracket : p.token.isBracket = false) (hstop : p.token ≠ .stop)
    (depth : Nat) (rest : List Placed) : closesBeforeArrow depth (p :: rest) = closesBeforeArrow depth rest := by
  obtain ⟨token, line⟩ := p
  cases token with
  | stop => exact absurd rfl hstop
  | mark m =>
    have hplain : (m == "(" || m == "[" || m == "\x7b") = false ∧ (m == ")" || m == "]" || m == "\x7d") = false := by
      simp only [Token.isBracket, bracketMarks, List.contains_cons, List.contains_nil, Bool.or_false,
        Bool.or_eq_false_iff] at hbracket
      simp only [hbracket, Bool.or_self, and_self]
    simp only [closesBeforeArrow, hplain.1, hplain.2, Bool.false_eq_true, if_false]
  | _ => rfl

/-- A parenthesis that some tokens close is closed by them, whatever stands behind them; by induction on the tokens.
Of the brackets that are open, those that are counted are the innermost ones. -/
theorem closesBeforeArrow_append {i j : OpenBrackets} {ts more more' : List Placed} (k : Nat) (h : Brackets i ts j)
    (hmore : isMarkToken "=>" (tokenOf more') = isMarkToken "=>" (tokenOf more)) {depth : Nat} (hpos : 0 < depth)
    (hdepth : depth + j.length ≤ i.length) :
    closesBeforeArrow depth (ts.map (Placed.moved k) ++ more') = closesBeforeArrow depth (ts ++ more) := by
  induction h generalizing depth with
  | nil => omega
  | @opening i _ rest m c hm line _ ih =>
    have hrest := ih (Nat.succ_pos depth) (by rw [List.length_cons]; omega)
    rw [List.cons_append, closesBeforeArrow_opening hm, ← hrest]
    exact closesBeforeArrow_opening hm depth (line + k) _
  | @closing i _ rest c hc line _ ih =>
    rw [List.length_cons] at hdepth
    rw [List.cons_append, closesBeforeArrow_closing hc]
    refine (closesBeforeArrow_closing hc depth (line + k) (rest.map (Placed.moved k) ++ more')).trans ?_
    by_cases hlast : depth ≤ 1
    · -- The parenthesis closes here, so only the next token counts.
      rw [if_pos hlast, if_pos hlast]
      exact isArrow_append rest k hmore
    · rw [if_neg hlast, if_neg hlast]
      exact ih (by omega) (by omega)
  | @other i _ p rest hbracket hstop _ ih =>
    rw [List.cons_append, closesBeforeArrow_other hbracket hstop, ← ih hpos hdepth]
    exact closesBeforeArrow_other (p := p.moved k) hbracket hstop depth _

/-- A parenthesis in front of tokens that pair their brackets is closed behind them; by induction on the tokens. -/
theorem closesBeforeArrow_within {i j : OpenBrackets} {ts : List Placed} (h : Brackets i ts j) (more : List Placed) :
    closesBeforeArrow (i.length + 1) (ts ++ more) = closesBeforeArrow (j.length + 1) more := by
  induction h with
  | nil => rfl
  | opening hm line _ ih => exact (closesBeforeArrow_opening hm _ line _).trans ih
  | closing hc line _ ih =>
    refine (closesBeforeArrow_closing hc _ line _).trans ?_
    rw [List.length_cons, if_neg (by omega)]
    exact ih
  | other hbracket hstop _ ih => exact (closesBeforeArrow_other hbracket hstop _ _).trans ih

theorem Brackets.moved {i j : OpenBrackets} {ts : List Placed} (h : Brackets i ts j) (k : Nat) :
    Brackets i (ts.map (Placed.moved k)) j := by
  induction h with
  | nil => exact .nil
  | opening hm line _ ih => exact .opening hm (line + k) ih
  | closing hc line _ ih => exact .closing hc (line + k) ih
  | other hbracket hstop _ ih => exact .other hbracket hstop ih

/-- Whether tokens that pair their brackets begin with the parameters of an arrow function does not depend on what
stands behind them, if that does not begin with an arrow or a parenthesis. -/
theorem startsArrow_append {i : OpenBrackets} {ts more more' : List Placed} (k : Nat) (h : Brackets i ts [])
    (hmore : isMarkToken "=>" (tokenOf more') = isMarkToken "=>" (tokenOf more))
    (hbehind : startsArrow more' = startsArrow more) :
    startsArrow (ts.map (Placed.moved k) ++ more') = startsArrow (ts ++ more) := by
  cases ts with
  | nil => exact hbehind
  | cons p rest =>
    have harrow := isArrow_append rest k hmore
    obtain ⟨token, line⟩ := p
    rw [List.map_cons, List.cons_append, List.cons_append]
    cases token with
    | word name =>
      -- A name is a parameter where an arrow stands behind it.
      change (!reserved.contains name && _) = (!reserved.contains name && _)
      rw [List.tail_cons, List.tail_cons, harrow]
    | mark m =>
      by_cases hm : m = "("
      · subst hm
        have hrest : Brackets (")" :: i) rest [] := by
          have hfirst : Brackets i [⟨.mark "(", line⟩] (")" :: i) := .opening rfl line .nil
          exact hfirst.rest h
        change closesBeforeArrow 1 (rest.map (Placed.moved k) ++ more') = closesBeforeArrow 1 (rest ++ more)
        exact closesBeforeArrow_append k hrest hmore Nat.one_pos (Nat.succ_le_succ (Nat.zero_le _))
      · have hnone (line : Nat) (tokens : List Placed) : startsArrow (⟨.mark m, line⟩ :: tokens) = false := by
          unfold startsArrow
          split
          · next heq => cases heq
          · next heq => exact absurd (Token.mark.inj heq) hm
          · rfl
        exact (hnone _ _).trans (hnone _ _).symm
    | _ => rfl

/-- The tokens of an expression up to the end, of which some are left, and the same ones some lines further down in
front of others. Whether the word `in` is an operator may differ if it is not among them. -/
structure Input.IsWithin (k : Nat) (free : Prop) (behind : List Placed) (total : Nat) (i : OpenBrackets)
    (left : List Placed) (s s' : Input) : Prop where
  rest : ∃ line, s.rest = left ++ [⟨.stop, line⟩]
  rest' : s'.rest = left.map (Placed.moved k) ++ behind
  brackets : Brackets i left []
  words : free → ∀ p ∈ left, p.token ≠ .word "in"
  noIn : free ∨ s'.noIn = s.noIn
  previousLine : s'.previousLine = s.previousLine + k
  size : s.size ≤ total
  size' : s'.size = total

namespace Input.IsWithin

variable {k total : Nat} {free : Prop} {behind left : List Placed} {i : OpenBrackets} {s s' : Input}

theorem head {p : Placed} (h : s.IsWithin k free behind total i (p :: left) s') :
    tokenOf s.rest = p.token ∧ tokenOf s'.rest = p.token ∧ s.line = p.line ∧ s'.line = p.line + k := by
  obtain ⟨line, hrest⟩ := h.rest
  refine ⟨by rw [hrest]; rfl, by rw [h.rest']; rfl, ?_, ?_⟩
  · rw [Input.line, hrest]
    rfl
  · rw [Input.line, h.rest']
    rfl

theorem withNoIn (h : s.IsWithin k free behind total i left s') {b b' : Bool} (hb : free ∨ b' = b) :
    Input.IsWithin k free behind total i left { s with noIn := b } { s' with noIn := b' } :=
  ⟨h.rest, h.rest', h.brackets, h.words, hb, h.previousLine, h.size, h.size'⟩

end Input.IsWithin

def Pairing.within (k : Nat) (free : Prop) {m : String} (hm : m ∈ closers) (line : Nat) (tail : List Placed)
    (total : Nat) : Pairing where
  Belongs i s s' := ∃ left, s.IsWithin k free (⟨.mark m, line⟩ :: tail) total i left s'
  Ends i m' := i = [] ∧ m' = m
  Strict := False
  Fault _ _ := True
  Inner _ _ := False
  ends h := h.2 ▸ endMarks_of_closers hm
  inside h := List.cons_ne_nil _ _ h.1
  next := by
    rintro i s s' ⟨left, h⟩
    cases left with
    | nil =>
      obtain ⟨stop, hrest⟩ := h.rest
      refine .inr ⟨by rw [hrest]; rfl, m, ⟨?_, rfl⟩, by rw [h.rest']; rfl⟩
      cases h.brackets
      rfl
    | cons p left => exact .inl (h.head.2.1.trans h.head.1.symm)
  advance := by
    rintro i j s s' p rest ⟨left, h⟩ hrest hbrackets
    obtain ⟨stop, htokens⟩ := h.rest
    rw [hrest] at htokens
    cases left with
    | nil =>
      -- The end would be passed, of which no brackets are known.
      obtain ⟨rfl, -⟩ := List.cons.inj htokens
      exact absurd rfl hbrackets.ne_stop
    | cons q left =>
      obtain ⟨rfl, rfl⟩ := List.cons.inj htokens
      refine ⟨p.moved k, _, h.rest', left, ⟨stop, rfl⟩, rfl, hbrackets.rest h.brackets, fun hfree q hq => ?_, h.noIn,
        rfl, h.size, h.size'⟩
      exact h.words hfree q (List.mem_cons_of_mem p hq)
  startsArrow := by
    rintro i s s' ⟨left, h⟩
    obtain ⟨stop, hrest⟩ := h.rest
    rw [hrest, h.rest']
    have hclose : isMarkToken "=>" (.mark m) = false ∧ Parse.startsArrow (⟨.mark m, line⟩ :: tail) = false := by
      simp only [closers, List.mem_cons, List.not_mem_nil, or_false] at hm
      rcases hm with rfl | rfl | rfl <;> exact ⟨rfl, rfl⟩
    exact startsArrow_append k h.brackets hclose.1 hclose.2
  afterNewline := by
    rintro i s s' ⟨left, h⟩ hsame
    cases left with
    | nil =>
      obtain ⟨stop, hrest⟩ := h.rest
      rw [hrest, h.rest'] at hsame
      cases hsame
    | cons p left =>
      rw [h.head.2.2.1, h.head.2.2.2, h.previousLine]
      exact Nat.add_lt_add_iff_right
  operator := by
    rintro i s s' ⟨left, h⟩
    cases left with
    | nil =>
      obtain ⟨stop, hrest⟩ := h.rest
      have hnone : Parse.infixOf? s'.noIn (.mark m) = none :=
        Pairing.Reads.infixOf?_bracket s'.noIn m (List.contains_iff_mem.mp (isBracket_of_closing hm))
      rw [hrest, h.rest']
      exact hnone
    | cons p left =>
      rw [h.head.1, h.head.2.1]
      rcases h.noIn with hfree | heq
      · -- The flag may differ, but only the word `in` depends on it.
        have hword := h.words hfree p List.mem_cons_self
        unfold Parse.infixOf?
        split
        · rfl
        · rfl
        · next hin => exact absurd hin hword
        · rfl
      · rw [heq]
  size h := by
    obtain ⟨left, h⟩ := h
    exact ⟨h.size' ▸ h.size, False.elim⟩
  withNoIn := by
    rintro i s s' ⟨left, h⟩ b
    exact ⟨left, h.withNoIn (.inr rfl)⟩
  restore := by
    rintro i j s s' t t' ⟨left, h⟩ ⟨left', h'⟩
    exact ⟨left', h'.withNoIn h.noIn⟩
  fault h := h.elim
  inner _ _ _ h := h.elim

/-- Whatever is read on a level is read on each higher one in front of a bracket too, by induction on the lower
level; the sources of substitutions are the same ones. -/
theorem Parse.Descent.beside_within (k : Nat) (free : Prop) {c : String} (hc : c ∈ closers) (line : Nat)
    (tail : List Placed) (total : Nat) {m n : Nat} (h : m ≤ n) :
    (descent m).Beside (.within k free hc line tail total) (descent n) := by
  have hinner {m n : Nat} (h : m ≤ n) {code : String} {e : Expr} (hread : substitution (descent m) code = .ok e) :
      substitution (descent n) code = .ok e := (Descent.beside_anywhere h).inner hread
  induction m generalizing n with
  | zero =>
    -- There is no room for anything on the lower level.
    have hfail {P : Input → Prop} {i : OpenBrackets} {α : Type} {q : Parse α} :
        (Pairing.within k free hc line tail total).Reads P i (fun _ => i) (Parse.fail .nestingTooDeep) q :=
      .failLoosely id _
    exact ⟨fun _ => hfail, hfail, hfail, fun _ => hfail, hfail, hinner h, False.elim⟩
  | succ m ih =>
    cases n with
    | zero => cases h
    | succ n =>
      have hbelow := ih (Nat.le_of_succ_le_succ h)
      exact ⟨.statement hbelow, .assignment hbelow, .unary hbelow, fun least => .binary hbelow least,
        .primary hbelow, hinner h, False.elim⟩

end Snippet.Script
