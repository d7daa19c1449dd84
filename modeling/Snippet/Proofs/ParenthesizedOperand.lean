import Snippet.Proofs.PairedParser

/-!
An operand that is itself an operator applied to two values stands in parentheses.
-/

namespace Snippet.Script

open Parse

def Expr.isInfix : Expr → Bool
  | .binary _ _ _ => true
  | .logical _ _ _ => true
  | _ => false

/-- Tokens that begin and end with parentheses, behind any number of words that make no difference to a value. -/
def Parenthesized (tokens : List Placed) : Prop :=
  ∃ awaits opening inside closing, tokens = awaits ++ opening :: (inside ++ [closing]) ∧
    (∀ p ∈ awaits, p.token = .word "await") ∧ opening.token = .mark "(" ∧ closing.token = .mark ")"

theorem Parenthesized.cons {tokens : List Placed} {p : Placed} (h : Parenthesized tokens)
    (hp : p.token = .word "await") : Parenthesized (p :: tokens) := by
  obtain ⟨awaits, opening, inside, closing, rfl, hawaits, hends⟩ := h
  exact ⟨p :: awaits, opening, inside, closing, rfl, List.forall_mem_cons.mpr ⟨hp, hawaits⟩, hends⟩

def NeverInfix (p : Parse Expr) : Prop := ∀ s e t, p s = .ok (e, t) → e.isInfix = false

def InfixEnclosed (p : Parse Expr) : Prop :=
  ∀ s e t, p s = .ok (e, t) → e.isInfix = true → ∃ passed, s.rest = passed ++ t.rest ∧ Parenthesized passed

namespace NeverInfix

variable {α : Type} {p q : Parse Expr}

theorem pure {e : Expr} (he : e.isInfix = false) : NeverInfix (Pure.pure e) := by
  intro s x t h
  cases h
  exact he

theorem fail (e : SyntaxError) : NeverInfix (Parse.fail e) := by
  intro s x t h
  cases h

theorem unexpected : NeverInfix Parse.unexpected := by
  intro s x t h
  cases h

theorem bind {p : Parse α} {f : α → Parse Expr} (hf : ∀ a, NeverInfix (f a)) : NeverInfix (p >>= f) := by
  intro s x t h
  obtain ⟨a, u, -, hrest⟩ := of_parse_bind h
  exact hf a u x t hrest

theorem elim (hp : NeverInfix p) {s t : Input} {e : Expr} (h : p s = .ok (e, t)) (he : e.isInfix = true)
    {claim : Prop} : claim := by
  cases he.symm.trans (hp s e t h)

/-- A word other than a name begins an operand of its own. -/
theorem wordExpr (d : Descent) (name : String) : NeverInfix (Parse.wordExpr d name) := by
  unfold Parse.wordExpr
  split
  · exact bind fun _ => pure rfl
  · exact bind fun _ => pure rfl
  · exact bind fun _ => pure rfl
  · exact bind fun _ => pure rfl
  · exact bind fun _ => pure rfl
  · exact bind fun _ => bind fun _ => pure rfl
  · exact bind fun _ => pure rfl
  · exact fail _
  · exact bind fun _ => pure rfl

theorem construction (d : Descent) : NeverInfix (Parse.construction d) := by
  refine bind fun _ => bind fun _ => bind fun _ => bind fun _ => ?_
  split
  · exact bind fun _ => pure rfl
  · exact bind fun _ => pure rfl

end NeverInfix

theorem word_of_isWord {w : String} {t : Token} (h : isWordToken w t = true) : t = .word w := by
  cases t with
  | word w' => exact congrArg Token.word (eq_of_beq h)
  | _ => cases h

/-- A mark that is left out if it does not come next. -/
theorem of_eatMark {m : String} {eaten : Bool} {s t : Input} (h : Parse.eatMark m s = .ok (eaten, t)) :
    (eaten = true ∧ ∃ line, s.rest = ⟨.mark m, line⟩ :: t.rest) ∨ (eaten = false ∧ t = s) := by
  have hat : Parse.atMark m s = .ok (isMarkToken m (tokenOf s.rest), s) := rfl
  unfold Parse.eatMark at h
  rw [parse_bind _ s hat] at h
  cases hmark : isMarkToken m (tokenOf s.rest) with
  | false =>
    rw [hmark] at h
    cases h
    exact .inr ⟨rfl, rfl⟩
  | true =>
    rw [hmark, if_pos rfl] at h
    obtain ⟨line, rest, hrest⟩ := rest_of_isMark hmark
    obtain ⟨tokens, size, previousLine, noIn⟩ := s
    cases hrest
    cases h
    exact .inl ⟨rfl, line, rfl⟩

theorem of_expectMark {m : String} {s t : Input} (h : Parse.expectMark m s = .ok ((), t)) :
    ∃ line, s.rest = ⟨.mark m, line⟩ :: t.rest := by
  obtain ⟨eaten, u, heat, h⟩ := of_parse_bind h
  rcases of_eatMark heat with ⟨rfl, hmark⟩ | ⟨rfl, -⟩
  · cases h
    exact hmark
  · cases h

theorem of_ifMark {m : String} {α : Type} {p q : Parse α} {x : α} {s t : Input}
    (h : (Parse.eatMark m >>= fun eaten => if eaten = true then p else q) s = .ok (x, t)) :
    (∃ u, p u = .ok (x, t)) ∨ q s = .ok (x, t) := by
  obtain ⟨eaten, u, heat, hrest⟩ := of_parse_bind h
  rcases of_eatMark heat with ⟨rfl, -⟩ | ⟨rfl, rfl⟩
  · exact .inl ⟨u, hrest⟩
  · exact .inr hrest

/-- A round behind a value makes a member or a call of it, or leaves everything as it is. -/
theorem of_chainRound {d : Descent} {e : Expr} {r : Step Expr Expr} {s t : Input}
    (h : Parse.chainRound d e s = .ok (r, t)) :
    (r = .done e ∧ t = s) ∨ ∃ e', r = .more e' ∧ e'.isInfix = false := by
  rcases of_ifMark h with ⟨u, h⟩ | h
  · obtain ⟨name, v, -, h⟩ := of_parse_bind h
    cases h
    exact .inr ⟨_, rfl, rfl⟩
  rcases of_ifMark h with ⟨u, h⟩ | h
  · obtain ⟨opens, v, -, h⟩ := of_parse_bind h
    split at h
    · obtain ⟨args, w, -, h⟩ := of_parse_bind h
      cases h
      exact .inr ⟨_, rfl, rfl⟩
    rcases of_ifMark h with ⟨w, h⟩ | h
    · obtain ⟨key, x, -, h⟩ := of_parse_bind h
      cases h
      exact .inr ⟨_, rfl, rfl⟩
    · obtain ⟨name, x, -, h⟩ := of_parse_bind h
      cases h
      exact .inr ⟨_, rfl, rfl⟩
  rcases of_ifMark h with ⟨u, h⟩ | h
  · obtain ⟨key, v, -, h⟩ := of_parse_bind h
    cases h
    exact .inr ⟨_, rfl, rfl⟩
  rw [parse_bind (p := Parse.atMark "(") _ s rfl] at h
  split at h
  · obtain ⟨args, v, -, h⟩ := of_parse_bind h
    cases h
    exact .inr ⟨_, rfl, rfl⟩
  · cases h
    exact .inl ⟨rfl, rfl⟩

/-- An operator applied to two values has no round behind it; by induction on the rounds. -/
theorem of_chainRounds {d : Descent} {fuel : Nat} {first e : Expr} {s t : Input}
    (h : iterate (Parse.chainRound d) fuel first s = .ok (e, t)) (he : e.isInfix = true) :
    e = first ∧ t = s := by
  induction fuel generalizing first s with
  | zero => cases h
  | succ fuel ih =>
    obtain ⟨r, u, hround, hrest⟩ := of_parse_bind h
    rcases of_chainRound hround with ⟨rfl, rfl⟩ | ⟨e', rfl, he'⟩
    · cases hrest
      exact ⟨rfl, rfl⟩
    · obtain ⟨rfl, -⟩ := ih hrest
      cases he'.symm.trans he

/-- A word in front of a function is passed only if the function comes next. -/
theorem of_skipAsync {s u : Input} (h : Parse.skipAsync s = .ok ((), u)) :
    u = s ∨ isWordToken "function" (tokenOf u.rest) = true := by
  unfold Parse.skipAsync at h
  rw [parse_bind (p := Parse.atWord "async") _ s rfl, parse_bind (p := Parse.peekSecond) _ s rfl] at h
  split at h
  · next hboth =>
    have hsecond := (Bool.and_eq_true_iff.mp hboth).2
    obtain ⟨tokens, size, previousLine, noIn⟩ := s
    cases tokens with
    | nil => cases hsecond
    | cons p rest =>
      cases h
      exact .inr hsecond
  · cases h
    exact .inl rfl

namespace InfixEnclosed

variable {d : Descent}

/-- What stands in parentheses ends with the closing one, wherever the expression inside ends. -/
theorem inParentheses (hd : d.Beside (.same .anywhere) d) {s t : Input} {e : Expr} (hnext : tokenOf s.rest = .mark "(")
    (h : (do
      Parse.advance
      let e ← Parse.withIn (Parse.expression d)
      Parse.expectMark ")"
      return e : Parse Expr) s = .ok (e, t)) : ∃ passed, s.rest = passed ++ t.rest ∧ Parenthesized passed := by
  obtain ⟨⟨⟩, u, hopening, hinside⟩ := of_parse_bind h
  obtain ⟨e', v, hread, hclosing⟩ := of_parse_bind hinside
  obtain ⟨⟨⟩, w, hmark, hdone⟩ := of_parse_bind hclosing
  cases hdone
  obtain ⟨line, hrest⟩ := of_expectMark hmark
  obtain ⟨-, inside, hpassed, -⟩ :=
    (Pairing.Reads.withIn (.expression hd id) (i := [])).same trivial hread
  obtain ⟨tokens, size, previousLine, noIn⟩ := s
  cases tokens with
  | nil => cases hnext
  | cons p rest =>
    cases hopening
    refine ⟨p :: (inside ++ [⟨.mark ")", line⟩]), ?_, [], p, inside, _, rfl, nofun, hnext, rfl⟩
    have hbehind : rest = inside ++ v.rest := hpassed
    rw [hbehind, hrest, List.cons_append, List.append_assoc]
    rfl

/-- An operator inside of an operand stands in parentheses, brackets or a function. -/
theorem primary (hd : d.Beside (.same .anywhere) d) : InfixEnclosed (Parse.primary d) := by
  intro s e t h he
  obtain ⟨⟨⟩, u, hskip, hread⟩ := of_parse_bind h
  rw [parse_bind (tokenOf u.rest) u rfl] at hread
  generalize hnext : tokenOf u.rest = next at hread
  split at hread
  · exact NeverInfix.elim (.bind fun _ => .pure rfl) hread he
  · exact NeverInfix.elim (.bind fun _ => .pure rfl) hread he
  · exact NeverInfix.elim (.bind fun _ => .bind fun _ => .pure rfl) hread he
  · -- The parenthesis is the first token, as the word that is passed before has a function behind it.
    rcases of_skipAsync hskip with rfl | hfunction
    · exact inParentheses hd hnext hread
    · rw [hnext] at hfunction
      cases hfunction
  · exact NeverInfix.elim (.bind fun _ => .bind fun _ => .pure rfl) hread he
  · exact NeverInfix.elim (.bind fun _ => .bind fun _ => .pure rfl) hread he
  · exact NeverInfix.elim (.wordExpr d _) hread he
  · exact NeverInfix.elim .unexpected hread he

/-- A link adds no operator that is not enclosed. -/
theorem chain (hd : d.Beside (.same .anywhere) d) : InfixEnclosed (Parse.chain d) := by
  intro s e t h he
  unfold Parse.chain at h
  rw [parse_bind (p := Parse.atWord "new") _ s rfl] at h
  split at h
  · obtain ⟨first, u, hfirst, hrounds⟩ := of_parse_bind h
    obtain ⟨rfl, rfl⟩ := of_chainRounds hrounds he
    exact NeverInfix.elim (.construction d) hfirst he
  · obtain ⟨first, u, hfirst, hrounds⟩ := of_parse_bind h
    obtain ⟨rfl, rfl⟩ := of_chainRounds hrounds he
    exact primary hd s e t hfirst he

/-- A step behind an operand is no operator between two of them. -/
theorem postfixed (hd : d.Beside (.same .anywhere) d) : InfixEnclosed (Parse.postfixed d) := by
  intro s e t h he
  obtain ⟨first, u, hfirst, hread⟩ := of_parse_bind h
  rw [parse_bind (tokenOf u.rest) u rfl] at hread
  cases hupdate : updateOf? (tokenOf u.rest) with
  | none =>
    rw [hupdate] at hread
    cases hread
    exact chain hd s e t hfirst he
  | some increment =>
    rw [hupdate] at hread
    dsimp only at hread
    rw [parse_bind (p := Parse.afterNewline) _ u rfl] at hread
    split at hread
    · cases hread
      exact chain hd s e t hfirst he
    · exact NeverInfix.elim (.bind fun _ => .pure rfl) hread he

/-- An operator in front of an operand is part of its value, but for a word that leaves no trace. -/
theorem unary (hd : d.Beside (.same .anywhere) d) (hbelow : InfixEnclosed d.unary) : InfixEnclosed (Parse.unary d) := by
  intro s e t h he
  unfold Parse.unary at h
  rw [parse_bind (tokenOf s.rest) s rfl] at h
  cases hupdate : updateOf? (tokenOf s.rest) with
  | some increment =>
    rw [hupdate] at h
    exact NeverInfix.elim (.bind fun _ => .bind fun _ => .pure rfl) h he
  | none =>
    rw [hupdate] at h
    dsimp only at h
    split at h
    · next hawait =>
      obtain ⟨⟨⟩, u, hpassed, hread⟩ := of_parse_bind h
      obtain ⟨passed, hrest, hparenthesized⟩ := hbelow u e t hread he
      obtain ⟨tokens, size, previousLine, noIn⟩ := s
      cases tokens with
      | nil => cases hawait
      | cons p rest =>
        cases hpassed
        exact ⟨p :: passed, congrArg (p :: ·) hrest, hparenthesized.cons (word_of_isWord hawait)⟩
    · cases hop : unaryOf? (tokenOf s.rest) with
      | some op =>
        rw [hop] at h
        exact NeverInfix.elim (.bind fun _ => .bind fun _ => .pure rfl) h he
      | none =>
        rw [hop] at h
        exact postfixed hd s e t h he

/-- By induction on the level, as operands behind a word are read one level further down. -/
theorem unary_descent (n : Nat) : InfixEnclosed (descent n).unary := by
  induction n with
  | zero =>
    intro s e t h
    cases h
  | succ n ih => exact unary (Descent.beside (Nat.le_refl n)) ih

end InfixEnclosed

end Snippet.Script
