import Snippet.Proofs.MovedSource
import Snippet.Proofs.OperandReading
import Snippet.Proofs.SubstitutionSource

/-!
Brackets in the head of a counting loop. The word `in` is no operator in the first part of such a head. Parentheses
and the arguments of a call make it one again, and what stands between them is read as it is on its own; all other
brackets leave it as it is.
-/

namespace Snippet.Script

open Parse

def Rejects {α : Type} (p : Parse α) (s : Input) : Prop := ∃ f, p s = .error f

namespace Rejects

variable {α β : Type} {p : Parse α} {f : α → Parse β} {s t : Input} {a : α}

theorem bind (h : Rejects p s) : Rejects (p >>= f) s := by
  obtain ⟨e, he⟩ := h
  exact ⟨e, parse_bind_error he⟩

theorem behind (hp : p s = .ok (a, t)) (h : Rejects (f a) t) : Rejects (p >>= f) s := by
  obtain ⟨e, he⟩ := h
  exact ⟨e, (parse_bind a t hp).trans he⟩

theorem not_ok (h : Rejects p s) : p s ≠ .ok (a, t) := by
  obtain ⟨e, he⟩ := h
  rw [he]
  exact nofun

end Rejects

def BeginsNothing (t : Token) : Prop := t = .word "in" ∨ ∃ m ∈ "..." :: endMarks, t = .mark m

namespace BeginsNothing

variable {d : Descent} {s : Input}

/-- Where nothing begins an operand, there is none to be read. -/
theorem primary (h : BeginsNothing (tokenOf s.rest)) : Rejects (Parse.primary d) s := by
  have hasync : skipAsync s = .ok ((), s) := by
    have hword : isWordToken "async" (tokenOf s.rest) = false := by
      rcases h with h | ⟨m, -, h⟩ <;> rw [h] <;> rfl
    refine (parse_bind (isWordToken "async" (tokenOf s.rest)) s rfl).trans ?_
    refine (parse_bind (tokenOf s.rest.tail) s rfl).trans ?_
    rw [hword]
    rfl
  refine .behind hasync (.behind (a := tokenOf s.rest) (t := s) rfl ?_)
  rcases h with h | ⟨m, hm, h⟩
  · rw [h]
    refine .bind (.behind (a := tokenOf s.rest) (t := s) rfl ?_)
    rw [h]
    exact ⟨_, rfl⟩
  · rw [h]
    simp only [endMarks, List.mem_cons, List.not_mem_nil, or_false] at hm
    rcases hm with rfl | rfl | rfl | rfl | rfl <;> exact ⟨_, rfl⟩

/-- Nor is there one behind the operators in front. -/
theorem unary (h : BeginsNothing (tokenOf s.rest)) : Rejects (Parse.unary d) s := by
  have hnone : updateOf? (tokenOf s.rest) = none ∧ isWordToken "await" (tokenOf s.rest) = false ∧
      unaryOf? (tokenOf s.rest) = none ∧ isWordToken "new" (tokenOf s.rest) = false := by
    rcases h with h | ⟨m, hm, h⟩
    · rw [h]
      exact ⟨rfl, rfl, rfl, rfl⟩
    · rw [h]
      simp only [endMarks, List.mem_cons, List.not_mem_nil, or_false] at hm
      rcases hm with rfl | rfl | rfl | rfl | rfl <;> exact ⟨rfl, rfl, rfl, rfl⟩
  obtain ⟨hupdate, hawait, hunary, hnew⟩ := hnone
  refine .behind (a := tokenOf s.rest) (t := s) rfl ?_
  simp only [hupdate, hawait, hunary, if_neg Bool.false_ne_true]
  refine .bind (.behind (a := isWordToken "new" (tokenOf s.rest)) (t := s) rfl ?_)
  rw [hnew]
  exact h.primary.bind

/-- Nor can an assignment begin there. -/
theorem assignment (h : BeginsNothing (tokenOf s.rest)) (n : Nat) : Rejects (descent n).assignment s := by
  cases n with
  | zero => exact ⟨_, rfl⟩
  | succ n =>
    have hasync : isWordToken "async" (tokenOf s.rest) = false := by
      rcases h with h | ⟨m, -, h⟩ <;> rw [h] <;> rfl
    have harrow : startsArrow s.rest = false := by
      unfold startsArrow
      rcases h with h | ⟨m, hm, h⟩
      · rw [h]
        rfl
      · rw [h]
        simp only [endMarks, List.mem_cons, List.not_mem_nil, or_false] at hm
        rcases hm with rfl | rfl | rfl | rfl | rfl <;> rfl
    change Rejects (Parse.assignment (descent n)) s
    refine .behind (a := s.rest) (t := s) rfl ?_
    rw [hasync]
    refine .behind (a := s.rest) (t := s) rfl ?_
    rw [harrow]
    exact .bind (.bind (.bind h.unary))

/-- What begins an expression is no mark of these. -/
theorem isMark_eq_false {n : Nat} {e : Expr} {t : Input} (hread : (descent n).assignment s = .ok (e, t)) {m : String}
    (hm : m ∈ "..." :: endMarks) : isMarkToken m (tokenOf s.rest) = false := by
  refine Bool.eq_false_iff.mpr fun hmark => ?_
  obtain ⟨line, rest, hrest⟩ := rest_of_isMark hmark
  have hnothing : BeginsNothing (tokenOf s.rest) := .inr ⟨m, hm, by rw [hrest]; rfl⟩
  exact (hnothing.assignment n).not_ok hread

end BeginsNothing

/-- The tokens of a text are those that it has on its own, further down, and behind them cutting goes on. -/
theorem tokensFrom_text {more text : List Char} (hgap : IsGap more) {ts : List Placed} {l : Nat}
    (htext : tokenize text = .ok (ts ++ [⟨.stop, l⟩])) (k : Nat) (done : List Placed) {fuel : Nat}
    (hfuel : (text ++ more).length < fuel) :
    tokensFrom done fuel ⟨text ++ more, 1 + k⟩ =
      tokensFrom ((ts.map (Placed.moved k)).reverse ++ done) (more.length + 1) ⟨more, l + k⟩ := by
  have hless : text.length + 1 ≤ fuel := by
    rw [List.length_append] at hfuel
    omega
  have hcuts := tokensFrom_moved (k := k) hgap ⟨text, 1⟩ hless (Nat.lt_succ_self _) hfuel [] done
  change CutsAlike k more [] done _ (tokenize text) at hcuts
  rw [htext] at hcuts
  obtain ⟨parts, line, hparts, hcut⟩ := hcuts
  obtain ⟨rfl, hline⟩ := List.append_inj' hparts rfl
  obtain rfl : l = line := congrArg Placed.line (List.singleton_inj.mp hline)
  exact hcut

/-- In front of a newline cutting goes on in the next line. -/
theorem tokensFrom_line (more : List Char) {text : List Char} {ts : List Placed} {l : Nat}
    (htext : tokenize text = .ok (ts ++ [⟨.stop, l⟩])) (k : Nat) (done : List Placed) {fuel : Nat}
    (hfuel : (text ++ '\n' :: more).length < fuel) :
    tokensFrom done fuel ⟨text ++ '\n' :: more, 1 + k⟩ =
      tokensFrom ((ts.map (Placed.moved k)).reverse ++ done) (more.length + 2) ⟨more, 1 + (l + k)⟩ := by
  have hnewline : skipTrivia (more.length + 2) ⟨'\n' :: more, l + k⟩ =
      skipTrivia (more.length + 2) ⟨more, 1 + (l + k)⟩ := by
    have hmore : more.length < more.length + 2 := by omega
    rw [(comesTo_skipTrivia (h := ⟨more, 1 + (l + k)⟩) hmore).2, Nat.add_comm 1 (l + k)]
    rfl
  exact (tokensFrom_text (.inr ⟨more, rfl⟩) htext k done hfuel).trans (tokensFrom_skip_eq hnewline)

/-- At the end of a source nothing is left to cut. -/
theorem tokensFrom_last {text : List Char} {ts : List Placed} {l : Nat}
    (htext : tokenize text = .ok (ts ++ [⟨.stop, l⟩])) (k : Nat) (done : List Placed) {fuel : Nat}
    (hfuel : text.length < fuel) :
    tokensFrom done fuel ⟨text, 1 + k⟩ = .ok (done.reverse ++ ts.map (Placed.moved k) ++ [⟨.stop, l + k⟩]) := by
  have hcut := tokensFrom_text (.inl rfl) htext k done (by rwa [List.append_nil])
  rw [List.append_nil] at hcut
  rw [hcut]
  simp [tokensFrom, skipTrivia]

/-- A text on lines of its own between two others is cut into the tokens of all three. -/
theorem tokenize_between {front text back : List Char} {ts ts' ts'' : List Placed} {l l' l'' : Nat}
    (hfront : tokenize front = .ok (ts ++ [⟨.stop, l⟩])) (htext : tokenize text = .ok (ts' ++ [⟨.stop, l'⟩]))
    (hback : tokenize back = .ok (ts'' ++ [⟨.stop, l''⟩])) :
    tokenize (front ++ '\n' :: (text ++ '\n' :: back)) =
      .ok (ts ++ (ts'.map (Placed.moved l) ++
        (ts''.map (Placed.moved (l' + l)) ++ [⟨.stop, l'' + (l' + l)⟩]))) := by
  have hzero (ts : List Placed) : ts.map (Placed.moved 0) = ts := List.map_id' ts
  have hlength : (text ++ '\n' :: back).length = text.length + back.length + 1 := by
    rw [List.length_append, List.length_cons, Nat.add_assoc]
  have hfirst := tokensFrom_line (text ++ '\n' :: back) hfront 0 [] (Nat.lt_succ_self _)
  have hsecond := tokensFrom_line back htext l (ts.reverse ++ [])
    (show (text ++ '\n' :: back).length < text.length + back.length + 3 by omega)
  have hthird := tokensFrom_last hback (l' + l) ((ts'.map (Placed.moved l)).reverse ++ (ts.reverse ++ []))
    (show back.length < back.length + 2 by omega)
  rw [hzero, hlength] at hfirst
  unfold tokenize
  refine hfirst.trans (hsecond.trans (hthird.trans ?_))
  simp

/-- A place for an expression in brackets: an element of an array, a property of an object, the argument of a call,
parentheses, the key of a member, or a statement in the body of a function or an arrow function. -/
inductive Enclosure where
  | element
  | property
  | argument
  | parentheses
  | key
  | functionBody
  | arrowBody

namespace Enclosure

def opening : Enclosure → String
  | .element => "["
  | .property => "\x7bk: "
  | .argument => "f("
  | .parentheses => "("
  | .key => "o["
  | .functionBody => "function () \x7b throw"
  | .arrowBody => "() => \x7b throw"

def closing : Enclosure → String
  | .element => "]"
  | .property => "\x7d"
  | .argument => ")"
  | .parentheses => ")"
  | .key => "]"
  | .functionBody => "\x7d"
  | .arrowBody => "\x7d"

def tree (e : Expr) : Enclosure → Expr
  | .element => .array [.mk false e]
  | .property => .object [.init (.named "k") e]
  | .argument => .call (.name "f") [.mk false e] false
  | .parentheses => e
  | .key => .member (.name "o") (.computed e) false
  | .functionBody => .function (.mk none [] (.block [.throws e]) false)
  | .arrowBody => .function (.mk none [] (.block [.throws e]) true)

/-- Whether the word `in` is an operator again between the brackets. -/
def resetsIn : Enclosure → Bool
  | .argument => true
  | .parentheses => true
  | _ => false

/-- What is read between the brackets: a sequence of expressions, or only one where a comma separates it from
others. -/
def part : Enclosure → Descent → Parse Expr
  | .element, d => d.assignment
  | .property, d => d.assignment
  | .argument, d => d.assignment
  | _, d => Parse.expression d

/-- The head of a counting loop that begins with the declaration of a variable, whose value is in brackets on lines
of its own, and a body without statements. -/
def head (k : Enclosure) (text : String) : String :=
  "for (let a = " ++ k.opening ++ "\n" ++ text ++ "\n" ++ k.closing ++ "; ;) \x7b\x7d"

def loopOf (e : Expr) : Stmt := .forLoop (some (.decl .letDecl [(.name "a", some e)])) none none (.block [])

def openingTokens : Enclosure → List Token
  | .element => [.mark "["]
  | .property => [.mark "\x7b", .word "k", .mark ":"]
  | .argument => [.word "f", .mark "("]
  | .parentheses => [.mark "("]
  | .key => [.word "o", .mark "["]
  | .functionBody => [.word "function", .mark "(", .mark ")", .mark "\x7b", .word "throw"]
  | .arrowBody => [.mark "(", .mark ")", .mark "=>", .mark "\x7b", .word "throw"]

def headTokens : List Token := [.word "for", .mark "(", .word "let", .word "a", .mark "="]

def tailTokens : List Token := [.mark ";", .mark ";", .mark ")", .mark "\x7b", .mark "\x7d"]

theorem closing_mem (k : Enclosure) : k.closing ∈ closers := by
  cases k <;> decide

theorem closing_ne_comma (k : Enclosure) : k.closing ≠ "," := by
  cases k <;> decide

theorem tokenize_front (k : Enclosure) : tokenize ("for (let a = " ++ k.opening).toList =
    .ok (placed (headTokens ++ k.openingTokens) ++ [⟨.stop, 1⟩]) := by
  cases k <;> rfl

theorem tokenize_back (k : Enclosure) : tokenize (k.closing ++ "; ;) \x7b\x7d").toList =
    .ok (placed (.mark k.closing :: tailTokens) ++ [⟨.stop, 1⟩]) := by
  cases k <;> rfl

/-- The tokens of the head, if those of the expression are known. -/
theorem tokenize_head (k : Enclosure) {text : String} {ts : List Placed} {l : Nat}
    (htext : tokenize text.toList = .ok (ts ++ [⟨.stop, l⟩])) :
    tokenize (k.head text).toList = .ok (placed (headTokens ++ k.openingTokens) ++ (ts.map (Placed.moved 1) ++
      ((placed (.mark k.closing :: tailTokens)).map (Placed.moved (l + 1)) ++ [⟨.stop, 1 + (l + 1)⟩]))) := by
  have hhead : (k.head text).toList = ("for (let a = " ++ k.opening).toList ++
      '\n' :: (text.toList ++ '\n' :: (k.closing ++ "; ;) \x7b\x7d").toList) := by
    unfold head
    simp [String.toList_append]
  rw [hhead]
  exact tokenize_between k.tokenize_front htext k.tokenize_back

theorem part_beside (k : Enclosure) {R : Pairing} {d d' : Descent} (hd : d.Beside R d') {i : OpenBrackets}
    (hi : ¬ R.Ends i ",") : R.Reads Anywhere i (fun _ => i) (k.part d) (k.part d') := by
  cases k <;> first | exact hd.assignment | exact .expression hd hi

/-- On a higher level the same is read. -/
theorem part_succ (k : Enclosure) {n : Nat} {s t : Input} {e : Expr}
    (h : k.part (descent n) s = .ok (e, t)) : k.part (descent (n + 1)) s = .ok (e, t) :=
  ((k.part_beside (Descent.beside_anywhere (Nat.le_succ n)) (i := []) id).same trivial h).1

/-- What is read on its own is read between the brackets, on the same or a higher level, if the word `in` does not
occur or is an operator for both or for neither. -/
theorem part_within (k : Enclosure) {ts : List Placed} {l size m n : Nat} {b : Bool} {e : Expr} {t : Input}
    (hbrackets : Brackets [] ts []) (h : m ≤ n) (hb : (∀ p ∈ ts, p.token ≠ .word "in") ∨ b = !k.resetsIn)
    (hread : k.part (descent m) ⟨ts ++ [⟨.stop, l⟩], size, 0, b⟩ = .ok (e, t)) (line : Nat) (tail : List Placed)
    {total : Nat} (hsize : size ≤ total) :
    ∃ t', k.part (descent n) ⟨ts.map (Placed.moved 1) ++ ⟨.mark k.closing, line⟩ :: tail, total, 1, !k.resetsIn⟩ =
        .ok (e, t') ∧ t'.size = total ∧
      (tokenOf t.rest = .stop → t'.rest = ⟨.mark k.closing, line⟩ :: tail) ∧
      (tokenOf t.rest ≠ .stop → tokenOf t'.rest = tokenOf t.rest) := by
  have hbeside := Descent.beside_within 1 (∀ p ∈ ts, p.token ≠ .word "in") k.closing_mem line tail total h
  have hwithin := k.part_beside hbeside (i := []) fun h => k.closing_ne_comma h.2.symm
  have hstart : Input.IsWithin 1 (∀ p ∈ ts, p.token ≠ .word "in") (⟨.mark k.closing, line⟩ :: tail) total [] ts
      ⟨ts ++ [⟨.stop, l⟩], size, 0, b⟩
      ⟨ts.map (Placed.moved 1) ++ ⟨.mark k.closing, line⟩ :: tail, total, 1, !k.resetsIn⟩ :=
    ⟨⟨l, rfl⟩, rfl, hbrackets, id, hb.imp_right Eq.symm, rfl, hsize, rfl⟩
  have hout := hwithin _ _ ⟨ts, hstart⟩ trivial
  rw [hread] at hout
  obtain ⟨t', hread', ⟨left, hleft⟩, -⟩ := hout
  refine ⟨t', hread', hleft.size', fun hstop => ?_, fun hne => ?_⟩
  · cases left with
    | nil => exact hleft.rest'
    | cons p left =>
      -- What is left would begin with the end, which is not among tokens whose brackets are paired.
      have hp : p.token = .stop := hleft.head.1.symm.trans hstop
      cases hleft.brackets with
      | opening => cases hp
      | other _ hother => exact absurd hp hother
  · cases left with
    | nil =>
      obtain ⟨stop, hrest⟩ := hleft.rest
      exact absurd (by rw [hrest]; rfl) hne
    | cons p left => exact hleft.head.2.1.trans hleft.head.1.symm

end Enclosure

-- What a reader comes to behind an expression in brackets.

def Comes {α : Type} (p : Parse α) (s : Input) (a : α) : Option Input → Prop
  | some t => p s = .ok (a, t)
  | none => Rejects p s

/-- Behind an expression the brackets close, or the word `in` is left, where they cannot. -/
inductive Closes (close : String) (t : Input) : Option Input → Prop
  | closes {line : Nat} {rest : List Placed} (h : t.rest = ⟨.mark close, line⟩ :: rest) :
    Closes close t (some (t.behind ⟨.mark close, line⟩ rest))
  | stuck (h : tokenOf t.rest = .word "in") : Closes close t none

theorem atMark_eq {m : String} {s : Input} {b : Bool} (h : isMarkToken m (tokenOf s.rest) = b) :
    atMark m s = .ok (b, s) := h ▸ rfl

theorem eatMark_eq {m : String} {s : Input} {line : Nat} {rest : List Placed} (h : s.rest = ⟨.mark m, line⟩ :: rest) :
    eatMark m s = .ok (true, s.behind ⟨.mark m, line⟩ rest) := by
  have hat : atMark m s = .ok (true, s) := atMark_eq (by rw [h]; exact beq_self_eq_true m)
  refine (parse_bind true s hat).trans ?_
  rw [if_pos rfl]
  refine (parse_bind () (s.behind ⟨.mark m, line⟩ rest) ?_).trans rfl
  unfold Parse.advance
  rw [h]
  rfl

namespace Comes

variable {α β : Type} {p : Parse α} {f : α → Parse β} {s t : Input} {a : α} {b : β} {r : Option Input}

/-- Two readers of which one goes on as the other one. -/
theorem of_eq {q : Parse α} {u : Input} (h : p s = q u) (hq : Comes q u a r) : Comes p s a r := by
  cases r with
  | some t => exact h.trans hq
  | none => rwa [Comes, Rejects, h]

theorem behind (hp : p s = .ok (a, t)) (h : Comes (f a) t b r) : Comes (p >>= f) s b r := by
  cases r with
  | some u => exact (parse_bind a t hp).trans h
  | none => exact .behind hp h

theorem bind (h : Comes p s a r) (hf : ∀ t, r = some t → f a t = .ok (b, t)) : Comes (p >>= f) s b r := by
  cases r with
  | some t => exact (parse_bind a t h).trans (hf t rfl)
  | none => exact Rejects.bind h

/-- What comes next is known, and nothing of it is passed. -/
theorem bindAt {tokens : List Placed} (h : Comes p s a r) (hnext : ∀ t, r = some t → t.rest = tokens)
    (hf : ∀ size previous noIn, f a ⟨tokens, size, previous, noIn⟩ = .ok (b, ⟨tokens, size, previous, noIn⟩)) :
    Comes (p >>= f) s b r := by
  refine h.bind fun t ht => ?_
  obtain ⟨rest, size, previous, noIn⟩ := t
  obtain rfl : rest = tokens := hnext _ ht
  exact hf size previous noIn

theorem map (g : α → β) (h : Comes p s a r) : Comes (g <$> p) s (g a) r := by
  rw [map_eq_pure_bind]
  exact h.bind fun _ _ => rfl

/-- Reading with the word `in` as an operator again ends as it ended. -/
theorem withIn (h : Comes p { s with noIn := false } a r) :
    Comes (withIn p) s a (r.map fun t => { t with noIn := s.noIn }) := by
  cases r with
  | some t =>
    have hread : p { s with noIn := false } = .ok (a, t) := h
    change Parse.withIn p s = _
    rw [withIn_eq, hread]
  | none =>
    obtain ⟨e, he⟩ := h
    exact ⟨e, by rw [withIn_eq, he]⟩

end Comes

namespace Closes

variable {α : Type} {close : String} {hole x : α} {part : Parse α} {s t : Input} {r : Option Input}

theorem isMark (h : tokenOf t.rest = .word "in") (m : String) : isMarkToken m (tokenOf t.rest) = false := by
  rw [h]
  rfl

theorem expectMark (h : Closes close t r) : Comes (expectMark close) t () r := by
  cases h with
  | closes h => exact (parse_bind true _ (eatMark_eq h)).trans rfl
  | stuck h => exact .behind (eatMark_of_not (isMark h close)) ⟨_, rfl⟩

/-- Behind a part there is a comma or the mark that closes the list. -/
theorem separates (h : tokenOf t.rest = .word "in") {β : Type} {f : PUnit → Parse β} :
    Rejects (Parse.atMark close >>= fun closes => if closes = true then f ⟨⟩ else Parse.expectMark "," >>= f) t :=
  .behind (atMark_eq (isMark h close)) (.bind (.behind (eatMark_of_not (isMark h ",")) ⟨_, rfl⟩))

/-- A list of one part. -/
theorem listUntil (h : Closes close t r) (hsize : 0 < s.size) (hfirst : isMarkToken close (tokenOf s.rest) = false)
    (hpart : part s = .ok (x, t)) : Comes (listUntil close part) s [x] r := by
  obtain ⟨size, hsize⟩ := Nat.exists_eq_succ_of_ne_zero (Nat.ne_of_gt hsize)
  cases h with
  | closes h =>
    have hround : listRound close part [] s = .ok (.more [x], t) := by
      refine (parse_bind _ _ (eatMark_of_not hfirst)).trans ((parse_bind _ _ hpart).trans ?_)
      refine (parse_bind _ _ (atMark_eq (b := true) ?_)).trans rfl
      rw [h]
      exact beq_self_eq_true close
    change iterate (listRound close part) (s.size + 1) [] s = _
    rw [hsize]
    exact (parse_bind _ _ hround).trans ((parse_bind _ _ ((parse_bind _ _ (eatMark_eq h)).trans rfl)).trans rfl)
  | stuck h =>
    exact Rejects.bind (Rejects.behind (eatMark_of_not hfirst) (Rejects.behind hpart (separates h)))

/-- A list that ends with its first element is that element. -/
theorem listWithHoles (h : Closes close t r) (hsize : 0 < s.size)
    (hfirst : isMarkToken close (tokenOf s.rest) = false) (hhole : isMarkToken "," (tokenOf s.rest) = false)
    (hpart : part s = .ok (x, t)) : Comes (listWithHoles close hole part) s [x] r := by
  obtain ⟨size, hsize⟩ := Nat.exists_eq_succ_of_ne_zero (Nat.ne_of_gt hsize)
  cases h with
  | closes h =>
    have hround : holesRound close hole part [] s = .ok (.more [x], t) := by
      refine (parse_bind _ _ (eatMark_of_not hfirst)).trans ((parse_bind _ _ (eatMark_of_not hhole)).trans ?_)
      refine (parse_bind _ _ hpart).trans ((parse_bind _ _ (atMark_eq (b := true) ?_)).trans rfl)
      rw [h]
      exact beq_self_eq_true close
    change iterate (holesRound close hole part) (s.size + 1) [] s = _
    rw [hsize]
    exact (parse_bind _ _ hround).trans ((parse_bind _ _ ((parse_bind _ _ (eatMark_eq h)).trans rfl)).trans rfl)
  | stuck h =>
    exact Rejects.bind (Rejects.behind (eatMark_of_not hfirst) (Rejects.behind (eatMark_of_not hhole)
      (Rejects.behind hpart (separates h))))

end Closes

theorem item_eq {n : Nat} {s t : Input} {e : Expr} (hread : (descent n).assignment s = .ok (e, t)) :
    item (descent n) s = .ok (.mk false e, t) :=
  (parse_bind _ _ (eatMark_of_not (BeginsNothing.isMark_eq_false hread (by decide)))).trans
    ((parse_bind _ _ hread).trans rfl)

/-- No statement begins with the word `in`. -/
theorem Rejects.statement {t : Input} (hnext : tokenOf t.rest = .word "in") (n : Nat) :
    Rejects (statement (descent n)) t := by
  have hasync : skipAsync t = .ok ((), t) := by
    refine (parse_bind (isWordToken "async" (tokenOf t.rest)) t rfl).trans ?_
    refine (parse_bind (tokenOf t.rest.tail) t rfl).trans ?_
    rw [hnext]
    rfl
  refine .behind (atMark_eq (Closes.isMark hnext _)) (.behind (eatMark_of_not (Closes.isMark hnext _)) ?_)
  refine .behind (a := tokenOf t.rest) (t := t) rfl ?_
  rw [hnext]
  refine .behind hasync (.behind (a := tokenOf t.rest) (t := t) rfl ?_)
  rw [hnext]
  exact .bind (.bind (BeginsNothing.assignment (.inl hnext) n))

section Bodies

variable {n size : Nat} {body : List Placed} {b : Bool} {t : Input} {e : Expr} {r : Option Input}

/-- A statement that throws the value of an expression, if it ends there. -/
theorem blockRound_throw (hread : Parse.expression (descent n) ⟨body, size, 1, b⟩ = .ok (e, t))
    (hend : Comes endStatement t () r) :
    Comes (blockRound (descent (n + 1)) []) ⟨⟨.word "throw", 1⟩ :: body, size, 1, b⟩ (.more [.throws e]) r := by
  have hthrow : Comes (do
      let e ← Parse.expression (descent n)
      endStatement
      return .throws e : Parse Stmt) ⟨body, size, 1, b⟩ (.throws e) r := .behind hread (.bind hend fun _ _ => rfl)
  have hstatement : Comes (descent (n + 1)).statement ⟨⟨.word "throw", 1⟩ :: body, size, 1, b⟩ (.throws e) r :=
    .of_eq rfl hthrow
  have hmore : Comes (do return .more [← (descent (n + 1)).statement] : Parse (Step (List Stmt) (List Stmt)))
      ⟨⟨.word "throw", 1⟩ :: body, size, 1, b⟩ (.more [.throws e]) r := .bind hstatement fun _ _ => rfl
  exact .of_eq rfl hmore

/-- Where the word `in` is left behind the value, the statement does not end, or it ends at a newline and the next one
does not begin. -/
theorem Closes.block (h : Closes "\x7d" t r)
    (hread : Parse.expression (descent n) ⟨body, size + 1, 1, b⟩ = .ok (e, t)) :
    Comes (block (descent (n + 1))) ⟨⟨.mark "\x7b", 1⟩ :: ⟨.word "throw", 1⟩ :: body, size + 1, 1, b⟩ [.throws e]
      r := by
  -- What is left of the block is to be read; it ends where the expression does, if that closes it.
  suffices hrounds : Comes (iterate (blockRound (descent (n + 1))) (size + 2) [])
      ⟨⟨.word "throw", 1⟩ :: body, size + 1, 1, b⟩ [.throws e] r from .of_eq rfl hrounds
  cases h with
  | @closes line rest h =>
    have hbrace : atMark "\x7d" t = .ok (true, t) := atMark_eq (by rw [h]; rfl)
    have hend : endStatement t = .ok ((), t) := by
      refine (parse_bind _ _ (eatMark_of_not (by rw [h]; rfl))).trans ((parse_bind _ _ hbrace).trans rfl)
    have hlast : blockRound (descent (n + 1)) [.throws e] t =
        .ok (.done [.throws e], t.behind ⟨.mark "\x7d", line⟩ rest) := (parse_bind _ _ (eatMark_eq h)).trans rfl
    exact .behind (blockRound_throw (r := some t) hread hend) ((parse_bind _ _ hlast).trans rfl)
  | stuck h =>
    have hmark (m : String) : eatMark m t = .ok (false, t) := eatMark_of_not (isMark h m)
    have hbrace : atMark "\x7d" t = .ok (false, t) := atMark_eq (isMark h _)
    have hstop : atStop t = .ok (false, t) := (atStop_eq t).trans (by rw [h]; rfl)
    have hline : afterNewline t = .ok (decide (t.previousLine < t.line), t) := rfl
    by_cases hnewline : t.previousLine < t.line
    · -- The statement ends in front of the word, with which the next one would begin.
      have hend : endStatement t = .ok ((), t) := by
        refine (parse_bind _ _ (hmark ";")).trans ((parse_bind _ _ hbrace).trans ((parse_bind _ _ hstop).trans ?_))
        rw [decide_eq_true hnewline] at hline
        exact (parse_bind _ _ hline).trans rfl
      have hnext : Rejects (blockRound (descent (n + 1)) [.throws e]) t :=
        .behind (hmark _) (.behind hstop (.bind (Rejects.statement h n)))
      exact .behind (blockRound_throw (r := some t) hread hend) (Rejects.bind hnext)
    · -- On the same line it does not even end.
      have hend : Rejects endStatement t := by
        refine .behind (hmark ";") (.behind hbrace (.behind hstop (.behind hline ?_)))
        rw [decide_eq_false hnewline]
        exact ⟨_, rfl⟩
      exact Rejects.bind (blockRound_throw (r := none) hread hend)

end Bodies

section Values

variable {d : Descent} {s t : Input} {e : Expr} {r : Option Input} {line : Nat} {more : List Placed}

/-- Nothing goes on with a value in front of a semicolon. -/
theorem chainRounds_end (hnext : t.rest = ⟨.mark ";", line⟩ :: more) (fuel : Nat) :
    iterate (chainRound d) (fuel + 1) e t = .ok (e, t) := by
  obtain ⟨rest, size, previous, noIn⟩ := t
  cases hnext
  rfl

theorem Comes.chain (hnew : isWordToken "new" (tokenOf s.rest) = false) (h : Comes (primary d) s e r)
    (hnext : ∀ t, r = some t → t.rest = ⟨.mark ";", line⟩ :: more) : Comes (chain d) s e r := by
  refine .behind (a := isWordToken "new" (tokenOf s.rest)) (t := s) rfl ?_
  rw [hnew]
  exact .bind h fun t ht => chainRounds_end (hnext t ht) _

/-- An operand that ends as it does is an assignment on its own. -/
theorem Comes.assignment (hlead : LeadsOperand s.rest) (h : Comes (Parse.chain d) s e r)
    (hnext : ∀ t, r = some t → t.rest = ⟨.mark ";", line⟩ :: more) : Comes (assignment d) s e r := by
  have hasync : (isWordToken "async" (tokenOf s.rest) && !isMarkToken "=>" (tokenOf s.rest.tail) &&
      startsArrow s.rest.tail) = false := by
    cases hword : isWordToken "async" (tokenOf s.rest) with
    | false => rfl
    | true => rw [hlead.noAsyncArrow hword, Bool.and_false]
  have hpostfixed : Comes (postfixed d) s e r := .bindAt h hnext fun _ _ _ => rfl
  have hunary : Comes (unary d) s e r := .of_eq (unary_of_begins hlead.begins) hpostfixed
  have hbinary : Comes (binary d 1) s e r := .bindAt hunary hnext fun _ _ _ => rfl
  have hconditional : Comes (conditional d) s e r := .bindAt hbinary hnext fun _ _ _ => rfl
  refine .behind (a := s.rest) (t := s) rfl ?_
  rw [hasync]
  refine .behind (a := s.rest) (t := s) rfl ?_
  rw [hlead.noArrow]
  exact .bindAt hconditional hnext fun _ _ _ => rfl

end Values

namespace Enclosure

section Kinds

variable {d : Descent} {n size line : Nat} {body more : List Placed} {t : Input} {e : Expr} {r : Option Input}

/-- An element between brackets is read up to the closing bracket. -/
theorem comes_element (h : Closes "]" t r) (hread : (descent n).assignment ⟨body, size + 1, 1, true⟩ = .ok (e, t))
    (hnext : ∀ u, r = some u → u.rest = ⟨.mark ";", line⟩ :: more) :
    Comes (chain (descent n)) ⟨⟨.mark "[", 1⟩ :: body, size + 1, 1, true⟩ (.array [.mk false e]) r := by
  have hitems : Comes (arrayItems (descent n)) ⟨body, size + 1, 1, true⟩ [.mk false e] r :=
    h.listWithHoles (Nat.succ_pos size) (BeginsNothing.isMark_eq_false hread (by decide))
      (BeginsNothing.isMark_eq_false hread (by decide)) (item_eq hread)
  have hvalue : Comes (do return .array (← arrayItems (descent n)) : Parse Expr) ⟨body, size + 1, 1, true⟩
      (.array [.mk false e]) r := .bind hitems fun _ _ => rfl
  refine .chain rfl ?_ hnext
  exact .of_eq rfl hvalue

/-- A property between braces is read up to the closing brace. -/
theorem comes_property (h : Closes "\x7d" t r)
    (hread : (descent n).assignment ⟨body, size + 1, 1, true⟩ = .ok (e, t))
    (hnext : ∀ u, r = some u → u.rest = ⟨.mark ";", line⟩ :: more) :
    Comes (chain (descent n)) ⟨placed [.mark "\x7b", .word "k", .mark ":"] ++ body, size + 1, 1, true⟩
      (.object [.init (.named "k") e]) r := by
  have hmember : (do return .init (.named "k") (← (descent n).assignment) : Parse Member) ⟨body, size + 1, 1, true⟩ =
      .ok (.init (.named "k") e, t) := (parse_bind _ _ hread).trans rfl
  have hmembers : Comes (Parse.listUntil "\x7d" (member (descent n)))
      ⟨placed [.word "k", .mark ":"] ++ body, size + 1, 1, true⟩ [.init (.named "k") e] r :=
    h.listUntil (Nat.succ_pos size) rfl hmember
  have hvalue : Comes (do return .object (← Parse.listUntil "\x7d" (member (descent n))) : Parse Expr)
      ⟨placed [.word "k", .mark ":"] ++ body, size + 1, 1, true⟩ (.object [.init (.named "k") e]) r :=
    .bind hmembers fun _ _ => rfl
  refine .chain rfl ?_ hnext
  exact .of_eq rfl hvalue

theorem comes_parentheses (h : Closes ")" { t with noIn := true } r)
    (hread : Parse.expression d ⟨body, size, 1, false⟩ = .ok (e, t))
    (hnext : ∀ u, r = some u → u.rest = ⟨.mark ";", line⟩ :: more) :
    Comes (chain d) ⟨⟨.mark "(", 1⟩ :: body, size, 1, true⟩ e r := by
  have hinside : withIn (Parse.expression d) ⟨body, size, 1, true⟩ = .ok (e, { t with noIn := true }) :=
    Comes.withIn (r := some t) hread
  have hvalue : Comes (do
      let e ← withIn (Parse.expression d)
      expectMark ")"
      return e : Parse Expr) ⟨body, size, 1, true⟩ e r := .behind hinside (.bind h.expectMark fun _ _ => rfl)
  refine .chain rfl ?_ hnext
  exact .of_eq rfl hvalue

/-- A round behind a name, and no further one in front of a semicolon. -/
theorem comes_rounds {name : String} {tokens : List Placed} {e : Expr}
    (hname : chain d ⟨⟨.word name, 1⟩ :: tokens, size + 1, 1, true⟩ =
      iterate (chainRound d) (size + 2) (.name name) ⟨tokens, size + 1, 1, true⟩)
    (hround : Comes (chainRound d (.name name)) ⟨tokens, size + 1, 1, true⟩ (.more e) r)
    (hnext : ∀ u, r = some u → u.rest = ⟨.mark ";", line⟩ :: more) :
    Comes (chain d) ⟨⟨.word name, 1⟩ :: tokens, size + 1, 1, true⟩ e r := by
  have hrounds : Comes (iterate (chainRound d) (size + 2) (.name name)) ⟨tokens, size + 1, 1, true⟩ e r :=
    .bind hround fun t ht => chainRounds_end (hnext t ht) size
  exact .of_eq hname hrounds

/-- An argument of a call is read up to the closing parenthesis. -/
theorem comes_argument (h : Closes ")" t r)
    (hread : (descent n).assignment ⟨body, size + 1, 1, false⟩ = .ok (e, t))
    (hnext : ∀ u, r = some u → u.rest = ⟨.mark ";", line⟩ :: more) :
    Comes (chain (descent n)) ⟨placed [.word "f", .mark "("] ++ body, size + 1, 1, true⟩
      (.call (.name "f") [.mk false e] false) (r.map fun u => { u with noIn := true }) := by
  have hlist : Comes (Parse.listUntil ")" (item (descent n))) ⟨body, size + 1, 1, false⟩ [.mk false e] r :=
    h.listUntil (Nat.succ_pos size) (BeginsNothing.isMark_eq_false hread (by decide)) (item_eq hread)
  have hround : Comes (do
      let items ← withIn (Parse.listUntil ")" (item (descent n)))
      return .more (.call (.name "f") items false) : Parse (Step Expr Expr)) ⟨body, size + 1, 1, true⟩
        (.more (.call (.name "f") [.mk false e] false)) (r.map fun u => { u with noIn := true }) :=
    .bind (.withIn hlist) fun _ _ => rfl
  have hlast : ∀ u, r.map (fun u => { u with noIn := true }) = some u → u.rest = ⟨.mark ";", line⟩ :: more := by
    intro u hu
    obtain ⟨u', hu', rfl⟩ := Option.map_eq_some_iff.mp hu
    exact hnext u' hu'
  refine comes_rounds rfl ?_ hlast
  exact .of_eq rfl hround

theorem comes_key (h : Closes "]" t r) (hread : Parse.expression d ⟨body, size + 1, 1, true⟩ = .ok (e, t))
    (hnext : ∀ u, r = some u → u.rest = ⟨.mark ";", line⟩ :: more) :
    Comes (chain d) ⟨placed [.word "o", .mark "["] ++ body, size + 1, 1, true⟩
      (.member (.name "o") (.computed e) false) r := by
  have hkey : Comes (computedKey d) ⟨body, size + 1, 1, true⟩ (.computed e) r :=
    .behind hread (.bind h.expectMark fun _ _ => rfl)
  have hround : Comes (do return .more (.member (.name "o") (← computedKey d) false) : Parse (Step Expr Expr))
      ⟨body, size + 1, 1, true⟩ (.more (.member (.name "o") (.computed e) false)) r := .bind hkey fun _ _ => rfl
  refine comes_rounds rfl ?_ hnext
  exact .of_eq rfl hround

/-- The body of a function is read up to its closing brace. -/
theorem comes_functionBody (h : Closes "\x7d" t r)
    (hread : Parse.expression (descent n) ⟨body, size + 1, 1, true⟩ = .ok (e, t))
    (hnext : ∀ u, r = some u → u.rest = ⟨.mark ";", line⟩ :: more) :
    Comes (chain (descent (n + 1)))
      ⟨placed [.word "function", .mark "(", .mark ")", .mark "\x7b", .word "throw"] ++ body, size + 1, 1, true⟩
      (.function (.mk none [] (.block [.throws e]) false)) r := by
  have hbehind : Comes (do
      let body ← Parse.block (descent (n + 1))
      return .mk none [] (.block body) false : Parse Func)
      ⟨placed [.mark "\x7b", .word "throw"] ++ body, size + 1, 1, true⟩ (.mk none [] (.block [.throws e]) false) r :=
    .bind (h.block hread) fun _ _ => rfl
  have hfunction : Comes (Parse.function (descent (n + 1)))
      ⟨placed [.mark "(", .mark ")", .mark "\x7b", .word "throw"] ++ body, size + 1, 1, true⟩
      (.mk none [] (.block [.throws e]) false) r :=
    .of_eq rfl hbehind
  have hvalue : Comes (do return .function (← Parse.function (descent (n + 1))) : Parse Expr)
      ⟨placed [.mark "(", .mark ")", .mark "\x7b", .word "throw"] ++ body, size + 1, 1, true⟩
      (.function (.mk none [] (.block [.throws e]) false)) r := .bind hfunction fun _ _ => rfl
  refine .chain rfl ?_ hnext
  exact .of_eq rfl hvalue

theorem comes_arrowBody (h : Closes "\x7d" t r)
    (hread : Parse.expression (descent n) ⟨body, size + 1, 1, true⟩ = .ok (e, t)) :
    Comes (assignment (descent (n + 1)))
      ⟨placed [.mark "(", .mark ")", .mark "=>", .mark "\x7b", .word "throw"] ++ body, size + 1, 1, true⟩
      (.function (.mk none [] (.block [.throws e]) true)) r := by
  have hvalue : Comes (do
      let body ← Body.block <$> Parse.block (descent (n + 1))
      return .function (.mk none [] body true) : Parse Expr)
      ⟨placed [.mark "\x7b", .word "throw"] ++ body, size + 1, 1, true⟩
      (.function (.mk none [] (.block [.throws e]) true)) r := .bind (.map Body.block (h.block hread)) fun _ _ => rfl
  exact .of_eq rfl hvalue

def Leave (r r' : Option Input) : Prop :=
  r'.map (fun u => (u.rest, u.size)) = r.map (fun u => (u.rest, u.size))

theorem leave_withNoIn (b : Bool) (r : Option Input) : Leave r (r.map fun u => { u with noIn := b }) := by
  cases r <;> rfl

theorem closes_withNoIn {close : String} (b : Bool) (h : Closes close t r) :
    Closes close { t with noIn := b } (r.map fun u => { u with noIn := b }) := by
  cases h with
  | closes h => exact .closes h
  | stuck h => exact .stuck h

/-- An expression is read with the brackets around it if they close behind it. -/
theorem comes (k : Enclosure) (harrow : startsArrow (⟨.mark "(", 1⟩ :: body) = false)
    (hread : k.part (descent n) ⟨body, size + 1, 1, !k.resetsIn⟩ = .ok (e, t)) (h : Closes k.closing t r)
    (hnext : ∀ u, r = some u → u.rest = ⟨.mark ";", line⟩ :: more) :
    ∃ r', Comes (assignment (descent (n + 1))) ⟨placed k.openingTokens ++ body, size + 1, 1, true⟩ (k.tree e) r' ∧
      Leave r r' := by
  have hup := k.part_succ hread
  have hlast : ∀ u, r.map (fun u => { u with noIn := true }) = some u → u.rest = ⟨.mark ";", line⟩ :: more := by
    intro u hu
    obtain ⟨u', hu', rfl⟩ := Option.map_eq_some_iff.mp hu
    exact hnext u' hu'
  cases k with
  | element => exact ⟨r, .assignment ⟨.mark (by decide), rfl, nofun⟩ (comes_element h hup hnext) hnext, rfl⟩
  | property => exact ⟨r, .assignment ⟨.mark (by decide), rfl, nofun⟩ (comes_property h hup hnext) hnext, rfl⟩
  -- Behind these two the flag is what it was, whatever it has been set to between them.
  | argument =>
    exact ⟨_, .assignment ⟨.word (by decide), rfl, nofun⟩ (comes_argument h hup hnext) hlast, leave_withNoIn true r⟩
  | parentheses =>
    have hclosed := comes_parentheses (closes_withNoIn true h) hup hlast
    exact ⟨_, .assignment ⟨.mark (by decide), harrow, nofun⟩ hclosed hlast, leave_withNoIn true r⟩
  | key => exact ⟨r, .assignment ⟨.word (by decide), rfl, nofun⟩ (comes_key h hup hnext) hnext, rfl⟩
  | functionBody =>
    exact ⟨r, .assignment ⟨.word (by decide), rfl, nofun⟩ (comes_functionBody h hread hnext) hnext, rfl⟩
  | arrowBody => exact ⟨r, comes_arrowBody h hread, rfl⟩

end Kinds

section Head

variable {n size line stop : Nat} {init : List Placed} {e : Expr} {r : Option Input}

def tailAt (line stop : Nat) : List Placed := tailTokens.map (fun t => ⟨t, line⟩) ++ [⟨.stop, stop⟩]

/-- A declaration with one name and a value ends where the value does. -/
theorem comes_bindings (h : Comes (assignment (descent (n + 1))) ⟨init, size + 1, 1, true⟩ e r)
    (hr : ∀ u, r = some u → u.rest = tailAt line stop) :
    Comes (bindings (descent (n + 2)) .letDecl (.name "a")) ⟨⟨.mark "=", 1⟩ :: init, size + 1, 1, true⟩
      (.decl .letDecl [(.name "a", some e)]) r := by
  have hvalue : Comes (do return some (← (descent (n + 2)).assignment) : Parse (Option Expr))
      ⟨init, size + 1, 1, true⟩ (some e) r := by
    have hbelow : Comes (descent (n + 2)).assignment ⟨init, size + 1, 1, true⟩ e r :=
      .of_eq rfl h
    exact .bind hbelow fun _ _ => rfl
  have hinit : Comes (initializer (descent (n + 2))) ⟨⟨.mark "=", 1⟩ :: init, size + 1, 1, true⟩ (some e) r :=
    .of_eq rfl hvalue
  have hround : Comes (bindingRound (descent (n + 2)) .letDecl ([], .name "a"))
      ⟨⟨.mark "=", 1⟩ :: init, size + 1, 1, true⟩ (.done (.decl .letDecl [(.name "a", some e)])) r :=
    .bindAt hinit hr fun _ _ _ => rfl
  have hrounds : Comes (iterate (bindingRound (descent (n + 2)) .letDecl) (size + 2) ([], .name "a"))
      ⟨⟨.mark "=", 1⟩ :: init, size + 1, 1, true⟩ (.decl .letDecl [(.name "a", some e)]) r :=
    .bind hround fun _ _ => rfl
  exact .of_eq rfl hrounds

theorem forTail_eq (decl : Stmt) {t : Input} (ht : t.rest = tailAt line stop) :
    forTail (descent (n + 2)) (some decl) t =
      .ok (.forLoop (some decl) none none (.block []), ⟨[⟨.stop, stop⟩], t.size, line, t.noIn⟩) := by
  obtain ⟨rest, size, previous, noIn⟩ := t
  cases ht
  rfl

/-- A loop is read if the value in its head is. -/
theorem comes_statement (h : Comes (assignment (descent (n + 1))) ⟨init, size + 1, 1, true⟩ e r)
    (hr : ∀ u, r = some u → u.rest = tailAt line stop) :
    Comes (statement (descent (n + 2))) ⟨placed headTokens ++ init, size + 1, 0, false⟩ (loopOf e)
      (r.map fun u => ⟨[⟨.stop, stop⟩], u.size, line, false⟩) := by
  have hbindings := comes_bindings h hr
  have hhead : Comes (do
      let decl ← bindings (descent (n + 2)) .letDecl (.name "a")
      setNoIn false
      forTail (descent (n + 2)) (some decl)) ⟨⟨.mark "=", 1⟩ :: init, size + 1, 1, true⟩ (loopOf e)
      (r.map fun u => ⟨[⟨.stop, stop⟩], u.size, line, false⟩) := by
    cases r with
    | none => exact Rejects.bind hbindings
    | some u =>
      have htail := forTail_eq (n := n) (.decl .letDecl [(.name "a", some e)]) (t := { u with noIn := false })
        (hr u rfl)
      exact (parse_bind _ _ hbindings).trans htail
  exact .of_eq rfl hhead

/-- A source that is such a loop. -/
theorem comes_program (h : Comes (assignment (descent 198)) ⟨init, size + 1, 1, true⟩ e r)
    (hr : ∀ u, r = some u → u.rest = tailAt line stop) :
    Comes program ⟨placed headTokens ++ init, size + 1, 0, false⟩ [loopOf e]
      (r.map fun u => ⟨[⟨.stop, stop⟩], u.size, line, false⟩) := by
  have hdown : Comes (descent maxNesting).statement ⟨placed headTokens ++ init, size + 1, 0, false⟩ (loopOf e)
      (r.map fun u => ⟨[⟨.stop, stop⟩], u.size, line, false⟩) := by
    have hstatement := comes_statement (n := 197) h hr
    exact .of_eq rfl hstatement
  have hmore : Comes (do return .more [← (descent maxNesting).statement] : Parse (Step (List Stmt) (List Stmt)))
      ⟨placed headTokens ++ init, size + 1, 0, false⟩ (.more [loopOf e])
      (r.map fun u => ⟨[⟨.stop, stop⟩], u.size, line, false⟩) := .bind hdown fun _ _ => rfl
  have hround : Comes (programRound []) ⟨placed headTokens ++ init, size + 1, 0, false⟩ (.more [loopOf e])
      (r.map fun u => ⟨[⟨.stop, stop⟩], u.size, line, false⟩) :=
    .of_eq rfl hmore
  have hrounds : Comes (iterate programRound (size + 2) []) ⟨placed headTokens ++ init, size + 1, 0, false⟩
      [loopOf e] (r.map fun u => ⟨[⟨.stop, stop⟩], u.size, line, false⟩) := by
    refine .bind hround fun t ht => ?_
    obtain ⟨u, -, rfl⟩ := Option.map_eq_some_iff.mp ht
    rfl
  exact .of_eq rfl hrounds

/-- The source is read to its end where the brackets in the head close, and there is a fault where they do not. -/
theorem comes_head (k : Enclosure) {body : List Placed} {t : Input}
    (harrow : startsArrow (⟨.mark "(", 1⟩ :: body) = false)
    (hread : k.part (descent 197) ⟨body, size + 1, 1, !k.resetsIn⟩ = .ok (e, t)) (h : Closes k.closing t r)
    (hr : ∀ u, r = some u → u.rest = tailAt line stop) :
    ∃ r', Comes program ⟨placed headTokens ++ (placed k.openingTokens ++ body), size + 1, 0, false⟩
      [loopOf (k.tree e)] r' ∧ r'.isSome = r.isSome := by
  obtain ⟨r', hcomes, hleave⟩ := k.comes harrow hread h hr
  have hr' : ∀ u, r' = some u → u.rest = tailAt line stop := by
    rintro u rfl
    obtain ⟨u', hu', hsame⟩ := Option.map_eq_some_iff.mp hleave.symm
    exact (congrArg Prod.fst hsame).symm.trans (hr u' hu')
  have hsome : r'.isSome = r.isSome := by
    rw [← Option.isSome_map (f := fun u => (u.rest, u.size)), hleave, Option.isSome_map]
  exact ⟨_, comes_program hcomes hr', Option.isSome_map.trans hsome⟩

end Head

/-- The source of a loop is read up to the bracket behind the expression in its head, and to the end if that closes. -/
theorem parseProgram_head (k : Enclosure) {text : String} {ts : List Placed} {l m : Nat} {b : Bool} {e : Expr}
    {t : Input} (htext : tokenize text.toList = .ok (ts ++ [⟨.stop, l⟩])) (hbrackets : Brackets [] ts [])
    (hm : m + 3 ≤ maxNesting) (hb : (∀ p ∈ ts, p.token ≠ .word "in") ∨ b = !k.resetsIn)
    (hread : k.part (descent m) ⟨ts ++ [⟨.stop, l⟩], ts.length + 1, 0, b⟩ = .ok (e, t)) :
    (tokenOf t.rest = .stop → parseProgram (k.head text) = .ok [loopOf (k.tree e)]) ∧
      (tokenOf t.rest = .word "in" → ∃ f, parseProgram (k.head text) = .error f) := by
  obtain ⟨line, hline⟩ : ∃ line, line = 1 + (l + 1) := ⟨_, rfl⟩
  obtain ⟨body, hbody⟩ : ∃ body, body = ts.map (Placed.moved 1) ++ ⟨.mark k.closing, line⟩ :: tailAt line line :=
    ⟨_, rfl⟩
  have htokens : tokenize (k.head text).toList = .ok (placed headTokens ++ (placed k.openingTokens ++ body)) := by
    rw [k.tokenize_head htext, hbody, hline, placed_append, List.append_assoc]
    rfl
  -- A parenthesis that opens here closes in front of a semicolon, so it holds no parameters.
  have harrow : startsArrow (⟨.mark "(", 1⟩ :: body) = false := by
    have hwithin := closesBeforeArrow_within (hbrackets.moved 1) (⟨.mark k.closing, line⟩ :: tailAt line line)
    change closesBeforeArrow 1 body = false
    rw [hbody]
    exact hwithin.trans (closesBeforeArrow_closing k.closing_mem 1 line _)
  obtain ⟨size, hsize⟩ : ∃ size, (placed headTokens ++ (placed k.openingTokens ++ body)).length = size + 1 :=
    ⟨_, rfl⟩
  have hfits : ts.length + 1 ≤ size + 1 := by
    simp only [hbody, List.length_append, List.length_map, List.length_cons] at hsize
    omega
  have hnesting : m ≤ 197 := Nat.le_of_add_le_add_right hm
  obtain ⟨t', hread', -, hclosed, hstuck⟩ :=
    k.part_within hbrackets hnesting hb hread line (tailAt line line) hfits
  rw [← hbody] at hread'
  unfold parseProgram
  rw [htokens]
  dsimp only
  rw [hsize]
  refine ⟨fun hstop => ?_, fun hin => ?_⟩
  · have hrest := hclosed hstop
    obtain ⟨r, hcomes, hsome⟩ := k.comes_head harrow hread' (.closes hrest) fun u hu => by
      rw [← Option.some.inj hu]
      rfl
    obtain ⟨u, rfl⟩ := Option.isSome_iff_exists.mp hsome
    rw [show program _ = _ from hcomes]
  · have hnext : tokenOf t'.rest = .word "in" := (hstuck (by rw [hin]; exact nofun)).trans hin
    obtain ⟨r, hcomes, hsome⟩ := k.comes_head harrow hread' (.stuck hnext)
      (show ∀ u : Input, none = some u → u.rest = tailAt line line from nofun)
    cases r with
    | some u => cases hsome
    | none =>
      obtain ⟨f, hf⟩ := hcomes
      rw [hf]
      exact ⟨f, rfl⟩

end Enclosure

def ReadsUpTo (p : Parse Expr) (noIn : Bool) (tokens : List Placed) (e : Expr) (next : Token) : Prop :=
  ∃ t, p { rest := tokens, size := tokens.length, noIn } = .ok (e, t) ∧ tokenOf t.rest = next

/-- The brackets among the tokens of an expression are paired. -/
theorem ReadsUpTo.brackets {k : Enclosure} {m l : Nat} {ts : List Placed} {e : Expr} {text : List Char}
    (h : ReadsUpTo (k.part (descent m)) false (ts ++ [⟨.stop, l⟩]) e .stop)
    (htext : tokenize text = .ok (ts ++ [⟨.stop, l⟩])) : Brackets [] ts [] := by
  have hend : EndAtStop (ts ++ [⟨.stop, l⟩]) := by
    have hcomes := comesTo_tokenize text
    rwa [htext] at hcomes
  obtain ⟨t, hread, hstop⟩ := h
  refine ReadsAsExpression.brackets ⟨m, e, t, ?_, hstop⟩ hend rfl
  -- An expression without commas is also a sequence of one, as the end comes next.
  have hsingle {s : Input} (hread : (descent m).assignment s = .ok (e, t)) :
      Parse.expression (descent m) s = .ok (e, t) := by
    refine (parse_bind _ _ hread).trans ((parse_bind false t (atMark_eq ?_)).trans rfl)
    rw [hstop]
    rfl
  cases k <;> first | exact hread | exact hsingle hread

/-- An expression stands in brackets in the head of a counting loop as it does on its own, if the brackets are those of
a call or parentheses or the word `in` does not occur in it. Any other brackets leave the word as it is in the head:
there an expression is what is read from it where the word is no operator, and nothing if that ends at the word. -/
theorem brackets_in_loop_heads (k : Enclosure) {text : String} {tokens : List Placed} {m : Nat} {e : Expr}
    (htokens : tokenize text.toList = .ok tokens) (hm : m + 3 ≤ maxNesting)
    (hread : ReadsUpTo (k.part (descent m)) false tokens e .stop) :
    ((k.resetsIn = true ∨ ∀ p ∈ tokens, p.token ≠ .word "in") →
      parseProgram (k.head text) = .ok [Enclosure.loopOf (k.tree e)]) ∧
    ∀ e', (ReadsUpTo (k.part (descent m)) (!k.resetsIn) tokens e' .stop →
        parseProgram (k.head text) = .ok [Enclosure.loopOf (k.tree e')]) ∧
      (ReadsUpTo (k.part (descent m)) (!k.resetsIn) tokens e' (.word "in") →
        ∃ f, parseProgram (k.head text) = .error f) := by
  obtain ⟨parts, l, -, hparts⟩ := of_tokensFrom htokens
  obtain ⟨ts, rfl⟩ : ∃ ts, tokens = ts ++ [⟨.stop, l⟩] := ⟨_, hparts⟩
  have hbrackets := hread.brackets htokens
  have hhead {b : Bool} {e' : Expr} {next : Token} (hb : (∀ p ∈ ts, p.token ≠ .word "in") ∨ b = !k.resetsIn)
      (h : ReadsUpTo (k.part (descent m)) b (ts ++ [⟨.stop, l⟩]) e' next) :
      (next = .stop → parseProgram (k.head text) = .ok [Enclosure.loopOf (k.tree e')]) ∧
        (next = .word "in" → ∃ f, parseProgram (k.head text) = .error f) := by
    obtain ⟨t, hread, rfl⟩ := h
    rw [List.length_append] at hread
    exact k.parseProgram_head htokens hbrackets hm hb hread
  refine ⟨fun hcase => (hhead ?_ hread).1 rfl, fun e' => ⟨fun h => (hhead (.inr rfl) h).1 rfl,
    fun h => (hhead (.inr rfl) h).2 rfl⟩⟩
  rcases hcase with hresets | hwords
  · exact .inr (by rw [hresets]; rfl)
  · exact .inl fun p hp => hwords p (List.mem_append_left _ hp)

/-- A test for a property, which an array in the head does not hold, though a call does. -/
theorem call_holds_test : ∃ tokens e, tokenize "'x' in o".toList = .ok tokens ∧ 2 + 3 ≤ maxNesting ∧
    ReadsUpTo (Enclosure.argument.part (descent 2)) false tokens e .stop ∧
    parseProgram (Enclosure.argument.head "'x' in o") = .ok [Enclosure.loopOf (Enclosure.argument.tree e)] ∧
    ∃ f, parseProgram (Enclosure.element.head "'x' in o") = .error f := by
  have htokens : tokenize "'x' in o".toList =
      .ok [⟨.string "x", 1⟩, ⟨.word "in", 1⟩, ⟨.word "o", 1⟩, ⟨.stop, 1⟩] := rfl
  have hread : ReadsUpTo (descent 2).assignment false
      [⟨.string "x", 1⟩, ⟨.word "in", 1⟩, ⟨.word "o", 1⟩, ⟨.stop, 1⟩] (.binary .isIn (.string "x") (.name "o")) .stop :=
    ⟨⟨[⟨.stop, 1⟩], 4, 1, false⟩, rfl, rfl⟩
  have hstuck : ReadsUpTo (descent 2).assignment true
      [⟨.string "x", 1⟩, ⟨.word "in", 1⟩, ⟨.word "o", 1⟩, ⟨.stop, 1⟩] (.string "x") (.word "in") :=
    ⟨⟨[⟨.word "in", 1⟩, ⟨.word "o", 1⟩, ⟨.stop, 1⟩], 4, 1, true⟩, rfl, rfl⟩
  exact ⟨_, _, htokens, by decide, hread,
    (brackets_in_loop_heads .argument htokens (by decide) hread).1 (.inl rfl),
    ((brackets_in_loop_heads .element htokens (by decide) hread).2 (.string "x")).2 hstuck⟩

def testsInHeads : List String :=
  ["for (let a = ['x' in o]; ;) \x7b\x7d", "for (let a = \x7bk: 'x' in o\x7d; ;) \x7b\x7d",
    "for (let a = o['x' in o]; ;) \x7b\x7d", "for (let a = function () \x7b return 'x' in o \x7d; ;) \x7b\x7d",
    "for (let a = () => \x7b return 'x' in o \x7d; ;) \x7b\x7d"]

theorem array_holds_no_test : (parseProgram "'x' in o").isOk = true ∧
    ∀ source ∈ testsInHeads, (parseProgram source).isOk = false := by
  decide +kernel

end Snippet.Script
