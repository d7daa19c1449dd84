import Snippet.Proofs.ParenthesizedOperand
import Snippet.Proofs.SubstitutionSource

/-!
Where statements end. A statement that needs a semicolon and has none stands in front of a closing brace, the end, or
a token that begins on a later line than its last one. So the newline may be part of that last token, as in a
template, and need not stand behind it.
-/

namespace Snippet.Script

def Stmt.needsEnd : Stmt → Bool
  | .expr _ => true
  | .decl _ _ => true
  | .returns _ => true
  | .breaks => true
  | .continues => true
  | .throws _ => true
  | _ => false

def Input.passedTo (s t : Input) : List Placed := s.rest.take (s.rest.length - t.rest.length)

def Input.endsAt (s t : Input) : Bool :=
  -- Whether a statement that has been read between two states is ended: its last token is a
  -- semicolon, a closing brace or the end comes next, or the next token begins on a later line than
  -- its last one.
  (s.passedTo t).getLast?.any fun last =>
    Parse.isMarkToken ";" last.token || Parse.isMarkToken "\x7d" (Parse.tokenOf t.rest) ||
      (Parse.tokenOf t.rest).isStop || last.line < t.line

namespace Parse

def ended (p : Parse Stmt) : Parse Stmt := fun s =>
  match p s with
  | .ok (x, t) => if x.needsEnd && !s.endsAt t then .error ⟨misfit (tokenOf t.rest), t.line⟩ else .ok (x, t)
  | .error e => .error e

/-- Reading with room for `n` more levels, where each statement has to be ended. -/
def endedDescent : Nat → Descent
  | 0 => descent 0
  | n + 1 =>
    { statement := ended fun s => statement (endedDescent n) s
      assignment := fun s => assignment (endedDescent n) s
      unary := fun s => unary (endedDescent n) s
      binary := fun least s => binary (endedDescent n) least s
      primary := fun s => primary (endedDescent n) s }

def endedRound (done : List Stmt) : Parse (Step (List Stmt) (List Stmt)) := do
  if ← atStop then return .done done.reverse
  return .more ((← (endedDescent maxNesting).statement) :: done)

def endedProgram : Parse (List Stmt) := repeatFrom [] endedRound

end Parse

-- The last step of reading a statement that needs an end is to look for it.

def Yields {α : Type} (c : α → Prop) (p : Parse α) : Prop := ∀ s x t, p s = .ok (x, t) → c x

namespace Yields

open Parse

variable {α β : Type} {c : α → Prop} {p q : Parse α}

theorem pure {a : α} (ha : c a) : Yields c (Pure.pure a) := by
  intro s x t h
  cases h
  exact ha

theorem fail (e : SyntaxError) : Yields c (Parse.fail e) := by
  intro s x t h
  cases h

theorem bind {b : β → Prop} {q : Parse β} {f : β → Parse α} (hq : Yields b q) (hf : ∀ y, b y → Yields c (f y)) :
    Yields c (q >>= f) := by
  intro s x t h
  obtain ⟨y, u, hread, hrest⟩ := of_parse_bind h
  exact hf y (hq s y u hread) u x t hrest

theorem anything {q : Parse β} : Yields (fun _ => True) q := fun _ _ _ _ => trivial

theorem behind {q : Parse β} {f : β → Parse α} (hf : ∀ y, Yields c (f y)) : Yields c (q >>= f) :=
  bind anything fun y _ => hf y

theorem ite {b : Prop} [Decidable b] (hp : Yields c p) (hq : Yields c q) : Yields c (if b then p else q) := by
  split
  · exact hp
  · exact hq

/-- A repetition yields what its last round does. -/
theorem repeatFrom {start : β} {step : β → Parse (Step β α)}
    (hstep : ∀ b, Yields (fun r => ∀ a, r = .done a → c a) (step b)) : Yields c (Parse.repeatFrom start step) := by
  intro s x t h
  obtain ⟨b, u, hround⟩ := iterate_done h
  exact hstep b u (.done x) t hround x rfl

end Yields

abbrev NeedsNoEnd (p : Parse Stmt) : Prop := Yields (fun x => x.needsEnd = false) p

namespace NeedsNoEnd

open Parse

variable {d : Descent}

theorem forTail (init : Option Stmt) : NeedsNoEnd (Parse.forTail d init) :=
  .behind fun _ => .behind fun _ => .behind fun _ => .behind fun _ => .behind fun _ => .behind fun _ => .pure rfl

/-- A loop over elements needs no semicolon behind it. -/
theorem forEachTail? (kind : DeclKind) (t : Target) :
    Yields (fun loop? => ∀ loop, loop? = some loop → loop.needsEnd = false) (Parse.forEachTail? d kind t) := by
  have htail {g : Option Bool → Parse (Option Stmt)} (hnone : g none = return none)
      (hsome : ∀ keys, g (some keys) = do
        let subject ← Parse.expression d
        Parse.expectMark ")"
        let body ← d.statement
        return some (.forEach keys kind t subject body)) (keys? : Option Bool) :
      Yields (fun loop? => ∀ loop : Stmt, loop? = some loop → loop.needsEnd = false) (g keys?) := by
    cases keys? with
    | none =>
      rw [hnone]
      exact .pure fun _ h => by cases h
    | some keys =>
      rw [hsome]
      refine .behind fun _ => .behind fun _ => .behind fun _ => .pure ?_
      rintro _ ⟨⟩
      rfl
  exact .behind fun _ => .ite (.behind (htail rfl fun _ => rfl))
    (.behind fun _ => .behind (htail rfl fun _ => rfl))

/-- What is read instead of a loop over values needs no end either. -/
theorem unlessForEach (kind : DeclKind) (t : Target) {g : Option Stmt → Parse Stmt}
    (hsome : ∀ s, g (some s) = return s) (hnone : NeedsNoEnd (g none)) :
    NeedsNoEnd (Parse.forEachTail? d kind t >>= g) := by
  refine .bind (forEachTail? kind t) fun loop? hloop? => ?_
  cases loop? with
  | some s =>
    rw [hsome]
    exact .pure (hloop? s rfl)
  | none => exact hnone

theorem forStatement : NeedsNoEnd (Parse.forStatement d) := by
  refine .behind fun _ => .behind fun _ => .behind fun _ => .ite (forTail _) (.behind fun token => ?_)
  split
  · refine .behind fun _ => .behind fun t => unlessForEach _ t (fun _ => rfl) ?_
    exact .behind fun _ => .behind fun _ => .behind fun _ => forTail _
  · refine .behind fun _ => .behind fun e => .behind fun _ => ?_
    split
    · exact unlessForEach _ _ (fun _ => rfl) (forTail _)
    · exact forTail _

theorem tryStatement : NeedsNoEnd (Parse.tryStatement d) := by
  have htail (body : List Stmt) (param : Option Target) (handler : Option (List Stmt)) : NeedsNoEnd (do
      let finalizer ← if ← Parse.eatWord "finally" then some <$> Parse.block d else Pure.pure none
      if handler.isNone && finalizer.isNone then Parse.fail .missingHandler
      return Stmt.attempt body param handler finalizer) :=
    .behind fun _ => .ite (.behind fun _ => .ite (.behind fun _ => .pure rfl) (.pure rfl))
      (.behind fun _ => .ite (.behind fun _ => .pure rfl) (.pure rfl))
  refine .behind fun _ => .behind fun body => .behind fun _ => .ite (.behind fun _ => .ite ?_ ?_) ?_
  · exact .behind fun _ => .behind fun _ => .behind fun _ => .behind fun _ => .behind fun _ => htail _ _ _
  · exact .behind fun _ => .behind fun _ => .behind fun _ => htail _ _ _
  · exact .behind fun _ => htail _ _ _

theorem switchStatement : NeedsNoEnd (Parse.switchStatement d) := by
  refine .behind fun _ => .behind fun subject => .behind fun _ => .repeatFrom fun done => ?_
  have hmore (test : Option Expr) : Yields (fun r => ∀ x : Stmt, r = .done x → x.needsEnd = false) (do
      Parse.expectMark ":"
      let body ← Parse.caseBody d
      return (.more (.mk test body :: done) : Step (List Case) Stmt)) :=
    .behind fun _ => .behind fun _ => .pure nofun
  refine .behind fun _ => .ite (.pure ?_) (.behind fun _ => .ite (.behind fun _ => hmore _) ?_)
  · rintro _ ⟨⟩
    rfl
  · exact .behind fun _ => .ite (.behind fun _ => hmore _) (.behind fun _ => .behind fun _ => hmore _)

end NeedsNoEnd

def LooksForEnd (p : Parse Stmt) : Prop :=
  ∀ s x t, p s = .ok (x, t) → x.needsEnd = true → ∃ u, u.rest <:+ s.rest ∧ Parse.endStatement u = .ok ((), t)

def TakesFront {α : Type} (p : Parse α) : Prop := ∀ s x t, p s = .ok (x, t) → t.rest <:+ s.rest

theorem Pairing.Reads.takesFront {i : OpenBrackets} {α : Type} {j : α → OpenBrackets} {p q : Parse α}
    (h : (Pairing.same .anywhere).Reads Anywhere i j p q) : TakesFront p := by
  intro s x t hread
  obtain ⟨-, passed, hpassed, -⟩ := h.same trivial hread
  exact ⟨passed, hpassed.symm⟩

/-- Passing a token takes it from the front. -/
theorem takesFront_advance : TakesFront Parse.advance := by
  intro s x t h
  obtain ⟨tokens, size, previousLine, noIn⟩ := s
  cases tokens with
  | nil =>
    cases h
    exact List.suffix_rfl
  | cons p rest =>
    cases h
    exact List.suffix_cons p rest

namespace LooksForEnd

open Parse

variable {α : Type} {n : Nat}

theorem never {p : Parse Stmt} (hp : NeedsNoEnd p) : LooksForEnd p := by
  intro s x t h hx
  rw [hp s x t h] at hx
  cases hx

theorem last (x : Stmt) : LooksForEnd (do Parse.endStatement; return x) := by
  intro s y t h _
  obtain ⟨⟨⟩, u, hend, hdone⟩ := of_parse_bind h
  cases hdone
  exact ⟨s, List.suffix_rfl, hend⟩

theorem bind {q : Parse α} {f : α → Parse Stmt} (hq : TakesFront q) (hf : ∀ a, LooksForEnd (f a)) :
    LooksForEnd (q >>= f) := by
  intro s x t h hx
  obtain ⟨a, u, hread, hrest⟩ := of_parse_bind h
  obtain ⟨v, hsuffix, hend⟩ := hf a u x t hrest hx
  exact ⟨v, hsuffix.trans (hq s a u hread), hend⟩

theorem ite {c : Prop} [Decidable c] {p q : Parse Stmt} (hp : LooksForEnd p) (hq : LooksForEnd q) :
    LooksForEnd (if c then p else q) := by
  split
  · exact hp
  · exact hq

theorem look {v : Input → α} {q : Parse α} {f : α → Parse Stmt} (hq : ∀ s, q s = .ok (v s, s))
    (hf : ∀ a, LooksForEnd (f a)) : LooksForEnd (q >>= f) := by
  refine bind (fun s a t h => ?_) hf
  cases (hq s).symm.trans h
  exact List.suffix_rfl

/-- Each level reads whole tokens. -/
theorem level (n : Nat) : (descent n).Beside (.same .anywhere) (descent n) := Descent.beside_anywhere (Nat.le_refl n)

theorem expressionStatement : LooksForEnd (Parse.expressionStatement (descent n)) :=
  bind (Pairing.Reads.expression (i := []) (level n) id).takesFront fun _ => last _

/-- A statement that begins with a word looks for its end if it needs one. -/
theorem wordStatement (name : String) : LooksForEnd (Parse.wordStatement (descent n) name) := by
  unfold Parse.wordStatement
  split
  · exact never (.behind fun _ => .behind fun _ => .ite (.behind fun _ => .pure rfl) (.pure rfl))
  · exact never (.behind fun _ => .pure rfl)
  · exact never (.behind fun _ => .behind fun _ => .behind fun _ => .behind fun _ =>
      .ite (.behind fun _ => .pure rfl) (.behind fun _ => .pure rfl))
  · exact never (.behind fun _ => .behind fun _ => .behind fun _ => .pure rfl)
  · exact never (.behind fun _ => .behind fun _ => .behind fun _ => .ite
      (.behind fun _ => .behind fun _ => .pure rfl) (.behind fun _ => .behind fun _ => .behind fun _ => .pure rfl))
  · exact never .forStatement
  · refine bind takesFront_advance fun _ => bind ?_ fun _ => last _
    exact (Pairing.Reads.returnValue (i := []) (level n) fun _ => id).takesFront
  · exact bind takesFront_advance fun _ => last _
  · exact bind takesFront_advance fun _ => last _
  · refine bind takesFront_advance fun _ => bind ?_ fun _ => last _
    exact (Pairing.Reads.expression (i := []) (level n) id).takesFront
  · exact never .tryStatement
  · exact never .switchStatement
  · exact never (.fail _)
  · exact never (.fail _)
  · exact expressionStatement

/-- Every statement looks for its end if it needs one. -/
theorem statement : LooksForEnd (Parse.statement (descent n)) := by
  refine look (q := atMark "\x7b") (fun _ => rfl) fun _ => ite (never (.behind fun _ => .pure rfl)) ?_
  refine bind (Pairing.Reads.eatPlain (i := []) (by decide)).takesFront fun _ => ite (never (.pure rfl)) ?_
  refine look (q := peek) (fun _ => rfl) fun token => ?_
  split
  · refine bind takesFront_advance fun _ => bind (Pairing.Reads.target (i := [])).takesFront fun t => ?_
    refine bind ?_ fun _ s x t h _ => ?_
    · exact (Pairing.Reads.bindings (i := []) (level n) (fun _ => id) _ t).takesFront
    · obtain ⟨⟨⟩, u, hend, hdone⟩ := of_parse_bind h
      cases hdone
      exact ⟨s, List.suffix_rfl, hend⟩
  · refine bind (Pairing.Reads.skipAsync (i := [])).takesFront fun _ => look (q := peek) (fun _ => rfl) fun token => ?_
    split
    · exact wordStatement _
    · exact expressionStatement

end LooksForEnd

/-- A statement ends with a semicolon, or in front of a closing brace, the end or a token on a later line. -/
theorem Parse.of_endStatement {u t : Input} (h : Parse.endStatement u = .ok ((), t)) :
    (∃ line, u.rest = ⟨.mark ";", line⟩ :: t.rest) ∨ t = u ∧
      (isMarkToken "\x7d" (tokenOf t.rest) = true ∨ (tokenOf t.rest).isStop = true ∨ t.previousLine < t.line) := by
  obtain ⟨eaten, v, heat, hrest⟩ := of_parse_bind h
  rcases of_eatMark heat with ⟨rfl, line, hmark⟩ | ⟨rfl, rfl⟩
  · cases hrest
    exact .inl ⟨line, hmark⟩
  · refine .inr ?_
    rw [if_neg Bool.false_ne_true, parse_bind (p := atMark "\x7d") _ v rfl] at hrest
    split at hrest
    · next hbrace =>
      cases hrest
      exact ⟨rfl, .inl hbrace⟩
    rw [parse_bind _ v (atStop_eq v)] at hrest
    split at hrest
    · next hstop =>
      cases hrest
      exact ⟨rfl, .inr (.inl hstop)⟩
    rw [parse_bind (p := afterNewline) _ v rfl] at hrest
    split at hrest
    · next hline =>
      cases hrest
      exact ⟨rfl, .inr (.inr (of_decide_eq_true hline))⟩
    · cases hrest

/-- The line of the last of some tokens. -/
theorem lineBehind_concat (line : Nat) (tokens : List Placed) (last : Placed) :
    lineBehind line (tokens ++ [last]) = last.line := by
  rw [lineBehind, List.foldl_append]
  rfl

theorem Input.passedTo_eq {s t : Input} {passed : List Placed} (h : s.rest = passed ++ t.rest) :
    s.passedTo t = passed := by
  have hlength : s.rest.length - t.rest.length = passed.length := by
    rw [h, List.length_append, Nat.add_sub_cancel]
  rw [passedTo, hlength, h, List.take_left]

/-- A statement that needs an end has one. -/
theorem endsAt_of_statement {n : Nat} {s t : Input} {x : Stmt} (hs : s.Sound)
    (h : Parse.statement (Parse.descent n) s = .ok (x, t)) (hx : x.needsEnd = true) : s.endsAt t = true := by
  obtain ⟨-, passed, hpassed, -, hline⟩ :=
    (Pairing.Reads.statement (i := []) (LooksForEnd.level n) fun _ => id).same trivial h
  have hprogress : Passes s.rest.length Anywhere (fun _ => 1) (Parse.statement (Parse.descent n)) :=
    .statement (Parse.Descent.passing n)
  have hcomes := hprogress s hs (Nat.le_refl _) trivial
  rw [h] at hcomes
  have hless : t.rest.length + 1 ≤ s.rest.length := Input.LeadsTo.length_le hcomes hs
  -- Some token has been passed, so there is a last one.
  obtain ⟨before, last, rfl⟩ : ∃ before last, passed = before ++ [last] := by
    rcases List.eq_nil_or_concat passed with rfl | ⟨before, last, rfl⟩
    · rw [hpassed] at hless
      exact absurd hless (Nat.not_succ_le_self _)
    · exact ⟨before, last, List.concat_eq_append⟩
  rw [lineBehind_concat] at hline
  unfold Input.endsAt
  rw [Input.passedTo_eq hpassed, List.getLast?_concat, Option.any_some]
  obtain ⟨u, ⟨front, hfront⟩, hend⟩ := LooksForEnd.statement s x t h hx
  rcases Parse.of_endStatement hend with ⟨line, hmark⟩ | ⟨rfl, hnext⟩
  · -- The semicolon that has been passed is the last of the tokens.
    have hsame : before ++ [last] = front ++ [⟨.mark ";", line⟩] := by
      refine (List.append_left_inj t.rest).mp ?_
      rw [← hpassed, ← hfront, hmark, List.append_assoc]
      rfl
    have hlast : last = ⟨.mark ";", line⟩ := (List.append_inj' hsame rfl).2 |> List.singleton_inj.mp
    rw [hlast]
    rfl
  · rw [hline] at hnext
    rcases hnext with hbrace | hstop | hbelow
    · rw [hbrace]
      simp
    · rw [hstop]
      simp
    · rw [decide_eq_true hbelow]
      simp

theorem Input.Kept.sound : Input.Kept Input.Sound where
  behind hs hrest hstop := by
    have hlength := hs.length_le
    rw [hrest] at hlength
    exact ⟨(hrest ▸ hs.ends : EndAtStop (_ :: _)).tail hstop, Nat.le_of_succ_le hlength⟩
  withNoIn _ hs := ⟨hs.ends, hs.length_le⟩
  source := by
    intro source tokens htokens
    have hcomes := comesTo_tokenize source
    rw [htokens] at hcomes
    exact ⟨hcomes, Nat.le_refl _⟩

/-- A statement is ended wherever it is read, by induction on the level. -/
theorem Parse.Descent.beside_ended (n : Nat) : (descent n).Beside (.same .sound) (endedDescent n) := by
  induction n with
  | zero => exact Parse.Descent.beside (Nat.le_refl 0)
  | succ n ih =>
    refine .of_same ?_ (.assignment ih) (.unary ih) (fun least => .binary ih least) (.primary ih)
    rintro P i _ s ⟨rfl, hs⟩ hP
    -- Within the statement others are ended by induction; that it is ended itself is `endsAt_of_statement`.
    have hread := Pairing.Reads.statement (P := P) (i := i) ih (fun _ => id) s s ⟨rfl, hs⟩ hP
    change Pairing.Outcome _ s i _ (Parse.statement (descent n) s) (ended (Parse.statement (endedDescent n)) s)
    cases hresult : Parse.statement (descent n) s with
    | error e => exact False.elim
    | ok y =>
      obtain ⟨x, t⟩ := y
      rw [hresult] at hread
      obtain ⟨t', hread', ⟨rfl, ht⟩, hpasses⟩ := hread
      have hends : (x.needsEnd && !s.endsAt t') = false := by
        cases hx : x.needsEnd with
        | false => rfl
        | true =>
          rw [endsAt_of_statement hs hresult hx]
          rfl
      refine ⟨t', ?_, ⟨rfl, ht⟩, hpasses⟩
      unfold ended
      rw [hread']
      dsimp only
      rw [hends]
      rfl

theorem Parse.program_ended {tokens : List Placed} {statements : List Stmt} {t : Input} (htokens : EndAtStop tokens)
    (h : program { rest := tokens, size := tokens.length } = .ok (statements, t)) :
    endedProgram { rest := tokens, size := tokens.length } = .ok (statements, t) := by
  have hreads : (Pairing.same .sound).Reads Anywhere [] (fun _ => []) program endedProgram := by
    refine .repeatFrom fun done => .atStop (fun _ => id) fun _ => .ite (fun _ => .pure rfl) fun _ => ?_
    exact .bind ((Descent.beside_ended maxNesting).statement fun _ => id) fun _ => .pure rfl
  exact (hreads.same ⟨htokens, Nat.le_refl _⟩ h).1

/-- Parts in front of others lead to a later place. -/
theorem CutInto.leads {front parts : List Lexeme} {h : Here} (hcut : CutInto h (front ++ parts)) :
    ∃ h', CutInto h' parts ∧ h.Leads h' ∧ h.rest = front.flatMap Lexeme.text ++ h'.rest := by
  induction front generalizing h with
  | nil => exact ⟨h, hcut, .refl h, rfl⟩
  | cons x front ih =>
    suffices hfirst : ∃ here, CutInto here (front ++ parts) ∧ h.Leads here ∧ h.rest = x.text ++ here.rest by
      obtain ⟨here, hmore, hleads, hrest⟩ := hfirst
      obtain ⟨h', hparts, hleads', hrest'⟩ := ih hmore
      refine ⟨h', hparts, hleads.trans hleads', ?_⟩
      rw [hrest, hrest', List.flatMap_cons, List.append_assoc]
    cases hcut with
    | @blank c rest line _ hc hmore => exact ⟨_, hmore, Here.leads_cons c rest line, rfl⟩
    | @lineComment text line _ hmore =>
      refine ⟨_, hmore, Here.leads_of_sublist ?_ line, ?_⟩
      · refine (List.dropWhile_sublist _).trans ?_
        exact (List.sublist_cons_self _ _).trans (List.sublist_cons_self _ _)
      · simp [Lexeme.text]
    | @blockComment text rest line line' _ hcomment hmore =>
      have hinside := passes_afterComment line (text ++ rest)
      rw [hcomment] at hinside
      refine ⟨_, hmore, Here.Leads.trans ?_ hinside, rfl⟩
      exact (Here.leads_cons '/' _ line).trans (Here.leads_cons '*' _ line)
    | @token c tail text rest line line' fuel t _ _ _ htext htoken hmore =>
      have hlexes := lexes_token (n := lineCount (c :: tail)) fuel line (Nat.le_refl _)
      rw [htoken] at hlexes
      exact ⟨_, hmore, hlexes.2, htext⟩

/-- A token begins on a later line than another one only if there is a newline in that one or behind it. -/
theorem CutInto.newline_between {h : Here} {parts before gap after : List Lexeme} {text text' : List Char}
    {p q : Placed} (hcut : CutInto h parts)
    (hparts : parts = before ++ .token text p :: (gap ++ .token text' q :: after)) (hline : p.line < q.line) :
    '\n' ∈ text ∨ '\n' ∈ gap.flatMap Lexeme.text := by
  subst hparts
  obtain ⟨first, hfirst, -, -⟩ := hcut.leads
  have hfront : CutInto first ((.token text p :: gap) ++ .token text' q :: after) := hfirst
  obtain ⟨second, hsecond, hleads, hrest⟩ := hfront.leads
  have hp : first.line = p.line := by
    cases hfirst
    rfl
  have hq : second.line = q.line := by
    cases hsecond
    rfl
  -- The lines between the two places are counted by the newlines between them.
  have hlast := hleads.rest
  unfold Here.lastLine at hlast
  rw [hrest, Here.newlines_append, hp, hq] at hlast
  have hnewlines : 0 < newlines ((Lexeme.token text p :: gap).flatMap Lexeme.text) := by omega
  exact List.mem_append.mp (List.count_pos_iff.mp hnewlines)

/-- In a source that is read, each statement that needs an end has one, on every level of nesting: a semicolon, a
closing brace or the end behind it, or a token on a later line than the one that its last token begins on. A newline
stands in that last token or behind it then, and behind it if the token has none. -/
theorem statements_end_at_newlines {source : String} {statements : List Stmt}
    (h : parseProgram source = .ok statements) :
    ∃ parts tokens line, CutInto ⟨source.toList, 1⟩ parts ∧ source.toList = parts.flatMap Lexeme.text ∧
      tokens = parts.filterMap Lexeme.token? ++ [⟨.stop, line⟩] ∧ tokenize source.toList = .ok tokens ∧
      (∃ t, Parse.endedProgram { rest := tokens, size := tokens.length } = .ok (statements, t)) ∧
      ∀ before text p gap text' q after,
        parts = before ++ .token text p :: (gap ++ .token text' q :: after) → p.line < q.line →
          '\n' ∈ text ∨ '\n' ∈ gap.flatMap Lexeme.text := by
  have hends := comesTo_tokenize source.toList
  unfold parseProgram at h
  cases htokens : tokenize source.toList with
  | error e =>
    rw [htokens] at h
    cases h
  | ok tokens =>
    rw [htokens] at h hends
    obtain ⟨parts, line, hcut, hparts⟩ := of_tokensFrom htokens
    dsimp only at h
    split at h
    · next t hread =>
      cases h
      exact ⟨parts, tokens, line, hcut, hcut.text_eq, hparts, rfl, ⟨t, Parse.program_ended hends hread⟩,
        fun _ _ _ _ _ _ _ heq hline => hcut.newline_between heq hline⟩
    · cases h

def templateLine : String := "let a = \x60\n\x60"

/-- It is read together with another one on the line on which the template ends. -/
theorem crowded_line_is_read : ∃ statements tokens t, parseProgram (templateLine ++ " let b = a") = .ok statements ∧
    tokenize (templateLine ++ " let b = a").toList = .ok tokens ∧
    Parse.endedProgram { rest := tokens, size := tokens.length } = .ok (statements, t) := by
  have hparsed : (parseProgram (templateLine ++ " let b = a")).isOk = true := by decide +kernel
  cases hread : parseProgram (templateLine ++ " let b = a") with
  | error e =>
    rw [hread] at hparsed
    cases hparsed
  | ok statements =>
    obtain ⟨parts, tokens, line, -, -, -, htokens, ⟨t, hended⟩, -⟩ := statements_end_at_newlines hread
    exact ⟨statements, tokens, t, rfl, htokens, hended⟩

/-- Only a blank stands between two statements that are read one after the other, as they are alone. -/
theorem statements_share_line :
    (parseProgram templateLine).toOption.map List.length = some 1 ∧
      (parseProgram "let b = a").toOption.map List.length = some 1 ∧
      (parseProgram (templateLine ++ " " ++ "let b = a")).toOption.map List.length = some 2 := by
  decide +kernel

end Snippet.Script
