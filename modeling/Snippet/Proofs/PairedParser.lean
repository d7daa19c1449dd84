import Snippet.Proofs.PairedReading

/-!
The parts of scripts read side by side. Where two inputs belong together and the levels below read them alike, each
function that reads a part of a script reads both of them alike, also on two levels with different room for nesting.
-/

namespace Snippet.Script

def Parse.substitution (d : Parse.Descent) (code : String) : Except SyntaxFault Expr :=
  match tokenize code.toList with
  | .error e => .error e
  | .ok tokens =>
    let inner : Parse Expr := do
      let e ← Parse.expression d
      unless ← Parse.atStop do Parse.unexpected
      return e
    match inner { rest := tokens, size := tokens.length } with
    | .ok (e, _) => .ok e
    | .error e => .error e

/-- A substitution is read apart from the tokens around it. -/
theorem Parse.piece_code (d : Parse.Descent) (code : String) (outer : Input) :
    Parse.piece d (.code code) outer = (Parse.substitution d code).map fun e => (.value e, outer) := by
  unfold Parse.piece Parse.substitution
  dsimp only
  cases tokenize code.toList with
  | error e => rfl
  | ok tokens =>
    have hmap (r : Except SyntaxFault (Expr × Input)) :
        (match r with
          | .ok (e, _) => .ok (Piece.value e, outer)
          | .error e => .error e : Except SyntaxFault (Piece × Input)) =
          (match r with
            | .ok (e, _) => .ok e
            | .error e => .error e : Except SyntaxFault Expr).map fun e => (Piece.value e, outer) := by
      cases r <;> rfl
    exact hmap _

/-- Whatever is read at the level `d` from the first of two inputs is read at the level `d'` from the second one. -/
structure Parse.Descent.Beside (R : Pairing) (d d' : Parse.Descent) : Prop where
  statement : ∀ {P i}, R.Closed i → R.Reads P i (fun _ => i) d.statement d'.statement
  assignment : ∀ {P i}, R.Reads P i (fun _ => i) d.assignment d'.assignment
  unary : ∀ {P i}, R.Reads P i (fun _ => i) d.unary d'.unary
  binary : ∀ {P i} least, R.Reads P i (fun _ => i) (d.binary least) (d'.binary least)
  primary : ∀ {P i}, R.Reads P i (fun _ => i) d.primary d'.primary
  inner : ∀ {code e}, Parse.substitution d code = .ok e → Parse.substitution d' code = .ok e
  innerFault : ∀ {code f}, R.Strict → Parse.substitution d code = .error f →
    Parse.substitution d' code = .error f ∧ R.Inner code f

namespace Pairing.Reads

open Parse

variable {R : Pairing} {P : Input → Prop} {i : OpenBrackets} {d d' : Descent}

def plainMarks : List String := ["=", "...", ";", ":", ".", "?.", "?", "=>"]

theorem plain {m : String} (hm : m ∈ plainMarks) : TakesBrackets m i i := by
  have hnone : ∀ m ∈ plainMarks, m ∉ bracketMarks := by decide
  exact .plain (hnone m hm)

theorem notEnd {m : String} (hm : m ∈ plainMarks) : ¬ R.Ends i m := by
  have hnone : ∀ m ∈ plainMarks, m ∉ endMarks := by decide
  exact R.apart (hnone m hm)

theorem eatPlain {m : String} (hm : m ∈ plainMarks) :
    R.Reads P i (fun _ => i) (Parse.eatMark m) (Parse.eatMark m) :=
  (eatMark (notEnd hm) (plain hm)).congr fun _ => ite_self i

theorem expectPlain {m : String} (hm : m ∈ plainMarks) :
    R.Reads P i (fun _ => i) (Parse.expectMark m) (Parse.expectMark m) := expectMark (notEnd hm) (plain hm)

theorem ifPlain {α : Type} {j : α → OpenBrackets} {m : String} {p q p' q' : Parse α} (hm : m ∈ plainMarks)
    (hp : R.Reads Anywhere i j p q) (hq : R.Reads Anywhere i j p' q') :
    R.Reads P i j (Parse.eatMark m >>= fun eaten => if eaten = true then p else p')
      (Parse.eatMark m >>= fun eaten => if eaten = true then q else q') := ifMark (notEnd hm) (plain hm) hp hq

/-- What is known of the two inputs may be used. -/
theorem settled {α : Type} {j : α → OpenBrackets} {p q : Parse α}
    (h : ∀ s s', R.Belongs i s s' → P s → R.Reads P i j p q) : R.Reads P i j p q :=
  fun s s' hs hP => h s s' hs hP s s' hs hP

theorem isMark_of_eq {s : Input} {m : String} (hs : tokenOf s.rest = .mark m) :
    isMarkToken m (tokenOf s.rest) = true := by
  rw [hs]
  exact beq_self_eq_true m

-- The marks that may stand behind an expression neither begin one nor go on with it.

theorem updateOf?_of_end {m : String} (hm : m ∈ endMarks) : updateOf? (.mark m) = none := by
  have hnone : ∀ m ∈ endMarks, updateOf? (.mark m) = none := by decide
  exact hnone m hm

theorem unaryOf?_of_end {m : String} (hm : m ∈ endMarks) : unaryOf? (.mark m) = none := by
  have hnone : ∀ m ∈ endMarks, unaryOf? (.mark m) = none := by decide
  exact hnone m hm

theorem assignOf?_of_end {m : String} (hm : m ∈ endMarks) : assignOf? (.mark m) = none := by
  have hnone : ∀ m ∈ endMarks, assignOf? (.mark m) = none := by decide
  exact hnone m hm

theorem infixOf?_bracket (noIn : Bool) : ∀ m ∈ bracketMarks, infixOf? noIn (.mark m) = none := by
  cases noIn <;> decide

/-- The parts of a sequence are read one level further down. -/
theorem sequenceOf (hd : ∀ {P}, R.Reads P i (fun _ => i) d.assignment d'.assignment) (hi : ¬ R.Ends i ",") :
    R.Reads P i (fun _ => i) (Parse.expression d) (Parse.expression d') := by
  refine bind hd fun _ => atMark hi fun _ => ite (fun _ => ?_) fun _ => pure rfl
  refine bind (repeatFrom fun done => ?_) fun _ => pure rfl
  exact ifMark hi (.plain (by decide)) (bind hd fun _ => pure rfl) (pure rfl)

theorem expression (hd : d.Beside R d') (hi : ¬ R.Ends i ",") :
    R.Reads P i (fun _ => i) (Parse.expression d) (Parse.expression d') := sequenceOf hd.assignment hi

theorem blockRound (hd : d.Beside R d') (done : List Stmt) :
    R.Reads P ("\x7d" :: i) (Step.open ("\x7d" :: i) fun _ => i) (Parse.blockRound d done)
      (Parse.blockRound d' done) :=
  ifMark R.inside (.closing (by decide)) (pure rfl) <| atStop R.closed_cons fun _ =>
    onlyIf (fun _ => unexpected) (bind (hd.statement R.closed_cons) fun _ => pure rfl)

theorem block (hd : d.Beside R d') : R.Reads P i (fun _ => i) (Parse.block d) (Parse.block d') :=
  bind (expectMark (R.apart (by decide)) (.opening rfl)) fun _ => repeatFrom (blockRound hd)

theorem initializer (hd : d.Beside R d') :
    R.Reads P i (fun _ => i) (Parse.initializer d) (Parse.initializer d') :=
  ifPlain (by decide) (bind hd.assignment fun _ => pure rfl) (pure rfl)

theorem param (hd : d.Beside R d') : R.Reads P i (fun _ => i) (Parse.param d) (Parse.param d') :=
  bind (eatPlain (by decide)) fun _ => bind target fun _ => bind (initializer hd) fun _ => pure rfl

theorem params (hd : d.Beside R d') : R.Reads P i (fun _ => i) (Parse.params d) (Parse.params d') :=
  bind (expectMark (R.apart (by decide)) (.opening rfl)) fun _ => listUntil (by decide) (param hd)

theorem method (hd : d.Beside R d') (name : Option String) :
    R.Reads P i (fun _ => i) (Parse.method d name) (Parse.method d' name) :=
  bind (params hd) fun _ => bind (block hd) fun _ => pure rfl

theorem function (hd : d.Beside R d') :
    R.Reads P i (fun _ => i) (Parse.function d) (Parse.function d') := by
  refine peek (fun t => ?_) fun m _ => method hd _
  split
  · exact bind expectName fun _ => method hd _
  · exact method hd _

/-- A member of a class behind its key. -/
theorem methodOf (hd : d.Beside R d') (parts : ClassParts) (isStatic : Bool) (key : String) :
    R.Reads P i (fun _ => i)
      (do
        let f ← Parse.method d (some key)
        if isStatic then return { parts with statics := (key, f) :: parts.statics }
        if key == "constructor" then return { parts with constructor? := some f }
        return { parts with methods := (key, f) :: parts.methods })
      (do
        let f ← Parse.method d' (some key)
        if isStatic then return { parts with statics := (key, f) :: parts.statics }
        if key == "constructor" then return { parts with constructor? := some f }
        return { parts with methods := (key, f) :: parts.methods }) :=
  bind (method hd _) fun _ => ite (fun _ => pure rfl) fun _ => ite (fun _ => pure rfl) fun _ => pure rfl

/-- A member of a class is read alike on both levels. -/
theorem classMember (hd : d.Beside R d') (hi : R.Closed i) (parts : ClassParts) :
    R.Reads P i (fun _ => i) (Parse.classMember d parts) (Parse.classMember d' parts) := by
  refine atWordBefore (c := fun t => !isMarkToken "(" t) (fun m hm => absurd hm (hi m)) fun a t a' t' hsame => ?_
  dsimp only
  rw [hsame]
  generalize (a && !isMarkToken "(" t) = isStatic
  refine onlyIf (fun hstatic => advance fun s hs => .of_isWord (hs hstatic)) (peekClosed hi fun t => ?_)
  split
  · exact bind (advance fun s hs => .of_eq hs rfl nofun) fun _ => afterPure (methodOf hd _ _ _)
  · exact bind (advance fun s hs => .of_eq hs rfl nofun) fun _ => afterPure (methodOf hd _ _ _)
  · exact unexpectedThen

theorem classRound (hd : d.Beside R d') (name : String) (parts : ClassParts) :
    R.Reads P ("\x7d" :: i) (Step.open ("\x7d" :: i) fun _ => i) (Parse.classRound d name parts)
      (Parse.classRound d' name parts) :=
  ifMark R.inside (.closing (by decide)) (pure rfl) <| ifPlain (by decide) (pure rfl) <|
    bind (classMember hd R.closed_cons parts) fun _ => pure rfl

/-- A class behind its keyword. -/
theorem classDef (hd : d.Beside R d') (hP : ∀ s, P s → s.AtPlain) :
    R.Reads P i (fun _ => i) (Parse.classDef d) (Parse.classDef d') := by
  refine bind (advance hP) fun _ => bind expectName fun _ => atWord fun _ => ?_
  refine onlyIf (fun _ => fail _) (bind (expectMark (R.apart (by decide)) (.opening rfl)) fun _ => ?_)
  exact repeatFrom (classRound hd _)

theorem item (hd : d.Beside R d') : R.Reads P i (fun _ => i) (Parse.item d) (Parse.item d') :=
  bind (eatPlain (by decide)) fun _ => bind hd.assignment fun _ => pure rfl

theorem arguments (hd : d.Beside R d') :
    R.Reads P i (fun _ => i) (Parse.arguments d) (Parse.arguments d') :=
  bind (expectMark (R.apart (by decide)) (.opening rfl)) fun _ => withIn (listUntil (by decide) (item hd))

theorem arrayItems (hd : d.Beside R d') :
    R.Reads P ("]" :: i) (fun _ => i) (Parse.arrayItems d) (Parse.arrayItems d') :=
  listWithHoles (by decide) (item hd)

/-- A key in brackets is paired with its closing bracket. -/
theorem memberKey (hd : d.Beside R d') (hi : R.Closed i) :
    R.Reads P i (fun _ => i) (Parse.memberKey d) (Parse.memberKey d') := by
  refine peekClosed hi fun t => ?_
  split
  · exact bind (advance fun s hs => .of_eq hs rfl nofun) fun _ => pure rfl
  · exact bind (advance fun s hs => .of_eq hs rfl nofun) fun _ => pure rfl
  · exact bind (advance fun s hs => .of_eq hs rfl nofun) fun _ => pure rfl
  · refine bind (advanceMark (.opening rfl) fun s hs => isMark_of_eq hs) fun _ => bind hd.assignment fun _ => ?_
    exact bind (expectMark R.inside (.closing (by decide))) fun _ => pure rfl
  · exact unexpected

/-- A member is a spread, an accessor, a method, a value or a name. -/
theorem member (hd : d.Beside R d') (hi : R.Closed i) :
    R.Reads P i (fun _ => i) (Parse.member d) (Parse.member d') := by
  refine ifPlain (by decide) (bind hd.assignment fun _ => pure rfl) <|
    atWordBefore (c := fun t => !isAnyMark t) (fun m hm => absurd hm (hi m)) fun a t a' t' hsame => ?_
  rw [hsame]
  refine onlyIf (fun hasync => advance fun s hs => .of_isWord (hs hasync)) ?_
  refine bind (memberKey hd hi) fun key => atMark (hi _) fun _ => ite (fun _ => ?_) fun _ => ?_
  · exact bind (method hd _) fun _ => pure rfl
  · refine ifPlain (by decide) (bind hd.assignment fun _ => pure rfl) ?_
    split
    · exact pure rfl
    · exact unexpected

/-- A substitution takes no token of those around it; its own are read alike. -/
theorem piece (hd : d.Beside R d') (c : Chunk)
    (hc : ∀ code f, c = .code code → R.Inner code f → R.Fault f f) :
    R.Reads P i (fun _ => i) (Parse.piece d c) (Parse.piece d' c) := by
  intro s s' hs _
  cases c with
  | text text => exact ⟨s', rfl, hs, .refl rfl rfl⟩
  | code code =>
    rw [piece_code, piece_code]
    cases hread : Parse.substitution d code with
    | ok e =>
      rw [hd.inner hread]
      exact ⟨s', rfl, hs, .refl rfl rfl⟩
    | error f =>
      intro hstrict
      obtain ⟨hread', hinner⟩ := hd.innerFault hstrict hread
      rw [hread']
      exact ⟨f, rfl, hc code f rfl hinner⟩

theorem pieces (hd : d.Beside R d') (chunks : List Chunk)
    (hchunks : ∀ code f, .code code ∈ chunks → R.Inner code f → R.Fault f f) :
    R.Reads P i (fun _ => i) (chunks.mapM (Parse.piece d)) (chunks.mapM (Parse.piece d')) := by
  induction chunks generalizing P with
  | nil =>
    rw [List.mapM_nil, List.mapM_nil]
    exact pure rfl
  | cons c rest ih =>
    rw [List.mapM_cons, List.mapM_cons]
    refine bind (piece hd c fun code f hc => hchunks code f (hc ▸ List.mem_cons_self)) fun _ => ?_
    exact bind (ih fun code f hmem => hchunks code f (List.mem_cons_of_mem _ hmem)) fun _ => pure rfl

theorem skipAsync : R.Reads P i (fun _ => i) Parse.skipAsync Parse.skipAsync := by
  refine atWordBefore (c := isWordToken "function") (fun m _ => rfl) fun a t a' t' hsame => ?_
  rw [hsame]
  exact ite (fun hasync => advance fun s hs => .of_isWord (hs hasync)) fun _ => pure rfl

/-- Of the words only the one that begins a class or a function opens brackets. -/
theorem wordExpr (hd : d.Beside R d') (name : String) (hP : ∀ s, P s → s.AtPlain) :
    R.Reads P i (fun _ => i) (Parse.wordExpr d name) (Parse.wordExpr d' name) := by
  unfold Parse.wordExpr
  split
  · exact bind (advance hP) fun _ => pure rfl
  · exact bind (advance hP) fun _ => pure rfl
  · exact bind (advance hP) fun _ => pure rfl
  · exact bind (advance hP) fun _ => pure rfl
  · exact bind (advance hP) fun _ => pure rfl
  · exact bind (advance hP) fun _ => bind (function hd) fun _ => pure rfl
  · exact bind (classDef hd hP) fun _ => pure rfl
  · exact fail _
  · exact bind expectName fun _ => pure rfl

/-- What begins an operand takes its closing mark with it. -/
theorem primary (hd : d.Beside R d') : R.Reads P i (fun _ => i) (Parse.primary d) (Parse.primary d') := by
  refine bind skipAsync fun _ => peek (fun t => ?_) fun m hm => ?_
  rotate_left
  · have hend := R.ends hm
    simp only [endMarks, List.mem_cons, List.not_mem_nil, or_false] at hend
    rcases hend with rfl | rfl | rfl | rfl <;> exact unexpected
  split
  · exact bind (advance fun s hs => .of_eq hs rfl nofun) fun _ => pure rfl
  · exact bind (advance fun s hs => .of_eq hs rfl nofun) fun _ => pure rfl
  · refine settled fun s s' hs ht => bind (advance fun s hs => .of_eq hs rfl nofun) fun _ => ?_
    exact bind (pieces hd _ fun code f hcode => R.inner hs ht hcode) fun _ => pure rfl
  · refine bind (advanceMark (.opening rfl) fun s hs => isMark_of_eq hs) fun _ => ?_
    refine bind (withIn (expression hd R.inside)) fun _ => ?_
    exact bind (expectMark R.inside (.closing (by decide))) fun _ => pure rfl
  · refine bind (advanceMark (.opening rfl) fun s hs => isMark_of_eq hs) fun _ => ?_
    exact bind (arrayItems hd) fun _ => pure rfl
  · refine bind (advanceMark (.opening rfl) fun s hs => isMark_of_eq hs) fun _ => ?_
    exact bind (listUntil (by decide) (member hd R.closed_cons)) fun _ => pure rfl
  · exact wordExpr hd _ fun s hs => .of_word hs
  · exact unexpected

/-- A key in brackets behind the opening one. -/
theorem computedKey (hd : d.Beside R d') :
    R.Reads P ("]" :: i) (fun _ => i) (Parse.computedKey d) (Parse.computedKey d') :=
  bind (expression hd R.inside) fun _ => bind (expectMark R.inside (.closing (by decide))) fun _ => pure rfl

theorem constructorRound (hd : d.Beside R d') (e : Expr) :
    R.Reads P i (Step.open i fun _ => i) (Parse.constructorRound d e) (Parse.constructorRound d' e) :=
  ifPlain (by decide) (bind memberName fun _ => pure rfl) <|
    ifMark (R.apart (by decide)) (.opening rfl) (bind (computedKey hd) fun _ => pure rfl) (pure rfl)

theorem construction (hd : d.Beside R d') (hP : ∀ s, P s → s.AtPlain) :
    R.Reads P i (fun _ => i) (Parse.construction d) (Parse.construction d') := by
  refine bind (advance hP) fun _ => bind hd.primary fun callee => ?_
  refine bind (repeatFrom (constructorRound hd)) fun _ => atMark (R.apart (by decide)) fun _ => ?_
  exact either (fun _ => arguments hd) (fun _ => pure rfl) fun _ => pure rfl

/-- A link takes its closing mark with it. -/
theorem chainRound (hd : d.Beside R d') (e : Expr) :
    R.Reads P i (Step.open i fun _ => i) (Parse.chainRound d e) (Parse.chainRound d' e) := by
  have hcall : ¬ R.Ends i "(" := R.apart (by decide)
  have hkey : ¬ R.Ends i "[" := R.apart (by decide)
  refine ifPlain (by decide) (bind memberName fun _ => pure rfl) <|
    ifPlain (by decide) (atMark hcall fun _ => ?_) <| ifMark hkey (.opening rfl) ?_ <|
      atMark hcall fun _ => ite (fun _ => bind (arguments hd) fun _ => pure rfl) fun _ => pure rfl
  · refine ite (fun _ => bind (arguments hd) fun _ => pure rfl) fun _ => ifMark hkey (.opening rfl) ?_ ?_
    · exact bind (computedKey hd) fun _ => pure rfl
    · exact bind memberName fun _ => pure rfl
  · exact bind (computedKey hd) fun _ => pure rfl

theorem chain (hd : d.Beside R d') : R.Reads P i (fun _ => i) (Parse.chain d) (Parse.chain d') := by
  refine atWord fun b => either (fun hnew => ?_) (fun _ => primary hd) fun _ => repeatFrom (chainRound hd)
  exact construction hd fun s hs => .of_isWord (hs.trans hnew)

theorem postfixed (hd : d.Beside R d') :
    R.Reads P i (fun _ => i) (Parse.postfixed d) (Parse.postfixed d') := by
  refine bind (chain hd) fun e => peek (fun t => ?_) fun m hm => ?_
  · split
    · exact pure rfl
    · next hupdate =>
      have hplain (s : Input) (hs : tokenOf s.rest = t) : s.AtPlain :=
        .of_known hs hupdate (by decide) rfl
      refine afterNewline (.inr fun s hs => (hplain s hs).stop) fun _ => ite (fun _ => pure rfl) fun _ => ?_
      exact bind (advance hplain) fun _ => pure rfl
  · rw [updateOf?_of_end (R.ends hm)]
    exact pure rfl

theorem unary (hd : d.Beside R d') : R.Reads P i (fun _ => i) (Parse.unary d) (Parse.unary d') := by
  refine peek (fun t => ?_) fun m hm => ?_
  · split
    · next hupdate =>
      refine bind (advance fun s hs => .of_known hs hupdate (by decide) rfl) fun _ => ?_
      exact bind hd.unary fun _ => pure rfl
    · refine ite (fun hawait => ?_) fun _ => ?_
      · exact bind (advance fun s hs => .of_isWord (hs ▸ hawait)) fun _ => hd.unary
      · split
        · next hop =>
          refine bind (advance fun s hs => .of_known hs hop (by decide) rfl) fun _ => ?_
          exact bind hd.unary fun _ => pure rfl
        · exact postfixed hd
  · rw [updateOf?_of_end (R.ends hm), unaryOf?_of_end (R.ends hm)]
    exact postfixed hd

theorem operatorRound (hd : d.Beside R d') (least : Nat) (left : Expr) :
    R.Reads P i (Step.open i fun _ => i) (Parse.operatorRound d least left)
      (Parse.operatorRound d' least left) := by
  refine operator fun u t u' t' hsame => ?_
  rw [hsame]
  split
  · exact pure rfl
  · next hop =>
    refine ite (fun _ => pure rfl) fun _ => ?_
    refine bind (advance fun s hs => .of_known rfl (hs.trans hop) (infixOf?_bracket s.noIn) rfl) fun _ => ?_
    exact bind (hd.binary _) fun _ => pure rfl

theorem binary (hd : d.Beside R d') (least : Nat) :
    R.Reads P i (fun _ => i) (Parse.binary d least) (Parse.binary d' least) :=
  bind (unary hd) fun _ => repeatFrom (operatorRound hd least)

theorem conditional (hd : d.Beside R d') :
    R.Reads P i (fun _ => i) (Parse.conditional d) (Parse.conditional d') := by
  refine bind (binary hd 1) fun _ => bind (eatPlain (by decide)) fun _ => ite (fun _ => ?_) fun _ => pure rfl
  refine bind (withIn hd.assignment) fun _ => bind (expectPlain (by decide)) fun _ => ?_
  exact bind hd.assignment fun _ => pure rfl

/-- An arrow function behind its parameters. -/
theorem arrowBody (hd : d.Beside R d') (ps : List Param) :
    R.Reads P i (fun _ => i)
      (do
        Parse.expectMark "=>"
        let body ← if ← Parse.atMark "\x7b" then Body.block <$> Parse.block d
          else Body.value <$> d.assignment
        return Expr.function (.mk none ps body true))
      (do
        Parse.expectMark "=>"
        let body ← if ← Parse.atMark "\x7b" then Body.block <$> Parse.block d'
          else Body.value <$> d'.assignment
        return Expr.function (.mk none ps body true)) := by
  refine bind (expectPlain (by decide)) fun _ => atMark (R.apart (by decide)) fun _ => ?_
  exact either (fun _ => map (block hd) fun _ => rfl) (fun _ => map hd.assignment fun _ => rfl)
    fun _ => pure rfl

theorem arrow (hd : d.Beside R d') : R.Reads P i (fun _ => i) (Parse.arrow d) (Parse.arrow d') := by
  refine atMark (R.apart (by decide)) fun _ => ite (fun _ => ?_) fun _ => ?_
  · exact bind (params hd) fun _ => arrowBody hd _
  · exact bind expectName fun _ => afterPure (arrowBody hd _)

/-- An assignment is an arrow function, or a conditional expression with an operator behind it. -/
theorem assignment (hd : d.Beside R d') :
    R.Reads P i (fun _ => i) (Parse.assignment d) (Parse.assignment d') := by
  refine startsAsyncArrow fun tokens tokens' hasync => ?_
  change R.Reads _ i _ (if asyncArrow tokens = true then _ else _) (if asyncArrow tokens' = true then _ else _)
  rw [hasync]
  refine onlyIf (fun hahead => advance fun s hs => .of_isWord (hs hahead)) (startsArrow fun ahead ahead' hsame => ?_)
  rw [hsame]
  refine ite (fun _ => arrow hd) fun _ => ?_
  refine bind (conditional hd) fun e => peek (fun t => ?_) fun m hm => ?_
  · split
    · exact pure rfl
    · next hassign =>
      refine ite (fun _ => ?_) fun _ => failThen .invalidTarget
      refine bind (advance fun s hs => .of_known hs hassign (by decide) rfl) fun _ => ?_
      exact bind hd.assignment fun _ => pure rfl
  · rw [assignOf?_of_end (R.ends hm)]
    exact pure rfl

theorem bindingRound (hd : d.Beside R d') (hi : R.Closed i) (kind : DeclKind)
    (state : List (Target × Option Expr) × Target) :
    R.Reads P i (Step.open i fun _ => i) (Parse.bindingRound d kind state)
      (Parse.bindingRound d' kind state) := by
  refine bind (initializer hd) fun _ => onlyIf (fun _ => fail _) ?_
  exact ifMark (hi _) (.plain (by decide)) (bind target fun _ => pure rfl) (pure rfl)

theorem bindings (hd : d.Beside R d') (hi : R.Closed i) (kind : DeclKind) (first : Target) :
    R.Reads P i (fun _ => i) (Parse.bindings d kind first) (Parse.bindings d' kind first) :=
  repeatFrom (bindingRound hd hi kind)

theorem expressionStatement (hd : d.Beside R d') (hi : R.Closed i) :
    R.Reads P i (fun _ => i) (Parse.expressionStatement d) (Parse.expressionStatement d') :=
  bind (expression hd (hi _)) fun _ => bind (endStatement hi) fun _ => pure rfl

theorem parenthesized (hd : d.Beside R d') :
    R.Reads P i (fun _ => i) (Parse.parenthesized d) (Parse.parenthesized d') :=
  bind (expectMark (R.apart (by decide)) (.opening rfl)) fun _ => bind (expression hd R.inside) fun _ =>
    bind (expectMark R.inside (.closing (by decide))) fun _ => pure rfl

def behindHead (i : OpenBrackets) (loop? : Option Stmt) : OpenBrackets := if loop?.isSome then i else ")" :: i

/-- A loop over elements or keys behind its keyword. -/
theorem forEachLoop (hd : d.Beside R d') (hi : R.Closed i) (keys : Bool) (kind : DeclKind) (t : Target) :
    R.Reads P (")" :: i) (behindHead i)
      (do
        let subject ← Parse.expression d
        Parse.expectMark ")"
        let body ← d.statement
        return some (Stmt.forEach keys kind t subject body))
      (do
        let subject ← Parse.expression d'
        Parse.expectMark ")"
        let body ← d'.statement
        return some (Stmt.forEach keys kind t subject body)) :=
  bind (expression hd R.inside) fun _ => bind (expectMark R.inside (.closing (by decide))) fun _ =>
    bind (hd.statement hi) fun _ => pure rfl

theorem forEachTail? (hd : d.Beside R d') (hi : R.Closed i) (kind : DeclKind) (t : Target) :
    R.Reads P (")" :: i) (behindHead i) (Parse.forEachTail? d kind t) (Parse.forEachTail? d' kind t) := by
  refine ifWord (afterPure (forEachLoop hd hi false kind t)) (bind (eatWord _) fun isIn => afterPure ?_)
  cases isIn with
  | true => exact forEachLoop hd hi true kind t
  | false => exact pure rfl

theorem optionalBefore (hd : d.Beside R d') (hi : R.Closed i) (mark : String) :
    R.Reads P i (fun _ => i) (Parse.optionalBefore d mark) (Parse.optionalBefore d' mark) :=
  atMark (hi _) fun _ => ite (fun _ => pure rfl) fun _ => bind (expression hd (hi _)) fun _ => pure rfl

theorem forTail (hd : d.Beside R d') (hi : R.Closed i) (init : Option Stmt) :
    R.Reads P (")" :: i) (fun _ => i) (Parse.forTail d init) (Parse.forTail d' init) := by
  refine bind (expectPlain (by decide)) fun _ => bind (optionalBefore hd R.closed_cons _) fun _ => ?_
  refine bind (expectPlain (by decide)) fun _ => bind (optionalBefore hd R.closed_cons _) fun _ => ?_
  exact bind (expectMark R.inside (.closing (by decide))) fun _ => bind (hd.statement hi) fun _ => pure rfl

/-- The head of a loop is closed before its body begins. -/
theorem forStatement (hd : d.Beside R d') (hi : R.Closed i) (hP : ∀ s, P s → s.AtPlain) :
    R.Reads P i (fun _ => i) (Parse.forStatement d) (Parse.forStatement d') := by
  refine bind (advance hP) fun _ => bind (expectMark (R.apart (by decide)) (.opening rfl)) fun _ => ?_
  refine atMark R.inside fun _ => ite (fun _ => forTail hd hi _) fun _ => peekClosed R.closed_cons fun token => ?_
  split
  · next hkind =>
    refine bind (advance fun s hs => .of_known hs hkind (by decide) rfl) fun _ => ?_
    refine bind target fun t => bind (forEachTail? hd hi _ t) fun loop? => ?_
    cases loop? with
    | some loop => exact pure rfl
    | none =>
      refine bind (setNoIn _) fun _ => bind (bindings hd R.closed_cons _ t) fun _ => ?_
      exact bind (setNoIn _) fun _ => forTail hd hi _
  · refine bind (setNoIn _) fun _ => bind (expression hd R.inside) fun e => bind (setNoIn _) fun _ => ?_
    split
    · refine bind (forEachTail? hd hi _ _) fun loop? => ?_
      cases loop? with
      | some loop => exact pure rfl
      | none => exact forTail hd hi _
    · exact afterPure (forTail hd hi _)

/-- The part of a statement behind the handler. -/
theorem tryTail (hd : d.Beside R d') (body : List Stmt) (param : Option Target) (handler : Option (List Stmt)) :
    R.Reads P i (fun _ => i)
      (do
        let finalizer ← if ← Parse.eatWord "finally" then some <$> Parse.block d else Pure.pure none
        if handler.isNone && finalizer.isNone then Parse.fail .missingHandler
        return Stmt.attempt body param handler finalizer)
      (do
        let finalizer ← if ← Parse.eatWord "finally" then some <$> Parse.block d' else Pure.pure none
        if handler.isNone && finalizer.isNone then Parse.fail .missingHandler
        return Stmt.attempt body param handler finalizer) := by
  refine bind (eatWord _) fun _ => ?_
  refine either (n := fun _ => i) (fun _ => map (block hd) fun _ => rfl) (fun _ => pure rfl) ?_
  exact fun _ => onlyIf (fun _ => fail _) (pure rfl)

theorem tryStatement (hd : d.Beside R d') (hP : ∀ s, P s → s.AtPlain) :
    R.Reads P i (fun _ => i) (Parse.tryStatement d) (Parse.tryStatement d') := by
  refine bind (advance hP) fun _ => bind (block hd) fun body =>
    ifWord (ifMark (R.apart (by decide)) (.opening rfl) ?_ ?_) ?_
  · refine bind target fun t => bind (expectMark R.inside (.closing (by decide))) fun _ => afterPure ?_
    exact bind (block hd) fun _ => afterPure (tryTail hd _ _ _)
  · exact afterPure (bind (block hd) fun _ => afterPure (tryTail hd _ _ _))
  · exact afterPure (tryTail hd body none none)

theorem caseRound (hd : d.Beside R d') (hi : R.Closed i) (done : List Stmt) :
    R.Reads P i (Step.open i fun _ => i) (Parse.caseRound d done) (Parse.caseRound d' done) := by
  refine atWord fun _ => atWord fun _ => atMark (hi _) fun _ => ite (fun _ => pure rfl) fun _ => ?_
  exact atStop hi fun _ => onlyIf (fun _ => unexpected) (bind (hd.statement hi) fun _ => pure rfl)

theorem caseBody (hd : d.Beside R d') (hi : R.Closed i) :
    R.Reads P i (fun _ => i) (Parse.caseBody d) (Parse.caseBody d') := repeatFrom (caseRound hd hi)

/-- A case behind its test. -/
theorem caseTail (hd : d.Beside R d') (hi : R.Closed i) (test : Option Expr) (done : List Case)
    {j : Stmt → OpenBrackets} :
    R.Reads P i (Step.open i j)
      (do
        Parse.expectMark ":"
        let body ← Parse.caseBody d
        return (.more (.mk test body :: done) : Step (List Case) Stmt))
      (do
        Parse.expectMark ":"
        let body ← Parse.caseBody d'
        return (.more (.mk test body :: done) : Step (List Case) Stmt)) :=
  bind (expectPlain (by decide)) fun _ => bind (caseBody hd hi) fun _ => pure rfl

theorem switchRound (hd : d.Beside R d') (subject : Expr) (done : List Case) :
    R.Reads P ("\x7d" :: i) (Step.open ("\x7d" :: i) fun _ => i) (Parse.switchRound d subject done)
      (Parse.switchRound d' subject done) := by
  refine ifMark R.inside (.closing (by decide)) (pure rfl) (ifWord ?_ (bind (eatWord _) fun _ => ?_))
  · exact bind (map (expression hd R.inside) fun _ => rfl) fun _ => caseTail hd R.closed_cons _ _
  · exact orElse (fun _ => unexpected) (afterPure (caseTail hd R.closed_cons _ _))

theorem switchStatement (hd : d.Beside R d') (hP : ∀ s, P s → s.AtPlain) :
    R.Reads P i (fun _ => i) (Parse.switchStatement d) (Parse.switchStatement d') :=
  bind (advance hP) fun _ => bind (parenthesized hd) fun _ =>
    bind (expectMark (R.apart (by decide)) (.opening rfl)) fun _ => repeatFrom (switchRound hd _)

theorem returnValue (hd : d.Beside R d') (hi : R.Closed i) :
    R.Reads P i (fun _ => i) (Parse.returnValue d) (Parse.returnValue d') := by
  refine atMark (hi _) fun _ => atMark (hi _) fun _ => atStop hi fun _ => afterNewline (.inl hi) fun _ => ?_
  exact ite (fun _ => pure rfl) fun _ => bind (expression hd (hi _)) fun _ => pure rfl

/-- A statement that a word begins. -/
theorem wordStatement (hd : d.Beside R d') (hi : R.Closed i) (name : String) (hP : ∀ s, P s → s.AtPlain) :
    R.Reads P i (fun _ => i) (Parse.wordStatement d name) (Parse.wordStatement d' name) := by
  unfold Parse.wordStatement
  split
  · refine bind (advance hP) fun _ => bind (function hd) fun _ => ?_
    exact onlyIf (fun _ => fail _) (pure rfl)
  · exact bind (classDef hd hP) fun _ => pure rfl
  · refine bind (advance hP) fun _ => bind (parenthesized hd) fun _ => ?_
    refine bind (hd.statement hi) fun _ => bind (eatWord _) fun _ => ?_
    exact either (fun _ => map (hd.statement hi) fun _ => rfl) (fun _ => pure rfl) fun _ => pure rfl
  · refine bind (advance hP) fun _ => bind (parenthesized hd) fun _ => ?_
    exact bind (hd.statement hi) fun _ => pure rfl
  · refine bind (advance hP) fun _ => bind (hd.statement hi) fun _ => bind (eatWord _) fun _ => ?_
    refine orElse (fun _ => unexpected) (bind (parenthesized hd) fun _ => ?_)
    exact bind (eatPlain (by decide)) fun _ => pure rfl
  · exact forStatement hd hi hP
  · refine bind (advance hP) fun _ => bind (returnValue hd hi) fun _ => ?_
    exact bind (endStatement hi) fun _ => pure rfl
  · exact bind (advance hP) fun _ => bind (endStatement hi) fun _ => pure rfl
  · exact bind (advance hP) fun _ => bind (endStatement hi) fun _ => pure rfl
  · refine bind (advance hP) fun _ => bind (expression hd (hi _)) fun _ => ?_
    exact bind (endStatement hi) fun _ => pure rfl
  · exact tryStatement hd hP
  · exact switchStatement hd hP
  · exact fail _
  · exact fail _
  · exact expressionStatement hd hi

/-- The word or mark in front decides what kind of statement is read. -/
theorem statement (hd : d.Beside R d') (hi : R.Closed i) :
    R.Reads P i (fun _ => i) (Parse.statement d) (Parse.statement d') := by
  refine atMark (R.apart (by decide)) fun _ => ite (fun _ => bind (block hd) fun _ => pure rfl) fun _ =>
    ifPlain (by decide) (pure rfl) ?_
  refine peekClosed hi fun token => ?_
  split
  · next hkind =>
    refine bind (advance fun s hs => .of_known hs hkind (by decide) rfl) fun _ => ?_
    refine bind target fun t => bind (bindings hd hi _ t) fun _ => ?_
    exact bind (endStatement hi) fun _ => pure rfl
  · refine bind skipAsync fun _ => peekClosed hi fun token => ?_
    split
    · exact wordStatement hd hi _ fun s hs => .of_word hs
    · exact expressionStatement hd hi

end Pairing.Reads

-- Two levels side by side. What is read with little room for nesting is read in the same way with
-- more room, and it takes whole tokens, among which the brackets are paired.

structure Input.Kept (V : Input → Prop) : Prop where
  -- A condition on the tokens that are left which reading keeps, and which those of every source
  -- fulfil.
  behind : ∀ {s p rest}, V s → s.rest = p :: rest → p.token ≠ .stop → V (s.behind p rest)
  withNoIn : ∀ {s} b, V s → V { s with noIn := b }
  source : ∀ {source tokens}, tokenize source = .ok tokens → V { rest := tokens, size := tokens.length }

/-- No condition. -/
theorem Input.Kept.anywhere : Input.Kept Anywhere := ⟨fun _ _ _ => trivial, fun _ _ => trivial, fun _ => trivial⟩

/-- A token that brackets are known of is not the end. -/
theorem Brackets.ne_stop {i k : OpenBrackets} {p : Placed} (h : Brackets i [p] k) : p.token ≠ .stop := by
  cases h with
  | opening => exact nofun
  | closing => exact nofun
  | other _ hstop => exact hstop

/-- An input belongs together with itself. A reader may read where another one finds a fault. -/
def Pairing.same {V : Input → Prop} (hV : Input.Kept V) : Pairing where
  Belongs _ s s' := s' = s ∧ V s
  Ends _ _ := False
  Strict := False
  Fault _ _ := True
  Inner _ _ := False
  ends h := Pairing.ends_never h
  inside h := h
  next h := .inl (congrArg (Parse.tokenOf ·.rest) h.1)
  advance := by
    rintro i k s _ p rest ⟨rfl, hs⟩ hrest hbrackets
    exact ⟨p, rest, hrest, rfl, hV.behind hs hrest hbrackets.ne_stop⟩
  startsArrow h := congrArg (Parse.startsArrow ·.rest) h.1
  afterNewline := by
    rintro i s _ ⟨rfl, -⟩ -
    rfl
  operator h := congrArg (fun s : Input => Parse.infixOf? s.noIn (Parse.tokenOf s.rest)) h.1
  size h := ⟨h.1 ▸ Nat.le_refl _, False.elim⟩
  withNoIn h b := ⟨congrArg (fun s : Input => { s with noIn := b }) h.1, hV.withNoIn b h.2⟩
  restore := by
    rintro i j s _ t _ ⟨rfl, -⟩ ⟨rfl, ht⟩
    exact ⟨rfl, hV.withNoIn _ ht⟩
  fault h := h.elim
  inner _ _ _ h := h.elim

namespace Pairing.Reads

open Parse

variable {V : Input → Prop} {hV : Input.Kept V} {i : OpenBrackets} {α : Type} {j : α → OpenBrackets}
  {p q : Parse α}

/-- What one reader reads, the other one reads too, and it takes whole tokens. -/
theorem same (h : (Pairing.same hV).Reads Anywhere i j p q) {s t : Input} {x : α} (hs : V s)
    (hread : p s = .ok (x, t)) : q s = .ok (x, t) ∧ s.Passes i t (j x) := by
  have hsame := h s s ⟨rfl, hs⟩ trivial
  rw [hread] at hsame
  obtain ⟨_, hread', ⟨rfl, -⟩, hpasses⟩ := hsame
  exact ⟨hread', hpasses⟩

end Pairing.Reads

namespace Parse.Descent

variable {V : Input → Prop} {hV : Input.Kept V} {d d' : Descent}

/-- The tokens of a substitution are read alike where assignments are. -/
theorem substitution_same
    (hd : ∀ {P}, (Pairing.same hV).Reads P [] (fun _ => []) d.assignment d'.assignment) {code : String} {e : Expr}
    (h : substitution d code = .ok e) : substitution d' code = .ok e := by
  have hinner : (Pairing.same hV).Reads Anywhere [] (fun _ => [])
      (do
        let e ← Parse.expression d
        unless ← Parse.atStop do Parse.unexpected
        return e)
      (do
        let e ← Parse.expression d'
        unless ← Parse.atStop do Parse.unexpected
        return e) :=
    .bind (.sequenceOf hd id) fun _ => .atStop (fun _ => id) fun _ => .orElse (fun _ => .unexpected) (.pure rfl)
  unfold substitution at h ⊢
  split at h
  · cases h
  · next htokens =>
    dsimp only at h ⊢
    split at h
    · next hread =>
      cases h
      rw [(hinner.same (hV.source htokens) hread).1]
    · cases h

/-- Levels are side by side if their readers are, as the sources of substitutions are read with them. -/
theorem Beside.of_same (hstatement : ∀ {P i}, (Pairing.same hV).Reads P i (fun _ => i) d.statement d'.statement)
    (hassignment : ∀ {P i}, (Pairing.same hV).Reads P i (fun _ => i) d.assignment d'.assignment)
    (hunary : ∀ {P i}, (Pairing.same hV).Reads P i (fun _ => i) d.unary d'.unary)
    (hbinary : ∀ {P i} least, (Pairing.same hV).Reads P i (fun _ => i) (d.binary least) (d'.binary least))
    (hprimary : ∀ {P i}, (Pairing.same hV).Reads P i (fun _ => i) d.primary d'.primary) : d.Beside (.same hV) d' :=
  ⟨fun _ => hstatement, hassignment, hunary, hbinary, hprimary, substitution_same hassignment, False.elim⟩

/-- A level reads what each level below it reads, by induction on the lower one. -/
theorem beside {m n : Nat} (h : m ≤ n) : (descent m).Beside (.same hV) (descent n) := by
  induction m generalizing n with
  | zero =>
    have hfail {P : Input → Prop} {i : OpenBrackets} {α : Type} {q : Parse α} :
        (Pairing.same hV).Reads P i (fun _ => i) (Parse.fail .nestingTooDeep) q := .failLoosely id _
    exact .of_same hfail hfail hfail (fun _ => hfail) hfail
  | succ m ih =>
    cases n with
    | zero => cases h
    | succ n =>
      have hbelow := ih (Nat.le_of_succ_le_succ h)
      exact .of_same (.statement hbelow fun _ => id) (.assignment hbelow) (.unary hbelow)
        (fun least => .binary hbelow least) (.primary hbelow)

theorem beside_anywhere {m n : Nat} (h : m ≤ n) : (descent m).Beside (.same .anywhere) (descent n) := beside h

end Parse.Descent

end Snippet.Script
