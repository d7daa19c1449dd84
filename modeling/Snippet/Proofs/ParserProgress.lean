import Snippet.Proofs.TokenProgress

/-!
Reading a script ends. Every part that is read passes a token, every round of a repetition that goes on passes
one, and so no repetition goes on at the end of the tokens or runs out of rounds.
-/

namespace Snippet.Script

structure Parse.Descent.Passing (d : Parse.Descent) : Prop where
  statement : ∀ {room P}, Passes room P (fun _ => 1) d.statement
  assignment : ∀ {room P}, Passes room P (fun _ => 1) d.assignment
  unary : ∀ {room P}, Passes room P (fun _ => 1) d.unary
  binary : ∀ {room P} least, Passes room P (fun _ => 1) (d.binary least)
  primary : ∀ {room P}, Passes room P (fun _ => 1) d.primary

namespace Passes

open Parse

variable {room : Nat} {P : Input → Prop} {d : Descent}

theorem sequenceRound (hd : d.Passing) (done : List Expr) :
    Passes room P Step.cost (Parse.sequenceRound d done) :=
  ifMark (bind hd.assignment fun _ => pure rfl) (pure rfl)

theorem expression (hd : d.Passing) : Passes room P (fun _ => 1) (Parse.expression d) := by
  refine bind hd.assignment fun _ => atMark fun _ => ite (fun _ => ?_) fun _ => pure rfl
  exact bind (repeatFrom (sequenceRound hd)) fun _ => pure rfl

theorem blockRound (hd : d.Passing) (done : List Stmt) :
    Passes room P Step.cost (Parse.blockRound d done) :=
  ifMark (pure rfl) <| atStop fun _ => onlyIf (fun _ => unexpected) (bind hd.statement fun _ => pure rfl)

theorem block (hd : d.Passing) : Passes room P (fun _ => 1) (Parse.block d) :=
  bind (expectMark _) fun _ => repeatFrom (blockRound hd)

theorem initializer (hd : d.Passing) : Passes room P (fun _ => 0) (Parse.initializer d) :=
  ifMark (bind hd.assignment.free fun _ => pure rfl) (pure rfl)

theorem param (hd : d.Passing) : Passes room P (fun _ => 1) (Parse.param d) :=
  bind (eatMark _).free fun _ => bind target fun _ => bind (initializer hd) fun _ => pure rfl

theorem params (hd : d.Passing) : Passes room P (fun _ => 1) (Parse.params d) :=
  bind (expectMark _) fun _ => listUntil (param hd)

theorem method (hd : d.Passing) (name : Option String) :
    Passes room P (fun _ => 1) (Parse.method d name) :=
  bind (params hd) fun _ => bind (block hd).free fun _ => pure rfl

theorem function (hd : d.Passing) : Passes room P (fun _ => 1) (Parse.function d) := by
  refine peek fun t => ?_
  split
  · exact bind expectName fun _ => (method hd _).free
  · exact method hd _

/-- A member of a class behind its key. -/
theorem methodOf (hd : d.Passing) (parts : ClassParts) (isStatic : Bool) (key : String) :
    Passes room P (fun _ => 0) (do
      let f ← Parse.method d (some key)
      if isStatic then return { parts with statics := (key, f) :: parts.statics }
      if key == "constructor" then return { parts with constructor? := some f }
      return { parts with methods := (key, f) :: parts.methods }) :=
  bind (method hd _).free fun _ => ite (fun _ => pure rfl) fun _ => ite (fun _ => pure rfl) fun _ => pure rfl

/-- A member of a class takes at least one token. -/
theorem classMember (hd : d.Passing) (parts : ClassParts) :
    Passes room P (fun _ => 1) (Parse.classMember d parts) := by
  refine atWord fun isStatic => peekSecond fun _ => onlyIf (fun hstatic => ?_) (peek fun t => ?_)
  · refine (advance fun s hs => hasNext_of_isWord (hs.trans ?_)).free
    exact (Bool.and_eq_true_iff.mp hstatic).1
  · dsimp only
    split
    · exact bind (advance fun s hs => hasNext_of_eq hs nofun) fun _ => afterPure (methodOf hd _ _ _)
    · exact bind (advance fun s hs => hasNext_of_eq hs nofun) fun _ => afterPure (methodOf hd _ _ _)
    · exact bind (j := fun _ => 1) unexpected fun _ => methodOf hd _ _ _

theorem classRound (hd : d.Passing) (name : String) (parts : ClassParts) :
    Passes room P Step.cost (Parse.classRound d name parts) :=
  ifMark (pure rfl) <| ifMark (pure rfl) <| bind (classMember hd parts) fun _ => pure rfl

/-- A class behind its keyword. -/
theorem classDef (hd : d.Passing) (hP : ∀ s, P s → s.HasNext) :
    Passes room P (fun _ => 1) (Parse.classDef d) := by
  refine bind (advance hP) fun _ => bind expectName.free fun _ => atWord fun _ => ?_
  refine onlyIf (fun _ => fail nofun) (bind (expectMark _).free fun _ => ?_)
  exact repeatFrom (classRound hd _)

theorem item (hd : d.Passing) : Passes room P (fun _ => 1) (Parse.item d) :=
  bind (eatMark _).free fun _ => bind hd.assignment fun _ => pure rfl

theorem arguments (hd : d.Passing) : Passes room P (fun _ => 1) (Parse.arguments d) :=
  bind (expectMark _) fun _ => withIn (listUntil (item hd))

theorem arrayItems (hd : d.Passing) : Passes room P (fun _ => 0) (Parse.arrayItems d) :=
  listWithHoles (item hd)

/-- A key takes at least one token. -/
theorem memberKey (hd : d.Passing) : Passes room P (fun _ => 1) (Parse.memberKey d) := by
  refine peek fun t => ?_
  split
  · exact bind (advance fun s hs => hasNext_of_eq hs nofun) fun _ => pure rfl
  · exact bind (advance fun s hs => hasNext_of_eq hs nofun) fun _ => pure rfl
  · exact bind (advance fun s hs => hasNext_of_eq hs nofun) fun _ => pure rfl
  · refine bind (advance fun s hs => hasNext_of_eq hs nofun) fun _ => bind hd.assignment.free fun _ => ?_
    exact bind (expectMark _).free fun _ => pure rfl
  · exact unexpected

/-- A member of an object takes at least one token. -/
theorem member (hd : d.Passing) : Passes room P (fun _ => 1) (Parse.member d) := by
  refine ifMark (bind hd.assignment.free fun _ => pure rfl) <| atWord fun b => peekSecond fun _ => ?_
  refine onlyIf (fun hasync => ?_) (bind (memberKey hd) fun key => atMark fun _ => ite (fun _ => ?_) fun _ => ?_)
  · refine (advance fun s hs => hasNext_of_isWord (hs.trans ?_)).free
    exact (Bool.and_eq_true_iff.mp hasync).1
  · exact bind (method hd _).free fun _ => pure rfl
  · refine ifMark (bind hd.assignment.free fun _ => pure rfl) ?_
    split
    · exact pure rfl
    · exact unexpected

/-- A substitution is read from tokens of its own, up to their end. -/
theorem piece (hd : d.Passing) (c : Chunk) : Passes room P (fun _ => 0) (Parse.piece d c) := by
  intro outer houter _ _
  cases c with
  | text s => exact Input.LeadsTo.refl houter
  | code s =>
    have hinner {room : Nat} : Passes room Anywhere (fun _ => 1) (do
        let e ← Parse.expression d
        unless ← Parse.atStop do Parse.unexpected
        return e) :=
      bind (expression hd) fun _ => atStop fun _ => orElse (fun _ => unexpected) (pure rfl)
    have htokens := comesTo_tokenize s.toList
    unfold Parse.piece
    dsimp only
    split
    · rename_i e hr
      rw [hr] at htokens
      exact htokens
    · rename_i tokens hr
      rw [hr] at htokens
      have hread := hinner { rest := tokens, size := tokens.length } ⟨htokens, Nat.le_refl _⟩
        (Nat.le_refl _) trivial
      split
      · exact Input.LeadsTo.refl houter
      · rename_i e hr
        rw [hr] at hread
        exact hread

theorem pieces (hd : d.Passing) (chunks : List Chunk) :
    Passes room P (fun _ => 0) (chunks.mapM (Parse.piece d)) := by
  induction chunks generalizing P with
  | nil =>
    rw [List.mapM_nil]
    exact pure rfl
  | cons c rest ih =>
    rw [List.mapM_cons]
    exact bind (piece hd c) fun _ => bind ih fun _ => pure rfl

theorem skipAsync : Passes room P (fun _ => 0) Parse.skipAsync := by
  refine atWord fun b => peekSecond fun _ => ite (fun hasync => ?_) fun _ => pure rfl
  refine (advance fun s hs => hasNext_of_isWord (hs.trans ?_)).free
  exact (Bool.and_eq_true_iff.mp hasync).1

/-- A word takes at least itself. -/
theorem wordExpr (hd : d.Passing) (name : String) (hP : ∀ s, P s → s.HasNext) :
    Passes room P (fun _ => 1) (Parse.wordExpr d name) := by
  unfold Parse.wordExpr
  split
  · exact bind (advance hP) fun _ => pure rfl
  · exact bind (advance hP) fun _ => pure rfl
  · exact bind (advance hP) fun _ => pure rfl
  · exact bind (advance hP) fun _ => pure rfl
  · exact bind (advance hP) fun _ => pure rfl
  · exact bind (advance hP) fun _ => bind (function hd).free fun _ => pure rfl
  · exact bind (classDef hd hP) fun _ => pure rfl
  · exact fail nofun
  · exact bind expectName fun _ => pure rfl

/-- An operand takes at least one token. -/
theorem primary (hd : d.Passing) : Passes room P (fun _ => 1) (Parse.primary d) := by
  refine bind skipAsync fun _ => peek fun t => ?_
  have hnext {token : Token} (htoken : token ≠ .stop) (s : Input) (hs : tokenOf s.rest = token) :
      s.HasNext := hasNext_of_eq hs htoken
  split
  · exact bind (advance (hnext nofun)) fun _ => pure rfl
  · exact bind (advance (hnext nofun)) fun _ => pure rfl
  · exact bind (advance (hnext nofun)) fun _ => bind (pieces hd _) fun _ => pure rfl
  · refine bind (advance (hnext nofun)) fun _ => bind (withIn (expression hd)).free fun _ => ?_
    exact bind (expectMark _).free fun _ => pure rfl
  · exact bind (advance (hnext nofun)) fun _ => bind (arrayItems hd) fun _ => pure rfl
  · exact bind (advance (hnext nofun)) fun _ => bind (listUntil (member hd)) fun _ => pure rfl
  · exact wordExpr hd _ (hnext nofun)
  · exact unexpected

theorem computedKey (hd : d.Passing) : Passes room P (fun _ => 1) (Parse.computedKey d) :=
  bind (expression hd) fun _ => bind (expectMark _).free fun _ => pure rfl

theorem constructorRound (hd : d.Passing) (e : Expr) :
    Passes room P Step.cost (Parse.constructorRound d e) :=
  ifMark (bind memberName.free fun _ => pure rfl) <|
    ifMark (bind (computedKey hd).free fun _ => pure rfl) (pure rfl)

theorem construction (hd : d.Passing) (hP : ∀ s, P s → s.HasNext) :
    Passes room P (fun _ => 1) (Parse.construction d) := by
  refine bind (advance hP) fun _ => bind hd.primary.free fun callee => ?_
  refine bind (repeatFrom (constructorRound hd)) fun _ => atMark fun _ => ?_
  exact either (fun _ => (arguments hd).free) (fun _ => pure rfl) fun _ => pure rfl

theorem chainRound (hd : d.Passing) (e : Expr) : Passes room P Step.cost (Parse.chainRound d e) := by
  refine ifMark (bind memberName.free fun _ => pure rfl) <| ifMark (atMark fun _ => ?_) <| ifMark ?_ <|
    atMark fun _ => ite (fun _ => bind (arguments hd) fun _ => pure rfl) fun _ => pure rfl
  · refine ite (fun _ => bind (arguments hd).free fun _ => pure rfl) fun _ => ifMark ?_ ?_
    · exact bind (computedKey hd).free fun _ => pure rfl
    · exact bind memberName.free fun _ => pure rfl
  · exact bind (computedKey hd).free fun _ => pure rfl

theorem chain (hd : d.Passing) : Passes room P (fun _ => 1) (Parse.chain d) := by
  refine atWord fun b => either (fun hnew => ?_) (fun _ => primary hd) fun _ => repeatFrom (chainRound hd)
  exact construction hd fun s hs => hasNext_of_isWord (hs.trans hnew)

theorem hasNext_of_updateOf {s : Input} {b : Bool} (h : updateOf? (tokenOf s.rest) = some b) :
    s.HasNext := fun hstop => by
  rw [hstop] at h
  cases h

theorem postfixed (hd : d.Passing) : Passes room P (fun _ => 1) (Parse.postfixed d) := by
  refine bind (chain hd) fun _ => peek fun t => ?_
  split
  · exact pure rfl
  · next hupdate =>
    refine afterNewline fun _ => ite (fun _ => pure rfl) fun _ => ?_
    refine bind (advance fun s hs => hasNext_of_updateOf (hs ▸ hupdate)).free fun _ => pure rfl

theorem unary (hd : d.Passing) : Passes room P (fun _ => 1) (Parse.unary d) := by
  refine peek fun t => ?_
  split
  · next hupdate =>
    refine bind (advance fun s hs => hasNext_of_updateOf (hs ▸ hupdate)) fun _ => ?_
    exact bind hd.unary.free fun _ => pure rfl
  · refine ite (fun hawait => ?_) fun _ => ?_
    · exact bind (advance fun s hs => hasNext_of_isWord (hs ▸ hawait)) fun _ => hd.unary.free
    · split
      · next hop =>
        refine bind (advance fun s hs => hasNext_of_eq hs fun hstop => ?_) fun _ => ?_
        · rw [hstop] at hop
          cases hop
        · exact bind hd.unary.free fun _ => pure rfl
      · exact postfixed hd

/-- A round that goes on takes its operator. -/
theorem operatorRound (hd : d.Passing) (least : Nat) (left : Expr) :
    Passes room P Step.cost (Parse.operatorRound d least left) := by
  refine get fun s => peek fun t => ?_
  split
  · exact pure rfl
  · next hop =>
    refine ite (fun _ => pure rfl) fun _ => ?_
    refine bind (advance fun s hs => hasNext_of_eq hs fun hstop => ?_) fun _ => ?_
    · rw [hstop] at hop
      cases hop
    · exact bind (hd.binary _).free fun _ => pure rfl

theorem binary (hd : d.Passing) (least : Nat) : Passes room P (fun _ => 1) (Parse.binary d least) :=
  bind (unary hd) fun _ => repeatFrom (operatorRound hd least)

theorem conditional (hd : d.Passing) : Passes room P (fun _ => 1) (Parse.conditional d) := by
  refine bind (binary hd 1) fun _ => ifMark ?_ (pure rfl)
  refine bind (withIn hd.assignment).free fun _ => bind (expectMark _).free fun _ => ?_
  exact bind hd.assignment.free fun _ => pure rfl

/-- An arrow function behind its parameters. -/
theorem arrowBody (hd : d.Passing) (ps : List Param) :
    Passes room P (fun _ => 0) (do
      Parse.expectMark "=>"
      let body ← if ← Parse.atMark "\x7b" then Body.block <$> Parse.block d
        else Body.value <$> d.assignment
      return Expr.function (.mk none ps body true)) := by
  refine bind (expectMark _).free fun _ => atMark fun _ => ?_
  refine either (j := fun _ => 0) (fun _ => map (block hd).free ?_) (fun _ => map hd.assignment.free ?_)
    fun _ => pure rfl
  · exact fun _ => Nat.le_refl _
  · exact fun _ => Nat.le_refl _

theorem arrow (hd : d.Passing) : Passes room P (fun _ => 1) (Parse.arrow d) := by
  refine atMark fun _ => ite (fun _ => ?_) fun _ => ?_
  · exact bind (params hd) fun _ => arrowBody hd _
  · exact bind expectName fun _ => afterPure (arrowBody hd _)

/-- An assignment takes at least one token. -/
theorem assignment (hd : d.Passing) : Passes room P (fun _ => 1) (Parse.assignment d) := by
  refine ahead fun tokens => onlyIf (fun hasync => ?_) (ahead fun tokens => ?_)
  · have hword := (Bool.and_eq_true_iff.mp (Bool.and_eq_true_iff.mp hasync).1).1
    exact (advance fun s hs => hasNext_of_isWord (hs ▸ hword)).free
  refine ite (fun _ => (arrow hd).anywhere) fun _ => ?_
  refine bind (conditional hd) fun e => peek fun t => ?_
  split
  · exact pure rfl
  · next hassign =>
    refine ite (fun _ => bind (advance fun s hs => hasNext_of_eq hs fun hstop => ?_).free fun _ => ?_)
      fun _ => failThen (e := .invalidTarget) nofun
    · rw [hstop] at hassign
      cases hassign
    · exact bind hd.assignment.free fun _ => pure rfl

theorem bindingRound (hd : d.Passing) (kind : DeclKind) (state : List (Target × Option Expr) × Target) :
    Passes room P Step.cost (Parse.bindingRound d kind state) := by
  refine bind (initializer hd) fun _ => onlyIf (fun _ => fail nofun) ?_
  exact ifMark (bind target.free fun _ => pure rfl) (pure rfl)

theorem bindings (hd : d.Passing) (kind : DeclKind) (first : Target) :
    Passes room P (fun _ => 0) (Parse.bindings d kind first) := repeatFrom (bindingRound hd kind)

theorem expressionStatement (hd : d.Passing) :
    Passes room P (fun _ => 1) (Parse.expressionStatement d) :=
  bind (expression hd) fun _ => bind endStatement fun _ => pure rfl

theorem parenthesized (hd : d.Passing) : Passes room P (fun _ => 1) (Parse.parenthesized d) :=
  bind (expectMark _) fun _ => bind (expression hd).free fun _ => bind (expectMark _).free fun _ => pure rfl

/-- A loop over elements or keys behind its keyword. -/
theorem forEachLoop (hd : d.Passing) (keys : Bool) (kind : DeclKind) (t : Target) :
    Passes room P (fun _ => 0) (do
      let subject ← Parse.expression d
      Parse.expectMark ")"
      let body ← d.statement
      return some (Stmt.forEach keys kind t subject body)) := by
  refine bind (expression hd).free fun _ => bind (expectMark _).free fun _ => ?_
  exact bind hd.statement.free fun _ => pure rfl

theorem forEachTail? (hd : d.Passing) (kind : DeclKind) (t : Target) :
    Passes room P (fun _ => 0) (Parse.forEachTail? d kind t) := by
  refine ifWord (afterPure (forEachLoop hd false kind t)) (bind (eatWord _).free fun isIn => afterPure ?_)
  cases isIn with
  | true => exact forEachLoop hd true kind t
  | false => exact pure rfl

theorem optionalBefore (hd : d.Passing) (mark : String) :
    Passes room P (fun _ => 0) (Parse.optionalBefore d mark) :=
  atMark fun _ => ite (fun _ => pure rfl) fun _ => bind (expression hd).free fun _ => pure rfl

theorem forTail (hd : d.Passing) (init : Option Stmt) :
    Passes room P (fun _ => 1) (Parse.forTail d init) := by
  refine bind (expectMark _) fun _ => bind (optionalBefore hd _) fun _ => ?_
  refine bind (expectMark _).free fun _ => bind (optionalBefore hd _) fun _ => ?_
  exact bind (expectMark _).free fun _ => bind hd.statement.free fun _ => pure rfl

/-- A loop takes its word, its head and its body. -/
theorem forStatement (hd : d.Passing) (hP : ∀ s, P s → s.HasNext) :
    Passes room P (fun _ => 1) (Parse.forStatement d) := by
  refine bind (advance hP) fun _ => bind (expectMark _).free fun _ => atMark fun _ => ?_
  refine ite (fun _ => (forTail hd _).free) fun _ => peek fun token => ?_
  split
  · next hkind =>
    refine bind (advance fun s hs => hasNext_of_eq hs fun hstop => ?_).free fun _ => ?_
    · rw [hstop] at hkind
      cases hkind
    refine bind target.free fun t => bind (forEachTail? hd _ t) fun loop? => ?_
    split
    · exact pure rfl
    · refine bind (setNoIn _) fun _ => bind (bindings hd _ t) fun _ => ?_
      exact bind (setNoIn _) fun _ => (forTail hd _).free
  · refine bind (setNoIn _) fun _ => bind (expression hd).free fun e => bind (setNoIn _) fun _ => ?_
    split
    · refine bind (forEachTail? hd _ _) fun loop? => ?_
      cases loop? with
      | some s => exact pure rfl
      | none => exact (forTail hd _).free
    · exact afterPure (forTail hd _).free

/-- The part of a statement behind the handler. -/
theorem tryTail (hd : d.Passing) (body : List Stmt) (param : Option Target) (handler : Option (List Stmt)) :
    Passes room P (fun _ => 0) (do
      let finalizer ← if ← Parse.eatWord "finally" then some <$> Parse.block d else Pure.pure none
      if handler.isNone && finalizer.isNone then Parse.fail .missingHandler
      return Stmt.attempt body param handler finalizer) := by
  refine bind (eatWord _).free fun _ => ?_
  refine either (j := fun _ => 0) (fun _ => map (block hd).free fun _ => Nat.le_refl _) (fun _ => pure rfl) ?_
  exact fun _ => onlyIf (fun _ => fail nofun) (pure rfl)

theorem tryStatement (hd : d.Passing) (hP : ∀ s, P s → s.HasNext) :
    Passes room P (fun _ => 1) (Parse.tryStatement d) := by
  refine bind (advance hP) fun _ => bind (block hd).free fun body => ifWord (ifMark ?_ ?_) ?_
  · refine bind target.free fun t => bind (expectMark _).free fun _ => afterPure ?_
    exact bind (block hd).free fun _ => afterPure (tryTail hd _ _ _)
  · exact afterPure (bind (block hd).free fun _ => afterPure (tryTail hd _ _ _))
  · exact afterPure (tryTail hd body none none)

theorem caseRound (hd : d.Passing) (done : List Stmt) :
    Passes room P Step.cost (Parse.caseRound d done) := by
  refine atWord fun _ => atWord fun _ => atMark fun _ => ite (fun _ => pure rfl) fun _ => atStop fun _ => ?_
  exact onlyIf (fun _ => unexpected) (bind hd.statement fun _ => pure rfl)

theorem caseBody (hd : d.Passing) : Passes room P (fun _ => 0) (Parse.caseBody d) :=
  repeatFrom (caseRound hd)

/-- A case behind its test, of which the colon is a token. -/
theorem caseTail (hd : d.Passing) (test : Option Expr) (done : List Case) :
    Passes room P (fun _ => 1) (do
      Parse.expectMark ":"
      let body ← Parse.caseBody d
      return (.more (.mk test body :: done) : Step (List Case) Stmt)) :=
  bind (expectMark _) fun _ => bind (caseBody hd) fun _ => pure rfl

theorem switchRound (hd : d.Passing) (subject : Expr) (done : List Case) :
    Passes room P Step.cost (Parse.switchRound d subject done) := by
  have hcost (r : Step (List Case) Stmt) : r.cost ≤ 1 := by
    cases r
    · exact Nat.le_refl _
    · exact Nat.zero_le _
  refine ifMark (pure rfl) (ifWord ?_ (bind (eatWord _).free fun _ => ?_))
  · refine bind (map (j := fun _ => 0) (k := fun _ => 0) (expression hd).free fun _ => Nat.le_refl _) ?_
    exact fun _ => (caseTail hd _ _).fewer fun r => Nat.le_trans (Nat.sub_le r.cost 1) (hcost r)
  · exact orElse (fun _ => unexpected) (afterPure ((caseTail hd _ _).fewer hcost))

theorem switchStatement (hd : d.Passing) (hP : ∀ s, P s → s.HasNext) :
    Passes room P (fun _ => 1) (Parse.switchStatement d) :=
  bind (advance hP) fun _ => bind (parenthesized hd).free fun _ => bind (expectMark _).free fun _ =>
    repeatFrom (switchRound hd _)

theorem returnValue (hd : d.Passing) : Passes room P (fun _ => 0) (Parse.returnValue d) := by
  refine atMark fun _ => atMark fun _ => atStop fun _ => afterNewline fun _ => ?_
  exact ite (fun _ => pure rfl) fun _ => bind (expression hd).free fun _ => pure rfl

/-- A statement that a word begins. -/
theorem wordStatement (hd : d.Passing) (name : String) (hP : ∀ s, P s → s.HasNext) :
    Passes room P (fun _ => 1) (Parse.wordStatement d name) := by
  unfold Parse.wordStatement
  split
  · refine bind (advance hP) fun _ => bind (function hd).free fun _ => ?_
    exact onlyIf (fun _ => fail nofun) (pure rfl)
  · exact bind (classDef hd hP) fun _ => pure rfl
  · refine bind (advance hP) fun _ => bind (parenthesized hd).free fun _ => ?_
    refine bind hd.statement.free fun _ => bind (eatWord _).free fun _ => ?_
    refine either (j := fun _ => 0) (fun _ => map hd.statement.free fun _ => Nat.le_refl _) ?_ ?_
    · exact fun _ => pure rfl
    · exact fun _ => pure rfl
  · refine bind (advance hP) fun _ => bind (parenthesized hd).free fun _ => ?_
    exact bind hd.statement.free fun _ => pure rfl
  · refine bind (advance hP) fun _ => bind hd.statement.free fun _ => bind (eatWord _).free fun _ => ?_
    refine orElse (fun _ => unexpected) (bind (parenthesized hd).free fun _ => ?_)
    exact bind (eatMark _).free fun _ => pure rfl
  · exact forStatement hd hP
  · refine bind (advance hP) fun _ => bind (returnValue hd) fun _ => ?_
    exact bind endStatement fun _ => pure rfl
  · exact bind (advance hP) fun _ => bind endStatement fun _ => pure rfl
  · exact bind (advance hP) fun _ => bind endStatement fun _ => pure rfl
  · refine bind (advance hP) fun _ => bind (expression hd).free fun _ => ?_
    exact bind endStatement fun _ => pure rfl
  · exact tryStatement hd hP
  · exact switchStatement hd hP
  · exact fail nofun
  · exact fail nofun
  · exact expressionStatement hd

/-- A statement takes at least one token. -/
theorem statement (hd : d.Passing) : Passes room P (fun _ => 1) (Parse.statement d) := by
  refine atMark fun _ => ite (fun _ => bind (block hd) fun _ => pure rfl) fun _ => ifMark (pure rfl) ?_
  refine peek fun token => ?_
  split
  · next hkind =>
    refine bind (advance fun s hs => hasNext_of_eq hs fun hstop => ?_) fun _ => ?_
    · rw [hstop] at hkind
      cases hkind
    refine bind target.free fun t => bind (bindings hd _ t) fun _ => ?_
    exact bind endStatement fun _ => pure rfl
  · refine bind skipAsync fun _ => peek fun token => ?_
    split
    · exact wordStatement hd _ fun s hs => hasNext_of_eq hs nofun
    · exact expressionStatement hd

end Passes

/-- At every level each part that is read passes a token, by induction on the levels. -/
theorem Parse.Descent.passing (n : Nat) : (Parse.descent n).Passing := by
  induction n with
  | zero => exact ⟨.fail nofun, .fail nofun, .fail nofun, fun _ => .fail nofun, .fail nofun⟩
  | succ n ih => exact ⟨.statement ih, .assignment ih, .unary ih, fun least => .binary ih least, .primary ih⟩

/-- A repetition of which each round that goes on passes a token. No round goes on at the end of the tokens,
and the repetition ends by itself. -/
structure RoundsEnd (room : Nat) {α β : Type} (step : α → Parse (Parse.Step α β)) : Prop where
  passes : ∀ a, Passes room Anywhere Parse.Step.cost (step a)
  stops : ∀ a b (s t : Input), s.Sound → s.rest.length ≤ room → ¬ s.HasNext → step a s ≠ .ok (.more b, t)
  ends : ∀ a, Passes room Anywhere (fun _ => 0) (Parse.repeatFrom a step)

/-- In front of the end no token can be passed without passing the end. -/
theorem Input.LeadsTo.hasNext {s t : Input} (hs : s.Sound) (h : s.LeadsTo 1 t) : s.HasNext := by
  intro hstop
  have hleft := h.length_le hs
  have hpos := h.sound.ends.length_pos
  obtain ⟨before, line, heq, hbefore⟩ := hs.ends
  cases before with
  | nil =>
    rw [heq] at hleft
    exact absurd hleft (Nat.not_le_of_gt (Nat.lt_add_of_pos_left hpos))
  | cons p before =>
    rw [heq] at hstop
    exact hbefore p List.mem_cons_self hstop

theorem RoundsEnd.of_passes {room : Nat} {α β : Type} {step : α → Parse (Parse.Step α β)}
    (h : ∀ a, Passes room Anywhere Parse.Step.cost (step a)) : RoundsEnd room step := by
  refine ⟨h, fun a b s t hs hle hstop hstep => hstop ?_, fun a => .repeatFrom h⟩
  have hcomes := h a s hs hle trivial
  rw [hstep] at hcomes
  exact Input.LeadsTo.hasNext hs hcomes

structure LexerAdvances : Prop where
  trivia : RoundsAdvance Here.LeavesOf fun n (_ : Unit) h => skipTrivia n h
  strings : ∀ quote, RoundsAdvance IsToken fun n done h => lexStringFrom quote done n h
  substitutions : RoundsAdvance LeavesOf fun n (state : Nat × List Char) h =>
    lexCodeFrom state.1 state.2 n h
  templates : RoundsAdvance IsToken fun n (state : List Char × List Chunk) h =>
    lexTemplateFrom state.1 state.2 n h
  tokens : RoundsAdvance (fun _ _ => True) fun n done h => tokensFrom done n h

structure Parse.Descent.Advances (d : Parse.Descent) : Prop where
  statement : ∀ room, Passes room Anywhere (fun _ => 1) (Parse.statement d)
  expression : ∀ room, Passes room Anywhere (fun _ => 1) (Parse.expression d)
  assignment : ∀ room, Passes room Anywhere (fun _ => 1) (Parse.assignment d)
  target : ∀ room, Passes room Anywhere (fun _ => 1) Parse.target
  nestedTarget : ∀ room, Passes room Anywhere (fun _ => 1) (Parse.targetWithin room)
  param : ∀ room, Passes room Anywhere (fun _ => 1) (Parse.param d)
  classMember : ∀ room parts, Passes room Anywhere (fun _ => 1) (Parse.classMember d parts)
  item : ∀ room, Passes room Anywhere (fun _ => 1) (Parse.item d)
  member : ∀ room, Passes room Anywhere (fun _ => 1) (Parse.member d)
  lists : ∀ room (α : Type) close (part : Parse α), Passes room Anywhere (fun _ => 1) part →
    RoundsEnd room (Parse.listRound close part)
  listsWithHoles : ∀ room (α : Type) close hole (part : Parse α), Passes room Anywhere (fun _ => 1) part →
    RoundsEnd room (Parse.holesRound close hole part)
  sequence : ∀ room, RoundsEnd room (Parse.sequenceRound d)
  block : ∀ room, RoundsEnd room (Parse.blockRound d)
  classDef : ∀ room name, RoundsEnd room (Parse.classRound d name)
  construction : ∀ room, RoundsEnd room (Parse.constructorRound d)
  chain : ∀ room, RoundsEnd room (Parse.chainRound d)
  binary : ∀ room least, RoundsEnd room (Parse.operatorRound d least)
  bindings : ∀ room kind, RoundsEnd room (Parse.bindingRound d kind)
  caseBody : ∀ room, RoundsEnd room (Parse.caseRound d)
  switchStatement : ∀ room subject, RoundsEnd room (Parse.switchRound d subject)

/-- Every repetition in the parser takes a token in each of its rounds. -/
theorem Parse.Descent.Passing.advances {d : Parse.Descent} (hd : d.Passing) : d.Advances where
  statement _ := .statement hd
  expression _ := .expression hd
  assignment _ := .assignment hd
  target _ := .target
  nestedTarget _ := .targetWithin (Nat.le_refl _)
  param _ := .param hd
  classMember _ parts := .classMember hd parts
  item _ := .item hd
  member _ := .member hd
  lists _ _ _ _ hpart := .of_passes (.listRound hpart)
  listsWithHoles _ _ _ _ _ hpart := .of_passes (.holesRound hpart)
  sequence _ := .of_passes (.sequenceRound hd)
  block _ := .of_passes (.blockRound hd)
  classDef _ name := .of_passes (.classRound hd name)
  construction _ := .of_passes (.constructorRound hd)
  chain _ := .of_passes (.chainRound hd)
  binary _ least := .of_passes (.operatorRound hd least)
  bindings _ kind := .of_passes (.bindingRound hd kind)
  caseBody _ := .of_passes (.caseRound hd)
  switchStatement _ subject := .of_passes (.switchRound hd subject)

theorem programRound_passes {room : Nat} {P : Input → Prop} (done : List Stmt) :
    Passes room P Parse.Step.cost (Parse.programRound done) :=
  .atStop fun _ => .ite (fun _ => .pure rfl) fun _ =>
    .bind (Parse.Descent.passing _).statement fun _ => .pure rfl

/-- A repetition that is done ends with a round that is done; by induction on the rounds. -/
theorem iterate_done {α β : Type} {step : α → Parse (Parse.Step α β)} {n : Nat} {a : α} {s : Input}
    {b : β} {t : Input} (h : Parse.iterate step n a s = .ok (b, t)) :
    ∃ a' s', step a' s' = .ok (.done b, t) := by
  induction n generalizing a s with
  | zero => cases h
  | succ n ih =>
    obtain ⟨r, u, hstep, hrest⟩ := Parse.of_parse_bind h
    cases r with
    | more a' => exact ih hrest
    | done b' =>
      cases hrest
      exact ⟨a, s, hstep⟩

/-- The script is over only where the end comes next. -/
theorem programRound_done {done statements : List Stmt} {s t : Input}
    (h : Parse.programRound done s = .ok (.done statements, t)) : Parse.tokenOf t.rest = .stop := by
  unfold Parse.programRound at h
  rw [Parse.parse_bind _ s (Parse.atStop_eq s)] at h
  cases hstop : (Parse.tokenOf s.rest).isStop with
  | true =>
    rw [hstop] at h
    cases h
    exact Token.isStop_eq_true.mp hstop
  | false =>
    rw [hstop, if_neg Bool.false_ne_true] at h
    obtain ⟨statement, u, -, hmore⟩ := Parse.of_parse_bind h
    cases hmore

/-- Tokens of which the end comes next are the end alone. -/
theorem EndAtStop.tokens_eq {tokens : List Placed} (h : EndAtStop tokens)
    (hstop : Parse.tokenOf tokens = .stop) : tokens.map Placed.token = [.stop] := by
  obtain ⟨before, line, rfl, hbefore⟩ := h
  cases before with
  | nil => rfl
  | cons p before => exact absurd hstop (hbefore p List.mem_cons_self)

def ReadToTheEnd (source : String) (statements : List Stmt) : Prop :=
  ∃ tokens t, tokenize source.toList = .ok tokens ∧
    Parse.program { rest := tokens, size := tokens.length } = .ok (statements, t) ∧
    t.size = tokens.length ∧ t.position + 1 = tokens.length ∧ t.rest.map Placed.token = [.stop]

/-- A text is read to its end, or reading it comes to a fault of the text. -/
theorem comesTo_parseProgram (source : String) :
    ComesTo (ReadToTheEnd source) (parseProgram source) := by
  have htokens := comesTo_tokenize source.toList
  unfold parseProgram
  cases hlex : tokenize source.toList with
  | error e =>
    rw [hlex] at htokens
    exact htokens
  | ok tokens =>
    rw [hlex] at htokens
    have hread : Passes tokens.length Anywhere (fun _ => 0) Parse.program := .repeatFrom programRound_passes
    have hcomes := hread { rest := tokens, size := tokens.length } ⟨htokens, Nat.le_refl _⟩
      (Nat.le_refl _) trivial
    dsimp only
    cases hresult : Parse.program { rest := tokens, size := tokens.length } with
    | error e =>
      rw [hresult] at hcomes
      exact hcomes
    | ok x =>
      rw [hresult] at hcomes
      obtain ⟨statements, t⟩ := x
      -- Reading the program ended with a round that came to the end.
      obtain ⟨done, s, hround⟩ := iterate_done hresult
      have hleft : t.rest.map Placed.token = [.stop] :=
        hcomes.sound.ends.tokens_eq (programRound_done hround)
      refine ⟨tokens, t, hlex, hresult, hcomes.size_eq, ?_, hleft⟩
      have hlength : (t.rest.map Placed.token).length = 1 := congrArg List.length hleft
      rw [List.length_map] at hlength
      have hsize : t.size = tokens.length := hcomes.size_eq
      have hpos := htokens.length_pos
      unfold Input.position
      omega

/-- Cutting a text into tokens and reading the tokens always end, and pass something whenever they go on. -/
theorem reading_ends :
    LexerAdvances ∧ (∀ n, (Parse.descent n).Advances) ∧ (∀ room, RoundsEnd room Parse.programRound) ∧
      ∀ source : String, ComesTo EndAtStop (tokenize source.toList) ∧
        ComesTo (ReadToTheEnd source) (parseProgram source) := by
  refine ⟨⟨trivia_rounds, string_rounds, code_rounds, template_rounds, token_rounds⟩, fun n => ?_,
    fun room => .of_passes programRound_passes, fun source => ⟨comesTo_tokenize _, ?_⟩⟩
  · exact (Parse.Descent.passing n).advances
  · exact comesTo_parseProgram source

end Snippet.Script
