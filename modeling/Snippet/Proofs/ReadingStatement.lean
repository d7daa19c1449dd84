import Snippet.Proofs.ReadingExpression

/-!
How deep what is read is nested: statements, and with them whole scripts.
-/

namespace Snippet.Script

open Snippet.Script.Part

namespace Reads

open Parse

variable {n r : Nat} {d : Descent}

theorem bindings (hd : d.Nests n r) (kind : DeclKind) (first : Target) :
    Reads n (fun s => Nested (r + 1) (.stmt s)) (Parse.bindings d kind first) := by
  refine repeatFrom (V := fun state : List (Target × Option Expr) × Target =>
    ∀ b ∈ state.1, AllNested r (bindingParts b)) nofun fun state hdone => ?_
  obtain ⟨done, t⟩ := state
  refine bind (initializer hd) fun init hinit => ?_
  have hmore : ∀ b ∈ (t, init) :: done, AllNested r (bindingParts b) := by
    refine List.forall_mem_cons.mpr ⟨?_, hdone⟩
    cases init with
    | none => exact .nil
    | some e => exact hinit
  refine onlyIf (fun _ => fail _) (bind (eatMark _) fun _ _ => ite (fun _ => ?_) fun _ => ?_)
  · exact bind target fun _ _ => pure hmore
  · exact pure (.of_parts trivial (.flatMap (forall_mem_reverse hmore)))

theorem expressionStatement (hd : d.Nests n r) :
    Reads n (fun s => Nested (r + 2) (.stmt s)) (Parse.expressionStatement d) :=
  bind (expression hd) fun _ he => bind endStatement fun _ _ => pure (.of_parts trivial (.one he))

theorem parenthesized (hd : d.Nests n r) :
    Reads n (fun e => Nested (r + 1) (.expr e)) (Parse.parenthesized d) :=
  bind (expectMark _) fun _ _ => bind (expression hd) fun _ he => bind (expectMark _) fun _ _ => pure he

/-- A loop over elements or keys behind its keyword. -/
theorem forEachLoop (hd : d.Nests n r) (keys : Bool) (kind : DeclKind) (t : Target) :
    Reads n (fun s? => ∀ s, s? = some s → Nested (r + 2) (.stmt s)) (do
      let subject ← Parse.expression d
      Parse.expectMark ")"
      let body ← d.statement
      return some (.forEach keys kind t subject body)) := by
  refine bind (expression hd) fun subject hsubject => bind (expectMark _) fun _ _ => ?_
  refine bind hd.statement fun body hbody => pure fun s hs => ?_
  obtain rfl := Option.some.inj hs
  exact .of_parts trivial (.cons hsubject (.one (hbody.mono (Nat.le_succ r))))

theorem forEachTail? (hd : d.Nests n r) (kind : DeclKind) (t : Target) :
    Reads n (fun s? => ∀ s, s? = some s → Nested (r + 2) (.stmt s)) (Parse.forEachTail? d kind t) := by
  refine bind (eatWord _) fun _ _ => ite (fun _ => afterPure (forEachLoop hd false kind t)) fun _ => ?_
  refine bind (eatWord _) fun isIn _ => afterPure ?_
  cases isIn with
  | true => exact forEachLoop hd true kind t
  | false => exact pure nofun

theorem optionalBefore (hd : d.Nests n r) (mark : String) :
    Reads n (fun e? => AllNested (r + 1) (e?.toList.map .expr)) (Parse.optionalBefore d mark) := by
  refine bind (atMark _) fun _ _ => ite (fun _ => pure .nil) fun _ => ?_
  exact bind (expression hd) fun e he => pure (.one he)

theorem forTail (hd : d.Nests n r) {init : Option Stmt}
    (hinit : AllNested (r + 2) (init.toList.map .stmt)) :
    Reads n (fun s => Nested (r + 3) (.stmt s)) (Parse.forTail d init) := by
  refine bind (expectMark _) fun _ _ => bind (optionalBefore hd _) fun test htest => ?_
  refine bind (expectMark _) fun _ _ => bind (optionalBefore hd _) fun update hupdate => ?_
  refine bind (expectMark _) fun _ _ => bind hd.statement fun body hbody => pure ?_
  refine .of_parts trivial (.cons (hbody.mono (Nat.le_add_right r 2)) (.append hinit ?_))
  exact (htest.mono (Nat.le_succ _)).append (hupdate.mono (Nat.le_succ _))

/-- Every form of a `for` statement nests its parts three levels deep at most. -/
theorem forStatement (hd : d.Nests n r) :
    Reads n (fun s => Nested (r + 3) (.stmt s)) (Parse.forStatement d) := by
  have hup {s? : Option Stmt} (hs : ∀ s, s? = some s → Nested (r + 2) (.stmt s)) (s : Stmt)
      (h : s? = some s) : Nested (r + 3) (.stmt s) := (hs s h).mono (Nat.le_succ _)
  refine bind advance fun _ _ => bind (expectMark _) fun _ _ => bind (atMark _) fun _ _ => ?_
  refine ite (fun _ => forTail hd .nil) fun _ => bind peek fun token _ => ?_
  split
  · refine bind advance fun _ _ => bind target fun t _ => bind (forEachTail? hd _ t) fun s? hs => ?_
    split
    · exact pure (hup hs _ rfl)
    · refine bind (setNoIn _) fun _ _ => bind (bindings hd _ t) fun decl hdecl => ?_
      refine bind (setNoIn _) fun _ _ => forTail hd (.one (hdecl.mono (Nat.le_succ _)))
  · refine bind (setNoIn _) fun _ _ => bind (expression hd) fun e he => ?_
    refine bind (setNoIn _) fun _ _ => ?_
    have hcounting : Reads n (fun s => Nested (r + 3) (.stmt s)) (Parse.forTail d (some (.expr e))) :=
      forTail hd (.one (.of_parts trivial (.one he)))
    split
    · refine bind (forEachTail? hd _ _) fun s? hs => ?_
      cases s? with
      | some s => exact pure (hup hs s rfl)
      | none => exact hcounting
    · exact afterPure hcounting

/-- The part of a statement behind the handler, with a block and a handler in front. -/
theorem tryTail (hd : d.Nests n r) {body : List Stmt} (hbody : AllNested r (body.map .stmt))
    (param : Option Target) {h : Option (List Stmt)}
    (hh : AllNested r ((h.getD []).map .stmt)) :
    Reads n (fun s => Nested (r + 1) (.stmt s)) (do
      let finalizer ← if ← Parse.eatWord "finally" then some <$> Parse.block d else Pure.pure none
      if h.isNone && finalizer.isNone then Parse.fail .missingHandler
      return .attempt body param h finalizer) := by
  refine bind (eatWord _) fun _ _ => either
    (V := fun finalizer : Option (List Stmt) => AllNested r ((finalizer.getD []).map .stmt))
    (fun _ => map (block hd) fun _ h => h) (fun _ => pure .nil) fun finalizer hfinalizer => ?_
  refine onlyIf (fun _ => fail _) (pure (.of_parts trivial ?_))
  exact hbody.append (hh.append hfinalizer)

theorem tryStatement (hd : d.Nests n r) :
    Reads n (fun s => Nested (r + 1) (.stmt s)) (Parse.tryStatement d) := by
  refine bind advance fun _ _ => bind (block hd) fun body hbody => bind (eatWord _) fun _ _ => ?_
  have hhandler (param : Option Target) {handler : List Stmt}
      (hhandler : AllNested r (handler.map .stmt)) := tryTail hd hbody param (h := some handler) hhandler
  refine ite (fun _ => bind (eatMark _) fun _ _ => ite (fun _ => ?_) fun _ => ?_) fun _ => ?_
  · refine bind target fun t _ => bind (expectMark _) fun _ _ => afterPure ?_
    exact bind (block hd) fun handler h => afterPure (hhandler _ h)
  · exact afterPure (bind (block hd) fun handler h => afterPure (hhandler _ h))
  · exact afterPure (tryTail hd hbody none .nil)

theorem caseBody (hd : d.Nests n r) :
    Reads n (fun statements => AllNested r (statements.map .stmt)) (Parse.caseBody d) := by
  refine repeatFrom (V := fun done => ∀ s ∈ done, Nested r (.stmt s)) nofun fun done hdone => ?_
  refine bind (atWord _) fun _ _ => bind (atWord _) fun _ _ => bind (atMark _) fun _ _ => ?_
  refine ite (fun _ => pure (.map (forall_mem_reverse hdone))) fun _ => ?_
  refine bind atStop fun _ _ => onlyIf (fun _ => unexpected) ?_
  exact bind hd.statement fun s hs => pure (List.forall_mem_cons.mpr ⟨hs, hdone⟩)

/-- A case behind its test. -/
theorem caseTail (hd : d.Nests n r) {test : Option Expr}
    (htest : AllNested (r + 1) (test.toList.map .expr)) {done : List Case} {W : Stmt → Prop}
    (hdone : ∀ c ∈ done, AllNested (r + 1) c.parts) :
    Reads n (Step.Holds (fun cases : List Case => ∀ c ∈ cases, AllNested (r + 1) c.parts) W) (do
      Parse.expectMark ":"
      let body ← Parse.caseBody d
      return .more (.mk test body :: done)) := by
  refine bind (expectMark _) fun _ _ => bind (caseBody hd) fun body hbody => pure ?_
  refine List.forall_mem_cons.mpr ⟨?_, hdone⟩
  cases test with
  | none => exact hbody.mono (Nat.le_succ r)
  | some e => exact .append htest (hbody.mono (Nat.le_succ r))

theorem switchStatement (hd : d.Nests n r) :
    Reads n (fun s => Nested (r + 2) (.stmt s)) (Parse.switchStatement d) := by
  refine bind advance fun _ _ => bind (parenthesized hd) fun subject hsubject => ?_
  refine bind (expectMark _) fun _ _ => ?_
  refine repeatFrom (V := fun cases => ∀ c ∈ cases, AllNested (r + 1) c.parts) nofun fun done hdone => ?_
  refine bind (eatMark _) fun _ _ => ite (fun _ => pure ?_) fun _ => ?_
  · exact .of_parts trivial (.cons hsubject (.flatMap (forall_mem_reverse hdone)))
  refine bind (eatWord _) fun _ _ => ite (fun _ => ?_) fun _ => bind (eatWord _) fun _ _ => ?_
  · exact bind (map (W := fun test => AllNested (r + 1) (test.toList.map .expr)) (expression hd)
      fun e he => .one he) fun test htest => caseTail hd htest hdone
  · exact orElse (fun _ => unexpected) (afterPure (caseTail hd .nil hdone))

theorem returnValue (hd : d.Nests n r) :
    Reads n (fun e? => AllNested (r + 1) (e?.toList.map .expr)) (Parse.returnValue d) := by
  refine bind (atMark _) fun _ _ => bind (atMark _) fun _ _ => bind atStop fun _ _ => ?_
  refine bind afterNewline fun _ _ => ite (fun _ => pure .nil) fun _ => ?_
  exact bind (expression hd) fun e he => pure (.one he)

/-- A statement after its first word. -/
theorem wordStatement (hd : d.Nests n r) (name : String) :
    Reads n (fun s => Nested (r + 3) (.stmt s)) (Parse.wordStatement d name) := by
  have hup {s : Stmt} (hs : Nested (r + 2) (.stmt s)) : Nested (r + 3) (.stmt s) :=
    hs.mono (Nat.le_succ _)
  have hnext {s : Stmt} (hs : Nested r (.stmt s)) : Nested (r + 1) (.stmt s) := hs.mono (Nat.le_succ r)
  unfold Parse.wordStatement
  -- The word decides which statement it is.
  split
  · refine bind advance fun _ _ => bind (function hd) fun f hf => ?_
    exact onlyIf (fun _ => fail _) (pure (hup (.of_parts trivial (.one hf))))
  · exact bind (classDef hd) fun c hc => pure (hup (.of_parts trivial (AllNested.map hc)))
  · refine bind advance fun _ _ => bind (parenthesized hd) fun test htest => ?_
    refine bind hd.statement fun yes hyes => bind (eatWord _) fun _ _ => ?_
    refine either (V := fun no : Option Stmt => AllNested (r + 1) (no.toList.map .stmt)) (fun _ => ?_)
      (fun _ => pure .nil) fun no hno => ?_
    · exact map hd.statement fun s hs => .one (hnext hs)
    · exact pure (hup (.of_parts trivial (.cons htest (.cons (hnext hyes) hno))))
  · refine bind advance fun _ _ => bind (parenthesized hd) fun test htest => ?_
    refine bind hd.statement fun body hbody => pure (hup (.of_parts trivial ?_))
    exact .cons htest (.one (hnext hbody))
  · refine bind advance fun _ _ => bind hd.statement fun body hbody => bind (eatWord _) fun _ _ => ?_
    refine orElse (fun _ => unexpected) (bind (parenthesized hd) fun test htest => ?_)
    refine bind (eatMark _) fun _ _ => pure (hup (.of_parts trivial ?_))
    exact .cons (hnext hbody) (.one htest)
  · exact forStatement hd
  · refine bind advance fun _ _ => bind (returnValue hd) fun value hvalue => ?_
    exact bind endStatement fun _ _ => pure (hup (.of_parts trivial hvalue))
  · exact bind advance fun _ _ => bind endStatement fun _ _ => pure (.of_parts trivial .nil)
  · exact bind advance fun _ _ => bind endStatement fun _ _ => pure (.of_parts trivial .nil)
  · refine bind advance fun _ _ => bind (expression hd) fun e he => bind endStatement fun _ _ => ?_
    exact pure (hup (.of_parts trivial (.one he)))
  · exact (tryStatement hd).imp fun s hs => hs.mono (Nat.le_add_right _ 2)
  · exact (switchStatement hd).imp fun s hs => hup hs
  · exact fail _
  · exact fail _
  · exact (expressionStatement hd).imp fun s hs => hup hs

/-- A statement is nested at most three levels deeper than what is read one level further down. -/
theorem statement (hd : d.Nests n r) :
    Reads n (fun s => Nested (r + 3) (.stmt s)) (Parse.statement d) := by
  refine bind (atMark _) fun _ _ => ite (fun _ => ?_) fun _ => ?_
  · exact bind (block hd) fun body hbody => pure (.mono (.of_parts trivial hbody) (Nat.le_add_right _ 2))
  refine bind (eatMark _) fun _ _ => ite (fun _ => pure (.of_parts trivial .nil)) fun _ => ?_
  refine bind peek fun token _ => ?_
  split
  · refine bind advance fun _ _ => bind target fun t _ => bind (bindings hd _ t) fun decl hdecl => ?_
    exact bind endStatement fun _ _ => pure (hdecl.mono (Nat.le_add_right _ 2))
  · refine bind skipAsync fun _ _ => bind peek fun token _ => ?_
    split
    · exact wordStatement hd _
    · exact (expressionStatement hd).imp fun s hs => hs.mono (Nat.le_succ _)

end Reads

/-- Every level nests what is read three deeper, by induction on the levels. -/
theorem Parse.Descent.nests (n k : Nat) : (Parse.descent k).Nests n (3 * k) := by
  induction k with
  | zero =>
    exact ⟨.fail _, .fail _, .fail _, fun _ => .fail _, .fail _⟩
  | succ k ih =>
    exact ⟨.statement ih, .assignment ih, .unary ih, .binary ih, .primary ih⟩

def ParsesTo (source : String) : Except SyntaxFault (List Stmt) → Prop
  -- What reading a script comes to: statements in which constructs are nested to a fixed depth, or
  -- a fault on a line of the source.
  | .ok statements => ∀ s ∈ statements, Nested (3 * Parse.maxNesting) (.stmt s)
  | .error e => e.Within (lineCount source.toList)

/-- Reading a whole script gives a tree on its lines or a fault on one of them. -/
theorem parseProgram_parsesTo (source : String) : ParsesTo source (parseProgram source) := by
  have hprogram : Reads (lineCount source.toList)
      (fun statements => ∀ s ∈ statements, Nested (3 * Parse.maxNesting) (.stmt s)) Parse.program := by
    refine .repeatFrom (V := fun done => ∀ s ∈ done, Nested (3 * Parse.maxNesting) (.stmt s)) nofun
      fun done hdone => ?_
    refine .bind .atStop fun _ _ => .ite (fun _ => .pure (forall_mem_reverse hdone)) fun _ => ?_
    exact .bind (Parse.Descent.nests _ _).statement fun s hs =>
      .pure (List.forall_mem_cons.mpr ⟨hs, hdone⟩)
  unfold parseProgram
  split
  · rename_i e hr
    have htokens := tokenizes source.toList
    rw [hr] at htokens
    exact htokens
  · rename_i tokens hr
    have hread := hprogram.text (Nat.le_refl _) hr
    split
    · rename_i hr
      rw [hr] at hread
      exact hread.1
    · rename_i hr
      rw [hr] at hread
      exact hread

end Snippet.Script
