import Snippet.Proofs.SimulationExpression

/-!
A simulation that relates two evaluators on the parts of a statement relates them on the statement. The
rounds of a loop come after a checkpoint, so a loop is related to itself as soon as its rounds are.
-/

namespace Snippet.Script

namespace Run

def whileRound (ev : Evaluator) (test : Expr) (body : Stmt) (scope : ScopeRef)
    (again : Unit → Run Flow) (_ : Unit) : Run Flow := do
  checkpoint
  if (← ev.eval test scope).truthy then
    match ← ev.exec body scope with
    | .broken => return .normal
    | .returned v => return .returned v
    | _ => again ()
  else return .normal

def doRound (ev : Evaluator) (body : Stmt) (test : Expr) (scope : ScopeRef)
    (again : Unit → Run Flow) (_ : Unit) : Run Flow := do
  checkpoint
  match ← ev.exec body scope with
  | .broken => return .normal
  | .returned v => return .returned v
  | _ => if (← ev.eval test scope).truthy then again () else return .normal

def forRest (ev : Evaluator) (copies : Bool) (update : Option Expr) (outer : ScopeRef)
    (again : ScopeRef → Run Flow) (scope : ScopeRef) : Run Flow := do
  let scope ← nextRound copies outer scope
  if let some e := update then discard (ev.eval e scope)
  again scope

def afterRound (rest : Run Flow) : Flow → Run Flow
  | .broken => return .normal
  | .returned v => return .returned v
  | _ => rest

def forRound (ev : Evaluator) (copies : Bool) (test update : Option Expr) (body : Stmt)
    (outer : ScopeRef) (again : ScopeRef → Run Flow) (scope : ScopeRef) : Run Flow := do
  checkpoint
  let goesOn ←
    match test with
    | some e => pure (← ev.eval e scope).truthy
    | none => pure true
  if goesOn then
    match ← ev.exec body scope with
    | .broken => return .normal
    | .returned v => return .returned v
    | _ => forRest ev copies update outer again scope
  else return .normal

end Run

namespace EvaluatorsRelated

variable {Q : Func → Prop} {ι : Type} {C : Simulation Q ι} {i : ι} {W : Part → Prop}
variable {ev ev' : Evaluator} (h : EvaluatorsRelated C i W ev ev')
include h

/-- Evaluators that are related at an index are so at the ones that a loop reaches from it. -/
theorem within {j : ι} (hj : j = i ∨ C.After i j) : EvaluatorsRelated C j W ev ev' := by
  obtain rfl | hj := hj
  · exact h
  · exact h.later hj

/-- Declarations are made one after the other, so they are related if their initializers are. -/
theorem execBindings {bindings : List (Target × Option Expr)}
    (hb : ∀ p ∈ bindings.flatMap bindingParts, W p) (scope : ScopeRef) (isMutable : Bool) :
    C.Rel i (Flow.Holds Q) (Run.execBindings ev scope isMutable bindings)
      (Run.execBindings ev' scope isMutable bindings) := by
  induction bindings with
  | nil => exact C.pure trivial
  | cons binding rest ih =>
    obtain ⟨target, e?⟩ := binding
    rw [List.flatMap_cons] at hb
    have hrest := ih fun p hp => hb p (List.mem_append_right _ hp)
    have hdeclare (v : Value) (hv : v.Holds Q) :
        C.Rel i (Flow.Holds Q)
          (Run.bind scope isMutable target v >>= fun _ =>
            Run.execBindings ev scope isMutable rest)
          (Run.bind scope isMutable target v >>= fun _ =>
            Run.execBindings ev' scope isMutable rest) :=
      C.bind (C.quiet (Quiet.bindTarget scope isMutable target hv)) fun _ _ => hrest
    cases e? with
    | none => exact hdeclare .undefined trivial
    | some e =>
      exact C.bind (h.eval e scope (hb _ (List.mem_append_left _ List.mem_cons_self))) hdeclare

theorem execEach {statements : List Stmt} (hs : ∀ p ∈ statements.map Part.stmt, W p)
    (scope : ScopeRef) :
    C.Rel i (Flow.Holds Q) (Run.execEach ev scope statements)
      (Run.execEach ev' scope statements) := by
  induction statements with
  | nil => exact C.pure trivial
  | cons s rest ih =>
    refine C.bind (h.exec s scope (hs _ List.mem_cons_self)) fun flow hflow => ?_
    cases flow with
    | normal => exact ih fun p hp => hs p (List.mem_cons_of_mem _ hp)
    | _ => exact C.pure hflow

theorem execAll {statements : List Stmt} (hs : ∀ p ∈ statements.map Part.stmt, W p)
    (scope : ScopeRef) :
    C.Rel i (Flow.Holds Q) (Run.execAll ev statements scope)
      (Run.execAll ev' statements scope) := by
  have hdeclared (f : Func) (hf : .function f ∈ statements) : Q f :=
    h.declared f (hs _ (List.mem_map.mpr ⟨_, hf, rfl⟩))
  exact C.bind (C.quiet (Quiet.hoist scope hdeclared)) fun _ _ => h.execEach hs scope

theorem execBlock {statements : List Stmt} (hs : ∀ p ∈ statements.map Part.stmt, W p)
    (scope : ScopeRef) :
    C.Rel i (Flow.Holds Q) (Run.execBlock ev statements scope)
      (Run.execBlock ev' statements scope) := by
  refine C.ite (fun _ => ?_) fun _ => h.execAll hs scope
  exact C.bind (C.quiet (Quiet.childScope scope)) fun scope _ => h.execAll hs scope

/-- A loop respects a relation as soon as its test and its body do: the rounds come after a checkpoint. -/
theorem whileLoop {test : Expr} {body : Stmt} (ht : W (.expr test)) (hb : W (.stmt body))
    (scope : ScopeRef) :
    C.Rel i (Flow.Holds Q) (Run.rounds >>= fun n => Run.whileLoop ev test body scope n)
      (Run.rounds >>= fun n => Run.whileLoop ev' test body scope n) := by
  refine C.loop (f := fun n _ => Run.whileLoop ev test body scope n)
    (g := fun n _ => Run.whileLoop ev' test body scope n)
    (F := Run.whileRound ev test body scope) (G := Run.whileRound ev' test body scope)
    (fun _ => rfl) (fun _ => rfl) (fun _ _ => rfl) (fun _ _ => rfl) ?_ ()
  intro j hj x y hxy _
  refine C.checkpoint fun k hk => ?_
  -- All of the round stands after the checkpoint, and so do the rounds after it.
  have hev := (h.within hj).later hk
  refine C.bind (hev.eval test scope ht) fun v _ => C.ite (fun _ => ?_) fun _ => C.pure trivial
  refine C.bind (hev.exec body scope hb) fun flow hflow => ?_
  cases flow with
  | broken => exact C.pure trivial
  | returned v => exact C.pure hflow
  | _ => exact hxy k hk ()

theorem doLoop {body : Stmt} {test : Expr} (hb : W (.stmt body)) (ht : W (.expr test))
    (scope : ScopeRef) :
    C.Rel i (Flow.Holds Q) (Run.rounds >>= fun n => Run.doLoop ev body test scope n)
      (Run.rounds >>= fun n => Run.doLoop ev' body test scope n) := by
  refine C.loop (f := fun n _ => Run.doLoop ev body test scope n)
    (g := fun n _ => Run.doLoop ev' body test scope n)
    (F := Run.doRound ev body test scope) (G := Run.doRound ev' body test scope)
    (fun _ => rfl) (fun _ => rfl) (fun _ _ => rfl) (fun _ _ => rfl) ?_ ()
  intro j hj x y hxy _
  refine C.checkpoint fun k hk => ?_
  have hev := (h.within hj).later hk
  have hagain : C.Rel k (Flow.Holds Q)
      (ev.eval test scope >>= fun v => if v.truthy then x () else pure .normal)
      (ev'.eval test scope >>= fun v => if v.truthy then y () else pure .normal) :=
    C.bind (hev.eval test scope ht) fun v _ =>
      C.ite (fun _ => hxy k hk ()) fun _ => C.pure trivial
  refine C.bind (hev.exec body scope hb) fun flow hflow => ?_
  cases flow with
  | broken => exact C.pure trivial
  | returned v => exact C.pure hflow
  | _ => exact hagain

/-- A `for` loop respects a relation, whether its variables are copied in every round or not. -/
theorem forLoop (copies : Bool) {test update : Option Expr} {body : Stmt}
    (ht : ∀ p ∈ test.toList.map Part.expr, W p) (hu : ∀ p ∈ update.toList.map Part.expr, W p)
    (hb : W (.stmt body)) (outer scope : ScopeRef) :
    C.Rel i (Flow.Holds Q)
      (Run.rounds >>= fun n => Run.forLoop ev copies test update body outer n scope)
      (Run.rounds >>= fun n => Run.forLoop ev' copies test update body outer n scope) := by
  -- The definition tells heads with a test and an update from those without before anything else.
  have hround (ev : Evaluator) (n : Nat) (scope : ScopeRef) :
      Run.forLoop ev copies test update body outer (n + 1) scope =
        Run.forRound ev copies test update body outer
          (Run.forLoop ev copies test update body outer n) scope := by
    cases test <;> cases update <;> rfl
  refine C.loop (f := Run.forLoop ev copies test update body outer)
    (g := Run.forLoop ev' copies test update body outer)
    (F := Run.forRound ev copies test update body outer)
    (G := Run.forRound ev' copies test update body outer)
    (fun _ => rfl) (fun _ => rfl) (hround ev) (hround ev') ?_ scope
  intro j hj x y hxy scope
  refine C.checkpoint fun k hk => ?_
  have hev := (h.within hj).later hk
  have hrest : C.Rel k (Flow.Holds Q) (Run.forRest ev copies update outer x scope)
      (Run.forRest ev' copies update outer y scope) := by
    refine C.bind (C.quiet (Quiet.nextRound copies outer scope)) fun scope _ => ?_
    cases update with
    | none => exact hxy k hk scope
    | some e =>
      have he := (C.compositional k).discard (hev.eval e scope (hu _ List.mem_cons_self))
      exact C.bind he fun _ _ => hxy k hk scope
  have hbody (goesOn : Bool) : C.Rel k (Flow.Holds Q)
      (if goesOn then ev.exec body scope >>= fun flow =>
        match flow with
        | .broken => pure .normal
        | .returned v => pure (.returned v)
        | _ => Run.forRest ev copies update outer x scope
      else pure .normal)
      (if goesOn then ev'.exec body scope >>= fun flow =>
        match flow with
        | .broken => pure .normal
        | .returned v => pure (.returned v)
        | _ => Run.forRest ev' copies update outer y scope
      else pure .normal) := by
    refine C.ite (fun _ => ?_) fun _ => C.pure trivial
    refine C.bind (hev.exec body scope hb) fun flow hflow => ?_
    cases flow with
    | broken => exact C.pure trivial
    | returned v => exact C.pure hflow
    | _ => exact hrest
  cases test with
  | none => exact hbody true
  | some e =>
    exact C.bind (hev.eval e scope (ht _ List.mem_cons_self)) fun v _ => hbody v.truthy

theorem execFor {init : Option Stmt} {test update : Option Expr} {body : Stmt}
    (hi : ∀ p ∈ init.toList.map Part.stmt, W p) (ht : ∀ p ∈ test.toList.map Part.expr, W p)
    (hu : ∀ p ∈ update.toList.map Part.expr, W p) (hb : W (.stmt body)) (outer : ScopeRef) :
    C.Rel i (Flow.Holds Q) (Run.execFor ev init test update body outer)
      (Run.execFor ev' init test update body outer) := by
  refine C.bind (C.quiet (Quiet.childScope outer)) fun scope _ => ?_
  have hloop := h.forLoop (Run.declaresPerRound init) ht hu hb outer scope
  cases init with
  | none => exact hloop
  | some s =>
    have hs := (C.compositional i).discard (h.exec s scope (hi _ List.mem_cons_self))
    exact C.bind hs fun _ _ => hloop

omit h in
/-- A loop over values, by induction on the values; every round comes after a checkpoint. -/
theorem forEach (h : EvaluatorsRelated C i W ev ev') (isMutable : Bool) (target : Target)
    {body : Stmt} (hb : W (.stmt body)) (outer : ScopeRef) {vs : List Value}
    (hv : AllHold Q vs) :
    C.Rel i (Flow.Holds Q) (Run.forEach ev isMutable target body outer vs)
      (Run.forEach ev' isMutable target body outer vs) := by
  induction vs generalizing i with
  | nil => exact C.pure trivial
  | cons v rest ih =>
    refine C.checkpoint fun j hj => ?_
    have hev := h.later hj
    refine C.bind (C.quiet (Quiet.childScope outer)) fun scope _ => ?_
    have hbind : Quiet Q Any (Run.bind scope isMutable target v) :=
      Quiet.bindTarget scope isMutable target (hv v List.mem_cons_self)
    refine C.bind (C.quiet hbind) fun _ _ => C.bind (hev.exec body scope hb) fun flow hflow => ?_
    have hrest := ih hev fun w hw => hv w (List.mem_cons_of_mem _ hw)
    cases flow with
    | broken => exact C.pure trivial
    | returned w => exact C.pure hflow
    | _ => exact hrest

theorem handle (param : Option Target) {handler : List Stmt}
    (hs : ∀ p ∈ handler.map Part.stmt, W p) {v : Value} (hv : v.Holds Q) (outer : ScopeRef) :
    C.Rel i (Flow.Holds Q) (Run.handle ev param handler v outer)
      (Run.handle ev' param handler v outer) := by
  refine C.bind (C.quiet (Quiet.childScope outer)) fun scope _ => ?_
  cases param with
  | none => exact h.execAll hs scope
  | some target =>
    refine C.bind (C.quiet (Quiet.bindTarget scope true target hv)) fun _ _ => ?_
    exact h.execAll hs scope

/-- A block with a handler: only faults of the script reach the handler. -/
theorem guarded {block : List Stmt} (param : Option Target) {handler : Option (List Stmt)}
    (hs : ∀ p ∈ block.map Part.stmt, W p) (hh : ∀ p ∈ (handler.getD []).map Part.stmt, W p)
    (scope : ScopeRef) :
    C.Rel i (Flow.Holds Q) (Run.guarded ev block param handler scope)
      (Run.guarded ev' block param handler scope) := by
  refine C.outcome (h.execBlock hs scope) (fun flow hflow => C.pure hflow) ?_ ?_
  · -- A fault of the script is made a value for the handler, if there is one.
    intro e he hcaught
    cases handler with
    | none => exact C.thrown he
    | some handler =>
      refine C.bind (C.quiet (Quiet.caught? (C.faults.plain he))) fun v? hv => ?_
      cases v? with
      | none => exact C.thrown he
      | some v => exact h.handle param hh (hv v rfl) scope
  · -- What ends the run at once is thrown again.
    intro e he
    cases handler with
    | none => exact ⟨rfl, rfl⟩
    | some handler =>
      cases e with
      | raised e => exact Bool.noConfusion he
      | thrown v => exact Bool.noConfusion he
      | _ => exact ⟨rfl, rfl⟩

/-- A block with a finalizer, which does not run where the block ends the run at once. -/
theorem execTry {block : List Stmt} (param : Option Target) {handler finalizer : Option (List Stmt)}
    (hs : ∀ p ∈ block.map Part.stmt, W p) (hh : ∀ p ∈ (handler.getD []).map Part.stmt, W p)
    (hf : ∀ p ∈ (finalizer.getD []).map Part.stmt, W p) (scope : ScopeRef) :
    C.Rel i (Flow.Holds Q) (Run.execTry ev block param handler finalizer scope)
      (Run.execTry ev' block param handler finalizer scope) := by
  have hguarded := h.guarded param hs hh scope
  cases finalizer with
  | none => exact hguarded
  | some finalizer =>
    -- The finalizer is followed by what the block came to, unless it leaves the statement itself.
    have hfinish {result : Except Fault Flow}
        (hr : C.Rel i (Flow.Holds Q) (Run.ofOutcome result) (Run.ofOutcome result)) :
        C.Rel i (Flow.Holds Q) (Run.finish ev finalizer result scope)
          (Run.finish ev' finalizer result scope) := by
      refine C.ite (fun _ => hr) fun _ => C.bind (h.execBlock hf scope) fun flow hflow => ?_
      cases flow with
      | normal => exact hr
      | _ => exact C.pure hflow
    refine C.outcome hguarded (fun flow hflow => hfinish (C.pure hflow))
      (fun e he _ => hfinish (C.thrown he)) fun e he => ?_
    have hends : Run.endsRun (.error e) = true := he
    constructor
    · exact if_pos hends
    · exact if_pos hends

/-- The case that is chosen is the same one in both, and its parts are parts of the statement. -/
theorem matchingCases? {cases : List Case} (hc : ∀ p ∈ cases.flatMap Case.parts, W p)
    (scope : ScopeRef) (v : Value) :
    C.Rel i (fun r => ∀ cs, r = some cs → ∀ p ∈ cs.flatMap Case.parts, W p)
      (Run.matchingCases? ev scope v cases) (Run.matchingCases? ev' scope v cases) := by
  induction cases with
  | nil => exact C.pure fun cs heq => nomatch heq
  | cons case rest ih =>
    obtain ⟨test?, body⟩ := case
    have hrest := ih fun p hp => hc p (List.mem_append_right _ hp)
    cases test? with
    | none => exact hrest
    | some test =>
      have ht : W (.expr test) := hc _ (List.mem_append_left _ List.mem_cons_self)
      refine C.bind (h.eval test scope ht) fun w _ => C.ite (fun _ => C.pure ?_) fun _ => hrest
      intro cs heq
      obtain rfl := Option.some.inj heq
      exact hc

omit h in
theorem mem_of_defaultCases? {cases cs : List Case} (hd : Run.defaultCases? cases = some cs) :
    ∀ p ∈ cs.flatMap Case.parts, p ∈ cases.flatMap Case.parts := by
  induction cases with
  | nil => simp [Run.defaultCases?] at hd
  | cons case rest ih =>
    obtain ⟨test?, body⟩ := case
    cases test? with
    | none =>
      obtain rfl := Option.some.inj hd
      exact fun p hp => hp
    | some test => exact fun p hp => List.mem_append_right _ (ih hd p hp)

/-- The cases from the chosen one on are run one after the other until one of them breaks. -/
theorem execCases {cases : List Case} (hc : ∀ p ∈ cases.flatMap Case.parts, W p)
    (scope : ScopeRef) :
    C.Rel i (Flow.Holds Q) (Run.execCases ev scope cases) (Run.execCases ev' scope cases) := by
  induction cases with
  | nil => exact C.pure trivial
  | cons case rest ih =>
    obtain ⟨test?, body⟩ := case
    have hrest := ih fun p hp => hc p (List.mem_append_right _ hp)
    have hbody (p : Part) (hp : p ∈ body.map Part.stmt) : W p := by
      apply hc
      cases test? with
      | none => exact List.mem_append_left _ hp
      | some test => exact List.mem_append_left _ (List.mem_cons_of_mem _ hp)
    refine C.bind (h.execAll hbody scope) fun flow hflow => ?_
    cases flow with
    | normal => exact hrest
    | broken => exact C.pure trivial
    | _ => exact C.pure hflow

theorem execSelect {subject : Expr} {cases : List Case} (hs : W (.expr subject))
    (hc : ∀ p ∈ cases.flatMap Case.parts, W p) (scope : ScopeRef) :
    C.Rel i (Flow.Holds Q) (Run.execSelect ev subject cases scope)
      (Run.execSelect ev' subject cases scope) := by
  refine C.bind (h.eval subject scope hs) fun v _ => ?_
  refine C.bind (h.matchingCases? hc scope v) fun found hfound => ?_
  -- The cases that run are a tail of all cases, from the test that was equal or from the default.
  have hchosen (cs : List Case) (hcs : (found <|> Run.defaultCases? cases) = some cs) :
      ∀ p ∈ cs.flatMap Case.parts, W p := by
    cases found with
    | some cs' => exact hfound cs hcs
    | none => exact fun p hp => hc p (mem_of_defaultCases? hcs p hp)
  cases hcs : (found <|> Run.defaultCases? cases) with
  | none => exact C.pure trivial
  | some cs =>
    refine C.bind (C.quiet (Quiet.childScope scope)) fun scope _ => ?_
    exact h.execCases (hchosen cs hcs) scope

/-- Statements whose parts are in the class. -/
theorem execStmt {s : Stmt} (hs : ∀ p ∈ s.parts, W p) (scope : ScopeRef) :
    C.Rel i (Flow.Holds Q) (Run.execStmt ev s scope) (Run.execStmt ev' s scope) := by
  cases s with
  | expr e =>
    have he := (C.compositional i).discard (h.eval e scope (hs _ List.mem_cons_self))
    exact C.bind he fun _ _ => C.pure trivial
  | decl kind bindings => exact h.execBindings hs scope _
  | classDef c =>
    refine C.bind (C.quiet (Quiet.makeClass (fun f hf => h.functions f (hs _ ?_)) scope))
      fun v hv => ?_
    · exact List.mem_map.mpr ⟨f, hf, rfl⟩
    · exact C.bind (C.quiet (Quiet.declare scope c.name hv true)) fun _ _ => C.pure trivial
  | returns value =>
    cases value with
    | none => exact C.pure trivial
    | some e => exact C.bind (h.eval e scope (hs _ List.mem_cons_self)) fun v hv => C.pure hv
  | cond test yes no =>
    refine C.bind (h.eval test scope (hs _ List.mem_cons_self)) fun v _ =>
      C.ite (fun _ => ?_) fun _ => ?_
    · exact h.exec yes scope (hs _ (List.mem_cons_of_mem _ List.mem_cons_self))
    · cases no with
      | none => exact C.pure trivial
      | some no =>
        refine h.exec no scope (hs _ ?_)
        exact List.mem_cons_of_mem _ (List.mem_cons_of_mem _ List.mem_cons_self)
  | whileLoop test body =>
    exact h.whileLoop (hs _ List.mem_cons_self)
      (hs _ (List.mem_cons_of_mem _ List.mem_cons_self)) scope
  | doLoop body test =>
    exact h.doLoop (hs _ List.mem_cons_self)
      (hs _ (List.mem_cons_of_mem _ List.mem_cons_self)) scope
  | forLoop init test update body =>
    -- The head of the loop is all that is in front of its body.
    have hhead (p : Part)
        (hp : p ∈ init.toList.map Part.stmt ++
          (test.toList.map Part.expr ++ update.toList.map Part.expr)) : W p :=
      hs p (List.mem_cons_of_mem _ hp)
    refine h.execFor (fun p hp => hhead p ?_) (fun p hp => hhead p ?_) (fun p hp => hhead p ?_)
      (hs _ List.mem_cons_self) scope
    · exact List.mem_append_left _ hp
    · exact List.mem_append_right _ (List.mem_append_left _ hp)
    · exact List.mem_append_right _ (List.mem_append_right _ hp)
  | forEach keys kind target subject body =>
    refine C.bind (h.eval subject scope (hs _ List.mem_cons_self)) fun v _ => ?_
    refine C.bind (C.quiet (Quiet.visited keys v)) fun vs hvs => ?_
    exact h.forEach _ target (hs _ (List.mem_cons_of_mem _ List.mem_cons_self)) scope hvs
  | throws e =>
    exact C.bind (h.eval e scope (hs _ List.mem_cons_self)) fun v hv => C.quiet (Quiet.throw hv)
  | attempt block param handler finalizer =>
    refine h.execTry param (fun p hp => hs p ?_) (fun p hp => hs p ?_) (fun p hp => hs p ?_) scope
    · exact List.mem_append_left _ hp
    · exact List.mem_append_right _ (List.mem_append_left _ hp)
    · exact List.mem_append_right _ (List.mem_append_right _ hp)
  | select subject cases =>
    exact h.execSelect (hs _ List.mem_cons_self) (fun p hp => hs p (List.mem_cons_of_mem _ hp))
      scope
  | block statements => exact h.execBlock hs scope
  | _ => exact C.pure trivial

end EvaluatorsRelated

end Snippet.Script
