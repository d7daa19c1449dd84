import Snippet.Proofs.TryCourse

/-!
How statements end inside of others. What stands around a statement that is run is a stack of frames, each
of which goes on in its own way once the statement inside of it has ended: the rest of a list, the further
rounds of a loop, the cases after it, the call of the function that it belongs to, the handler and the
finalizer of a try statement. A fault, a return, a break or a continue goes through all frames that hand it
on, and on its way every finalizer is run once, from the inside out.
-/

namespace Snippet.Script

inductive Frame where
  /-- The statements after it. -/
  | rest (statements : List Stmt) (scope : ScopeRef)
  /-- A round of a loop, with how many more there may be. -/
  | whileRound (test : Expr) (body : Stmt) (scope : ScopeRef) (rounds : Nat)
  | doRound (body : Stmt) (test : Expr) (scope : ScopeRef) (rounds : Nat)
  | forRound (copies : Bool) (test update : Option Expr) (body : Stmt) (outer scope : ScopeRef)
      (rounds : Nat)
  | eachRound (isMutable : Bool) (target : Target) (body : Stmt) (outer : ScopeRef)
      (values : List Value)
  /-- The cases after it. -/
  | caseBody (cases : List Case) (scope : ScopeRef)
  /-- A call of a function, the value of which is used in some way. -/
  | functionBody (use : Value → Run Flow)
  /-- The block of a try statement. -/
  | tryBlock (a : Attempt) (scope : ScopeRef)

def Flow.value : Flow → Value
  | .returned v => v
  | _ => .undefined

namespace Frame

def goOn (ev : Evaluator) : Frame → Flow → Run Flow
  -- What is done after a statement that has ended without a fault, save for calls and try
  -- statements.
  | .rest statements scope, .normal => Run.execEach ev scope statements
  | .whileRound _ _ _ _, .broken => pure .normal
  | .whileRound _ _ _ _, .returned v => pure (.returned v)
  | .whileRound test body scope n, _ => Run.whileLoop ev test body scope n
  | .doRound _ _ _ _, .broken => pure .normal
  | .doRound _ _ _ _, .returned v => pure (.returned v)
  | .doRound body test scope n, _ => do
    if (← ev.eval test scope).truthy then Run.doLoop ev body test scope n else return .normal
  | .forRound _ _ _ _ _ _ _, .broken => pure .normal
  | .forRound _ _ _ _ _ _ _, .returned v => pure (.returned v)
  | .forRound copies test update body outer scope n, _ => do
    let scope ← Run.nextRound copies outer scope
    if let some e := update then discard (ev.eval e scope)
    Run.forLoop ev copies test update body outer n scope
  | .eachRound _ _ _ _ _, .broken => pure .normal
  | .eachRound _ _ _ _ _, .returned v => pure (.returned v)
  | .eachRound isMutable target body outer values, _ => Run.forEach ev isMutable target body outer values
  | .caseBody _ _, .broken => pure .normal
  | .caseBody cases scope, .normal => Run.execCases ev scope cases
  | _, flow => pure flow

def resume (ev : Evaluator) : Frame → Completion → Completion
  | .tryBlock a scope, r => a.finished ev scope (a.handled ev scope r)
  | .functionBody use, .ok flow m => use flow.value (m.atDepth (m.callDepth - 1))
  | .functionBody _, .error e m => .error e (m.atDepth (m.callDepth - 1))
  | f, .ok flow m => f.goOn ev flow m
  | _, .error e m => .error e m

end Frame

def resumeAll (ev : Evaluator) (frames : List Frame) (r : Completion) : Completion :=
  frames.foldl (fun r f => f.resume ev r) r

def Run.receive (ev : Evaluator) (f : Func) (scope : ScopeRef) (receiver : Value) (arguments : List Value) :
    Run ScopeRef := do
  let inner ← childScope scope
  unless f.arrow do
    declare inner "this" receiver false
    declare inner "arguments" (← makeArray arguments) true
  bindParams ev inner f.params arguments
  return inner

structure FramesStand (ev : Evaluator) : Prop where
  rest (s : Stmt) (statements : List Stmt) (scope : ScopeRef) (m : Machine) :
    Run.execEach ev scope (s :: statements) m =
      (Frame.rest statements scope).resume ev (ev.exec s scope m)
  whileRound (test : Expr) (body : Stmt) (scope : ScopeRef) (n : Nat) (m m' : Machine) (v : Value) :
    (Run.checkpoint >>= fun _ => ev.eval test scope) m = .ok v m' → v.truthy = true →
      Run.whileLoop ev test body scope (n + 1) m =
        (Frame.whileRound test body scope n).resume ev (ev.exec body scope m')
  doRound (body : Stmt) (test : Expr) (scope : ScopeRef) (n : Nat) (m m' : Machine) :
    Run.checkpoint m = .ok () m' →
      Run.doLoop ev body test scope (n + 1) m =
        (Frame.doRound body test scope n).resume ev (ev.exec body scope m')
  forRound (copies : Bool) (test : Expr) (update : Option Expr) (body : Stmt) (outer scope : ScopeRef)
      (n : Nat) (m m' : Machine) (v : Value) :
    (Run.checkpoint >>= fun _ => ev.eval test scope) m = .ok v m' → v.truthy = true →
      Run.forLoop ev copies (some test) update body outer (n + 1) scope m =
        (Frame.forRound copies (some test) update body outer scope n).resume ev (ev.exec body scope m')
  endlessRound (copies : Bool) (update : Option Expr) (body : Stmt) (outer scope : ScopeRef) (n : Nat)
      (m m' : Machine) :
    Run.checkpoint m = .ok () m' →
      Run.forLoop ev copies none update body outer (n + 1) scope m =
        (Frame.forRound copies none update body outer scope n).resume ev (ev.exec body scope m')
  eachRound (isMutable : Bool) (target : Target) (body : Stmt) (outer inner : ScopeRef) (v : Value)
      (values : List Value) (m m₁ m₂ : Machine) :
    (Run.checkpoint >>= fun _ => Run.childScope outer) m = .ok inner m₁ →
      Run.bind inner isMutable target v m₁ = .ok () m₂ →
      Run.forEach ev isMutable target body outer (v :: values) m =
        (Frame.eachRound isMutable target body outer values).resume ev (ev.exec body inner m₂)
  caseBody (test : Option Expr) (body : List Stmt) (cases : List Case) (scope : ScopeRef) (m : Machine) :
    Run.execCases ev scope (.mk test body :: cases) m =
      (Frame.caseBody cases scope).resume ev (Run.execAll ev body scope m)
  tryBlock (a : Attempt) (scope : ScopeRef) (m : Machine) :
    Run.execTry ev a.block a.param a.handler a.finalizer scope m =
      (Frame.tryBlock a scope).resume ev (Run.execBlock ev a.block scope m)
  functionBody (f : Func) (statements : List Stmt) (scope inner : ScopeRef) (receiver : Value)
      (arguments : List Value) (use : Value → Run Flow) (m m' : Machine) :
    f.body = .block statements → m.callDepth < maxCallDepth →
      Run.receive ev f scope receiver arguments (m.atDepth (m.callDepth + 1)) = .ok inner m' →
      (Run.callClosure ev f scope receiver arguments >>= use) m =
        (Frame.functionBody use).resume ev (Run.execAll ev statements inner m')

section Standing

variable {ev : Evaluator}

theorem run_invoke {f : Func} {scope inner : ScopeRef} {receiver : Value} {arguments : List Value}
    {m m' : Machine} (h : Run.receive ev f scope receiver arguments m = .ok inner m') :
    Run.invoke ev f scope receiver arguments m = Run.runBody ev f.body inner m' := by
  have hinvoke : Run.invoke ev f scope receiver arguments =
      (Run.receive ev f scope receiver arguments >>= fun inner => Run.runBody ev f.body inner) := by
    -- Arrow functions receive neither `this` nor `arguments`; the rest is the same for all functions.
    unfold Run.invoke Run.receive
    cases f.arrow with
    | true =>
      simp only [if_true, bind_assoc, pure_bind]
      rfl
    | false =>
      simp only [Bool.false_eq_true, if_false, bind_assoc, pure_bind]
      rfl
  rw [hinvoke]
  exact run_bind_ok h

theorem run_runBody {statements : List Stmt} {inner : ScopeRef} :
    Run.runBody ev (.block statements) inner =
      (Run.execAll ev statements inner >>= fun flow => pure flow.value) := by
  refine congrArg (Run.execAll ev statements inner >>= ·) (funext fun flow => ?_)
  cases flow <;> rfl

/-- A statement in a frame that hands on faults and goes on in its own way after all else. -/
theorem resume_of_goOn {f : Frame} {x : Run Flow} {k : Flow → Run Flow} {m : Machine}
    (herror : ∀ e m, f.resume ev (.error e m) = .error e m)
    (hok : ∀ flow m, f.resume ev (.ok flow m) = k flow m) : (x >>= k) m = f.resume ev (x m) := by
  cases hr : x m with
  | error e m' => exact (run_bind_error hr).trans (herror e m').symm
  | ok flow m' => exact (run_bind_ok hr).trans (hok flow m').symm

theorem run_behind {α : Type} {x : Run α} {k : α → Run Flow} {a : α} {m m' : Machine}
    (h : (Run.checkpoint >>= fun _ => x) m = .ok a m') :
    (Run.checkpoint >>= fun _ => x >>= k) m = k a m' := by
  rw [← bind_assoc, run_bind_ok h]

/-- A round of a loop whose test is true. -/
theorem run_test {x : Run Value} {y z : Run Flow} {v : Value} {m m' : Machine}
    (h : (Run.checkpoint >>= fun _ => x) m = .ok v m') (hv : v.truthy = true) :
    (Run.checkpoint >>= fun _ => x >>= fun v => if v.truthy then y else z) m = y m' := by
  rw [run_behind h, if_pos hv]

end Standing

/-- Each way of running statements inside of others is the frame that stands for it. -/
theorem framesStand (ev : Evaluator) : FramesStand ev where
  rest s statements scope m := by
    refine resume_of_goOn (fun _ _ => rfl) fun flow m => ?_
    cases flow <;> rfl
  whileRound test body scope n m m' v h hv := by
    refine (run_test h hv).trans (resume_of_goOn (fun _ _ => rfl) fun flow m => ?_)
    cases flow <;> rfl
  doRound body test scope n m m' h := by
    refine (run_bind_ok h).trans (resume_of_goOn (fun _ _ => rfl) fun flow m => ?_)
    cases flow <;> rfl
  forRound copies test update body outer scope n m m' v h hv := by
    refine (run_test h hv).trans ?_
    refine resume_of_goOn (f := .forRound copies (some test) update body outer scope n)
      (fun _ _ => rfl) fun flow m => ?_
    cases flow <;> rfl
  endlessRound copies update body outer scope n m m' h := by
    refine (run_bind_ok h).trans (resume_of_goOn (fun _ _ => rfl) fun flow m => ?_)
    cases flow <;> rfl
  eachRound isMutable target body outer inner v values m m₁ m₂ h hbind := by
    refine (run_behind h).trans ((run_bind_ok hbind).trans (resume_of_goOn (fun _ _ => rfl) fun flow m => ?_))
    cases flow <;> rfl
  caseBody test body cases scope m := by
    refine resume_of_goOn (fun _ _ => rfl) fun flow m => ?_
    cases flow <;> rfl
  tryBlock a scope m := a.run_execTry ev scope m
  functionBody f statements scope inner receiver arguments use m m' hbody hroom h := by
    -- However the body ends, the depth of the calls is what it was before.
    have hcall : Run.callClosure ev f scope receiver arguments m =
        onState (fun m => m.atDepth (m.callDepth - 1))
          ((Run.execAll ev statements inner >>= fun flow => pure flow.value) m') := by
      unfold Run.callClosure
      rw [run_nested hroom, run_invoke h, hbody, run_runBody]
    cases hr : Run.execAll ev statements inner m' with
    | error e m'' =>
      rw [run_bind_error hr] at hcall
      exact run_bind_error hcall
    | ok flow m'' =>
      rw [run_bind_ok hr] at hcall
      exact run_bind_ok hcall

def Frame.handsOn : Frame → Except Fault Flow → Bool
  | .tryBlock a _, .error _ => a.handler.isNone
  | _, .error _ => true
  | .rest _ _, .ok .normal => false
  | .rest _ _, .ok _ => true
  | .whileRound _ _ _ _, .ok (.returned _) => true
  | .doRound _ _ _ _, .ok (.returned _) => true
  | .forRound _ _ _ _ _ _ _, .ok (.returned _) => true
  | .eachRound _ _ _ _ _, .ok (.returned _) => true
  | .caseBody _ _, .ok (.returned _) => true
  | .caseBody _ _, .ok .continued => true
  | .tryBlock _ _, .ok _ => true
  | _, .ok _ => false

def Frame.cleanUp (ev : Evaluator) : Frame → Run Flow
  | .tryBlock a scope =>
    match a.finalizer with
    | some body => Run.execBlock ev body scope
    | none => pure .normal
  | .functionBody _ => fun m => .ok .normal (m.atDepth (m.callDepth - 1))
  | _ => pure .normal

/-- The finalizers of a stack of frames lead from one state to another: each of them is run once, from the
inside out, and ends normally. -/
inductive CleansUp (ev : Evaluator) : List Frame → Machine → Machine → Prop
  | nil (m : Machine) : CleansUp ev [] m m
  | cons {f : Frame} {frames : List Frame} {m m' m'' : Machine}
      (h : f.cleanUp ev m = .ok .normal m') (hrest : CleansUp ev frames m' m'') :
      CleansUp ev (f :: frames) m m''

section Unwinding

variable {ev : Evaluator}

/-- Without a handler that is entered a try statement hands on how its block has ended, unless the finalizer
ends otherwise than normally. -/
theorem resume_tryBlock {a : Attempt} {scope : ScopeRef} {r : Completion} {m : Machine}
    (hhandler : a.handlerStep? ev scope r = none) (hr : Completion.endsRun r = false)
    (h : (Frame.tryBlock a scope).cleanUp ev (finalState r) = .ok .normal m) :
    (Frame.tryBlock a scope).resume ev r = Completion.inState m r := by
  have hhandled : a.handled ev scope r = r := by
    unfold Attempt.handled
    rw [hhandler]
  change a.finished ev scope (a.handled ev scope r) = _
  rw [hhandled]
  unfold Frame.cleanUp at h
  cases hf : a.finalizer with
  | none =>
    simp only [hf] at h
    obtain ⟨-, rfl⟩ := EStateM.Result.ok.inj h
    rw [Attempt.finished_of_none ev scope hf]
    cases r <;> rfl
  | some body =>
    simp only [hf] at h
    rw [Attempt.finished_of_some ev scope hf hr]
    unfold TryStep.overriding
    rw [h]

/-- What is handed on by a frame is the same after it, in the state to which the frame has cleaned up. -/
theorem resume_handsOn {f : Frame} {c : Except Fault Flow} (hf : f.handsOn c = true)
    (hc : Run.endsRun c = false) {m m' : Machine} (h : f.cleanUp ev m = .ok .normal m') :
    f.resume ev (Run.ofOutcome c m) = Run.ofOutcome c m' := by
  cases f with
  | tryBlock a scope =>
    cases c with
    | ok flow => exact resume_tryBlock (r := .ok flow m) rfl rfl h
    | error e =>
      have hnone : a.handler = none := Option.isNone_iff_eq_none.mp hf
      have hstep : a.handlerStep? ev scope (.error e m) = none := by
        unfold Attempt.handlerStep?
        rw [hnone]
      exact resume_tryBlock (r := .error e m) hstep hc h
  | functionBody use =>
    -- A call hands on nothing but faults: after all else it goes on with a value.
    obtain ⟨-, rfl⟩ := EStateM.Result.ok.inj h
    cases c with
    | ok flow => cases hf
    | error e => rfl
  | _ =>
    -- The other frames have nothing to clean up.
    obtain ⟨-, rfl⟩ := EStateM.Result.ok.inj h
    cases c with
    | error e => rfl
    | ok flow =>
      cases flow with
      | returned v => rfl
      | _ => first | rfl | cases hf

/-- What no frame keeps for itself goes through all of them, with the finalizers run on its way. -/
theorem resumeAll_handsOn {frames : List Frame} {c : Except Fault Flow} {m m' : Machine}
    (hframes : ∀ f ∈ frames, f.handsOn c = true) (hc : Run.endsRun c = false)
    (h : CleansUp ev frames m m') : resumeAll ev frames (Run.ofOutcome c m) = Run.ofOutcome c m' := by
  -- By induction on the cleaning up: the first frame hands on to the others.
  induction h with
  | nil m => rfl
  | cons h _ ih =>
    have hresume := resume_handsOn (hframes _ List.mem_cons_self) hc h
    change resumeAll ev _ (Frame.resume ev _ _) = _
    rw [hresume]
    exact ih fun f hf => hframes f (List.mem_cons_of_mem _ hf)

def callsOf (frames : List Frame) : Nat :=
  frames.countP fun | .functionBody _ => true | _ => false

/-- A fault that ends the run goes through a frame without anything being run. -/
theorem resume_final (f : Frame) {e : Fault} (he : e.isFinal = true) (m : Machine) :
    f.resume ev (.error e m) = .error e (m.atDepth (m.callDepth - callsOf [f])) := by
  cases f with
  | tryBlock a scope =>
    have hreceived : received? m e = none := by
      have h := received?_isSome m e
      rwa [he, Bool.not_true, Option.isSome_eq_false_iff, Option.isNone_iff_eq_none] at h
    have hends : Completion.endsRun (.error e m) = true := he
    change a.finished ev scope (a.handled ev scope (.error e m)) = _
    rw [a.handled_of_not_received ev scope hreceived, a.finished_of_endsRun ev scope hends]
    rfl
  | _ => rfl

/-- A final fault leaves all calls and runs no finalizer. -/
theorem resumeAll_final (frames : List Frame) {e : Fault} (he : e.isFinal = true) (m : Machine) :
    resumeAll ev frames (.error e m) = .error e (m.atDepth (m.callDepth - callsOf frames)) := by
  induction frames generalizing m with
  | nil => rfl
  | cons f frames ih =>
    change resumeAll ev frames (f.resume ev (.error e m)) = _
    rw [resume_final f he, ih]
    -- The frame may leave one call, and the others leave theirs after it.
    have hcalls : callsOf ([f] ++ frames) = callsOf [f] + callsOf frames := List.countP_append
    change _ = EStateM.Result.error e (m.atDepth (m.callDepth - callsOf ([f] ++ frames)))
    rw [hcalls]
    change EStateM.Result.error e (m.atDepth (m.callDepth - callsOf [f] - callsOf frames)) = _
    rw [Nat.sub_sub]

end Unwinding

/-- How try statements end. A try statement at any place of a run takes a course: its block is run; its handler
is entered, once, exactly if the block has ended in a fault that does not end the run, with the value that was
thrown or an error object made for the fault; its finalizer is run, once, exactly if the run has not ended; and
the statement ends as the finalizer if that does not end normally, and otherwise as the handler, or the block if
the handler was not entered. Whatever is inside of a statement is run in the frame that goes with it; what a
stack of frames hands on comes through after the finalizers have been run from the inside out; and a fault that
ends the run comes through without anything else being run. -/
theorem try_statements_complete :
    (∀ n (a : Attempt) scope m, ∃ c : TryCourse, a.Takes (evaluator n) scope m c ∧
      (evaluator (n + 1)).exec a.stmt scope m = c.ended) ∧
    (∀ ev, FramesStand ev) ∧
    (∀ ev frames c m m', (∀ f ∈ frames, Frame.handsOn f c = true) → Run.endsRun c = false →
      CleansUp ev frames m m' → resumeAll ev frames (Run.ofOutcome c m) = Run.ofOutcome c m') ∧
    ∀ ev frames (e : Fault) (m : Machine), e.isFinal = true →
      resumeAll ev frames (.error e m) = .error e (m.atDepth (m.callDepth - callsOf frames)) := by
  refine ⟨fun n a scope m => ?_, framesStand, ?_, ?_⟩
  · exact ⟨a.course (evaluator n) scope m, a.takes_course (evaluator n) scope m,
      a.run_stmt (evaluator n) scope m⟩
  · exact fun ev frames c m m' hframes hc h => resumeAll_handsOn hframes hc h
  · exact fun ev frames e m he => resumeAll_final frames he m

end Snippet.Script
