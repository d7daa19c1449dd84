import Snippet.Proofs.Timeout

/-!
The course of a try statement: which of its parts it comes to, in which states these are entered, and how
the statement ends after them. A part may do whatever an evaluator makes of it, so nothing is asked of what
is inside of it.
-/

namespace Snippet.Script

abbrev Completion := EStateM.Result Fault Machine Flow

def Completion.endsRun : Completion → Bool
  | .ok _ _ => false
  | .error e _ => e.isFinal

def Completion.inState (m : Machine) : Completion → Completion := onState fun _ => m

structure Attempt where
  block : List Stmt
  param : Option Target
  handler : Option (List Stmt)
  finalizer : Option (List Stmt)

def Attempt.stmt (a : Attempt) : Stmt := .attempt a.block a.param a.handler a.finalizer

structure TryStep where
  entered : Machine
  ended : Completion

/-- The parts that the execution of a try statement has come to: its block, then its handler with the value
that it has received, then its finalizer. -/
structure TryCourse where
  block : TryStep
  handler? : Option (Value × TryStep)
  finalizer? : Option TryStep

def TryStep.overriding (s : TryStep) (r : Completion) : Completion :=
  -- How a statement ends that would have ended in some way, once a finalizer has run: as the
  -- finalizer if that does not end normally.
  match s.ended with
  | .ok .normal m => Completion.inState m r
  | r' => r'

namespace TryCourse

def main (c : TryCourse) : TryStep := (c.handler?.map Prod.snd).getD c.block

/-- How the statement ends: as the finalizer if that does not end normally, and otherwise as the step
before it. -/
def ended (c : TryCourse) : Completion :=
  match c.finalizer? with
  | none => c.main.ended
  | some s => s.overriding c.main.ended

end TryCourse

/-- What a handler receives for a fault in one state, and the other state in which it is entered. A thrown
value is received as it is. For any other fault an error object is made, whose name is that of the kind of the
fault and whose message is the fault's message; nothing else is changed. -/
inductive Receives : Fault → Machine → Value → Machine → Prop
  | thrown (v : Value) (m : Machine) : Receives (.thrown v) m v m
  | raised (e : RuntimeError) (m : Machine) (o : Object) (bytes : Nat)
      (hname : o.get? "name" = some (.string e.kind.name))
      (hmessage : o.get? "message" = some (.string e.message)) (herror : o.isError = true) :
      Receives (.raised e) m (.object ⟨m.heap.objects.size⟩)
        { m with heap := { m.heap with objects := m.heap.objects.push o }, charged := bytes }

/-- What a handler does with the value that it receives: it binds its parameter to it, if it has one, and runs
its statements, both in a new scope. A fault of the binding is the handler's. -/
structure HandlerEnds (ev : Evaluator) (param : Option Target) (body : List Stmt) (scope : ScopeRef)
    (v : Value) (s : TryStep) (inner : ScopeRef) (m : Machine) : Prop where
  opened : Run.childScope scope s.entered = .ok inner m
  unbound : param = none → s.ended = Run.execAll ev body inner m
  bound : ∀ target m', param = some target → Run.bind inner true target v m = .ok () m' →
    s.ended = Run.execAll ev body inner m'
  unbindable : ∀ target e m', param = some target → Run.bind inner true target v m = .error e m' →
    s.ended = .error e m'

structure Attempt.Takes (a : Attempt) (ev : Evaluator) (scope : ScopeRef) (m : Machine) (c : TryCourse) :
    Prop where
  block : c.block = ⟨m, Run.execBlock ev a.block scope m⟩
  /-- The handler is entered exactly if there is one and the block has ended in a fault that does not end
  the run. -/
  handler_iff : c.handler?.isSome = true ↔
    a.handler.isSome = true ∧ ∃ e m', c.block.ended = .error e m' ∧ e.isFinal = false
  handler : ∀ v s, c.handler? = some (v, s) → ∃ e m' body, c.block.ended = .error e m' ∧
    a.handler = some body ∧ Receives e m' v s.entered ∧
      ∃ inner m'', HandlerEnds ev a.param body scope v s inner m''
  /-- The finalizer is entered exactly if there is one and the run has not ended. -/
  finalizer_iff : c.finalizer?.isSome = true ↔
    a.finalizer.isSome = true ∧ c.main.ended.endsRun = false
  finalizer : ∀ s, c.finalizer? = some s → s.entered = finalState c.main.ended ∧
    ∃ body, a.finalizer = some body ∧ s.ended = Run.execBlock ev body scope s.entered

-- The course as a function of how the block has ended.

def received? (m : Machine) : Fault → Option (Value × Machine)
  -- What a handler receives for a fault, and the state in which it is entered; nothing if the fault
  -- ends the run.
  | .thrown v => some (v, m)
  | .raised e =>
    let o : Object := .error e.kind e.message
    some (.object ⟨m.heap.objects.size⟩,
      { m with heap := { m.heap with objects := m.heap.objects.push o }, charged := m.charged + 64 })
  | _ => none

namespace Attempt

variable (a : Attempt) (ev : Evaluator) (scope : ScopeRef)

def handlerStep? (r : Completion) : Option (Value × TryStep) :=
  match r, a.handler with
  | .error e m, some body =>
    (received? m e).map fun found =>
      (found.1, ⟨found.2, Run.handle ev a.param body found.1 scope found.2⟩)
  | _, _ => none

def finalizerStep? (r : Completion) : Option TryStep :=
  match a.finalizer with
  | some body =>
    if Completion.endsRun r then none
    else some ⟨finalState r, Run.execBlock ev body scope (finalState r)⟩
  | none => none

def handled (r : Completion) : Completion :=
  match a.handlerStep? ev scope r with
  | none => r
  | some (_, s) => s.ended

def finished (r : Completion) : Completion :=
  match a.finalizerStep? ev scope r with
  | none => r
  | some s => s.overriding r

def courseAfter (block : TryStep) : TryCourse :=
  let c : TryCourse := ⟨block, a.handlerStep? ev scope block.ended, none⟩
  { c with finalizer? := a.finalizerStep? ev scope c.main.ended }

def course (m : Machine) : TryCourse := a.courseAfter ev scope ⟨m, Run.execBlock ev a.block scope m⟩

end Attempt

theorem received?_isSome (m : Machine) (e : Fault) : (received? m e).isSome = !e.isFinal := by
  cases e <;> rfl

theorem receives_of_received? {m m' : Machine} {e : Fault} {v : Value}
    (h : received? m e = some (v, m')) : Receives e m v m' := by
  cases e with
  | thrown v' =>
    obtain ⟨rfl, rfl⟩ := Prod.mk.inj (Option.some.inj h)
    exact .thrown v' m
  | raised e =>
    obtain ⟨rfl, rfl⟩ := Prod.mk.inj (Option.some.inj h)
    exact .raised e m (.error e.kind e.message) _ rfl rfl rfl
  | _ => cases h

/-- The value of a fault is found as the course says. -/
theorem run_caught?_of_some {m m' : Machine} {e : Fault} {v : Value}
    (h : received? m e = some (v, m')) : Run.caught? e m = .ok (some v) m' := by
  cases e with
  | thrown v' =>
    obtain ⟨rfl, rfl⟩ := Prod.mk.inj (Option.some.inj h)
    rfl
  | raised e =>
    obtain ⟨rfl, rfl⟩ := Prod.mk.inj (Option.some.inj h)
    rfl
  | _ => cases h

theorem run_caught?_of_none {m : Machine} {e : Fault} (h : received? m e = none) :
    Run.caught? e m = .ok none m := by
  cases e with
  | thrown v => cases h
  | raised e => cases h
  | _ => rfl

/-- Whatever value the handler is given, it has a course in a scope of its own. -/
theorem handlerEnds_handle (ev : Evaluator) (param : Option Target) (body : List Stmt) (scope : ScopeRef)
    (v : Value) (m : Machine) :
    ∃ inner m', HandlerEnds ev param body scope v ⟨m, Run.handle ev param body v scope m⟩ inner m' := by
  obtain ⟨inner, m', hopened⟩ : ∃ inner m', Run.childScope scope m = .ok inner m' := ⟨_, _, rfl⟩
  refine ⟨inner, m', hopened, ?_, ?_, ?_⟩
  · rintro rfl
    exact run_bind_ok hopened
  · rintro target m'' rfl hbind
    exact (run_bind_ok hopened).trans (run_bind_ok hbind)
  · rintro target e m'' rfl hbind
    exact (run_bind_ok hopened).trans (run_bind_error hbind)

namespace Attempt

variable (a : Attempt) (ev : Evaluator) (scope : ScopeRef)

/-- The handler is run exactly if there is one and the block has raised a fault that can be caught. -/
theorem handlerStep?_isSome (r : Completion) :
    (a.handlerStep? ev scope r).isSome = true ↔
      a.handler.isSome = true ∧ ∃ e m, r = .error e m ∧ e.isFinal = false := by
  cases r with
  | ok flow m => exact ⟨nofun, fun ⟨_, e, m, h, _⟩ => nomatch h⟩
  | error e m =>
    cases hh : a.handler with
    | none =>
      unfold handlerStep?
      rw [hh]
      exact ⟨nofun, fun h => nomatch h.1⟩
    | some body =>
      unfold handlerStep?
      rw [hh]
      -- With a handler there it depends on the fault alone.
      dsimp only
      rw [Option.isSome_map, received?_isSome, Bool.not_eq_true']
      constructor
      · exact fun he => ⟨rfl, e, m, rfl, he⟩
      · rintro ⟨-, e', m', heq, he⟩
        obtain ⟨rfl, rfl⟩ := EStateM.Result.error.inj heq
        exact he

/-- A run of the handler is that of its body, on what was received. -/
theorem of_handlerStep? {r : Completion} {v : Value} {s : TryStep}
    (h : a.handlerStep? ev scope r = some (v, s)) :
    ∃ e m body, r = .error e m ∧ a.handler = some body ∧ Receives e m v s.entered ∧
      ∃ inner m', HandlerEnds ev a.param body scope v s inner m' := by
  cases r with
  | ok flow m => cases h
  | error e m =>
    cases hh : a.handler with
    | none =>
      unfold handlerStep? at h
      rw [hh] at h
      cases h
    | some body =>
      unfold handlerStep? at h
      rw [hh] at h
      obtain ⟨⟨v', m'⟩, hreceived, heq⟩ := Option.map_eq_some_iff.mp h
      obtain ⟨rfl, rfl⟩ := Prod.mk.inj heq
      exact ⟨e, m, body, rfl, rfl, receives_of_received? hreceived,
        handlerEnds_handle ev a.param body scope v' m'⟩

/-- The finalizer is run exactly if there is one and the run has not ended. -/
theorem finalizerStep?_isSome (r : Completion) :
    (a.finalizerStep? ev scope r).isSome = true ↔
      a.finalizer.isSome = true ∧ Completion.endsRun r = false := by
  unfold finalizerStep?
  cases a.finalizer with
  | none => exact ⟨nofun, fun h => nomatch h.1⟩
  | some body =>
    dsimp only
    cases Completion.endsRun r with
    | true => exact ⟨nofun, fun h => nomatch h.2⟩
    | false => exact ⟨fun _ => ⟨rfl, rfl⟩, fun _ => rfl⟩

/-- The finalizer is entered in the state that came before it. -/
theorem of_finalizerStep? {r : Completion} {s : TryStep} (h : a.finalizerStep? ev scope r = some s) :
    s.entered = finalState r ∧
      ∃ body, a.finalizer = some body ∧ s.ended = Run.execBlock ev body scope s.entered := by
  unfold finalizerStep? at h
  cases hf : a.finalizer with
  | none =>
    rw [hf] at h
    cases h
  | some body =>
    rw [hf] at h
    dsimp only at h
    cases hends : Completion.endsRun r with
    | true =>
      rw [hends] at h
      cases h
    | false =>
      rw [hends] at h
      obtain rfl := Option.some.inj h
      exact ⟨rfl, body, rfl, rfl⟩

theorem takes_course (m : Machine) : a.Takes ev scope m (a.course ev scope m) where
  block := rfl
  handler_iff := a.handlerStep?_isSome ev scope _
  handler _ _ h := a.of_handlerStep? ev scope h
  finalizer_iff := a.finalizerStep?_isSome ev scope _
  finalizer _ h := a.of_finalizerStep? ev scope h

theorem main_courseAfter (block : TryStep) :
    (a.courseAfter ev scope block).main.ended = a.handled ev scope block.ended := by
  unfold courseAfter handled TryCourse.main
  dsimp only
  cases a.handlerStep? ev scope block.ended <;> rfl

theorem ended_courseAfter (block : TryStep) :
    (a.courseAfter ev scope block).ended = a.finished ev scope (a.handled ev scope block.ended) := by
  rw [← main_courseAfter]
  rfl

theorem handled_of_none {a : Attempt} (h : a.handler = none) (r : Completion) :
    a.handled ev scope r = r := by
  have hnone : a.handlerStep? ev scope r = none := by
    unfold handlerStep?
    rw [h]
    cases r <;> rfl
  unfold handled
  rw [hnone]

theorem handlerStep?_of_some {a : Attempt} {body : List Stmt} (h : a.handler = some body) (e : Fault)
    (m : Machine) :
    a.handlerStep? ev scope (.error e m) =
      (received? m e).map fun found =>
      (found.1, ⟨found.2, Run.handle ev a.param body found.1 scope found.2⟩) := by
  unfold handlerStep?
  rw [h]

/-- The handler goes on from the fault that the block has ended in. -/
theorem handled_of_received {a : Attempt} {body : List Stmt} (h : a.handler = some body) {e : Fault}
    {m m' : Machine} {v : Value} (hreceived : received? m e = some (v, m')) :
    a.handled ev scope (.error e m) = Run.handle ev a.param body v scope m' := by
  unfold handled
  rw [handlerStep?_of_some ev scope h, hreceived]
  rfl

/-- A fault that no handler receives goes on as it is. -/
theorem handled_of_not_received {e : Fault} {m : Machine} (hreceived : received? m e = none) :
    a.handled ev scope (.error e m) = .error e m := by
  unfold handled
  cases hh : a.handler with
  | none =>
    unfold handlerStep?
    rw [hh]
  | some body =>
    rw [handlerStep?_of_some ev scope hh, hreceived]
    rfl

theorem finished_of_none {a : Attempt} (h : a.finalizer = none) (r : Completion) :
    a.finished ev scope r = r := by
  have hnone : a.finalizerStep? ev scope r = none := by
    unfold finalizerStep?
    rw [h]
  unfold finished
  rw [hnone]

/-- Nothing is finalized where the run has ended. -/
theorem finished_of_endsRun {r : Completion} (h : Completion.endsRun r = true) :
    a.finished ev scope r = r := by
  have hnone : a.finalizerStep? ev scope r = none := by
    unfold finalizerStep?
    cases a.finalizer with
    | none => rfl
    | some body => exact if_pos h
  unfold finished
  rw [hnone]

/-- A finalizer that ends normally leaves the outcome as it was, and otherwise its own outcome takes the
place. -/
theorem finished_of_some {a : Attempt} {body : List Stmt} (hf : a.finalizer = some body) {r : Completion}
    (h : Completion.endsRun r = false) :
    a.finished ev scope r =
      TryStep.overriding ⟨finalState r, Run.execBlock ev body scope (finalState r)⟩ r := by
  have hsome : a.finalizerStep? ev scope r =
      some ⟨finalState r, Run.execBlock ev body scope (finalState r)⟩ := by
    unfold finalizerStep?
    rw [hf]
    exact if_neg (ne_true_of_eq_false h)
  unfold finished
  rw [hsome]

/-- Block and handler are run one after the other as the course says. -/
theorem run_guarded (m : Machine) :
    Run.guarded ev a.block a.param a.handler scope m =
      a.handled ev scope (Run.execBlock ev a.block scope m) := by
  unfold Run.guarded
  cases hr : Run.execBlock ev a.block scope m with
  | ok flow m' => exact run_outcome_ok hr
  | error e m' =>
    rw [run_outcome_error hr]
    cases hh : a.handler with
    | none =>
      rw [handled_of_none ev scope hh]
      rfl
    | some body =>
      -- A fault that ends the run is received by no handler.
      cases hreceived : received? m' e with
      | none =>
        rw [handled_of_not_received a ev scope hreceived]
        exact run_bind_ok (run_caught?_of_none hreceived)
      | some found =>
        rw [handled_of_received ev scope hh hreceived]
        exact run_bind_ok (run_caught?_of_some hreceived)

variable {ev scope}

theorem run_finish_of_endsRun {body : List Stmt} {result : Except Fault Flow} {m : Machine}
    (h : Run.endsRun result = true) :
    Run.finish ev body result scope m = Run.ofOutcome result m :=
  congrFun (if_pos h) m

theorem run_finish {body : List Stmt} {result : Except Fault Flow} {m : Machine}
    (h : Run.endsRun result = false) {r : Completion} (hr : Run.ofOutcome result m = r) :
    Run.finish ev body result scope m =
      TryStep.overriding ⟨m, Run.execBlock ev body scope m⟩ r := by
  unfold Run.finish
  rw [if_neg (ne_true_of_eq_false h)]
  unfold TryStep.overriding
  cases hbody : Run.execBlock ev body scope m with
  | error e m' => exact run_bind_error hbody
  | ok flow m' =>
    rw [run_bind_ok hbody, ← hr]
    cases flow with
    -- A finalizer that ends normally gives way to what has ended before it.
    | normal => cases result <;> rfl
    | _ => rfl

/-- A finalizer is run after a computation as the course says. -/
theorem run_finisher {a : Attempt} {body : List Stmt} (hf : a.finalizer = some body) {x : Run Flow}
    {m : Machine} :
    (Run.outcome x >>= fun result => Run.finish ev body result scope) m = a.finished ev scope (x m) := by
  cases hr : x m with
  | ok flow m' =>
    rw [run_outcome_ok hr, finished_of_some ev scope hf rfl]
    exact run_finish rfl rfl
  | error e m' =>
    rw [run_outcome_error hr]
    -- Only a fault can end the run, so this is the one case that passes the finalizer by.
    cases hends : e.isFinal with
    | true =>
      have hends' : Completion.endsRun (.error e m') = true := hends
      rw [finished_of_endsRun a ev scope hends']
      exact run_finish_of_endsRun hends
    | false =>
      have hends' : Completion.endsRun (.error e m') = false := hends
      have hresult : Run.endsRun (.error e) = false := hends
      rw [finished_of_some ev scope hf hends']
      exact run_finish hresult rfl

variable (ev scope)

/-- The statement ends as its course says. -/
theorem run_execTry (m : Machine) :
    Run.execTry ev a.block a.param a.handler a.finalizer scope m =
      a.finished ev scope (a.handled ev scope (Run.execBlock ev a.block scope m)) := by
  rw [← run_guarded]
  unfold Run.execTry
  cases hf : a.finalizer with
  | none =>
    rw [finished_of_none ev scope hf]
  | some body => exact run_finisher hf

theorem run_stmt (m : Machine) : Run.execStmt ev a.stmt scope m = (a.course ev scope m).ended := by
  unfold course
  rw [ended_courseAfter]
  exact a.run_execTry ev scope m

end Attempt

end Snippet.Script
