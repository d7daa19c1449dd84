import Snippet.Proofs.NumberRing

/-!
Nothing that can be seen from outside happens before a checkpoint has passed: without checkpoints a script
prints nothing, reads no line, sets no timer and draws no random number, whatever faults it raises and
handles.
-/

namespace Snippet.Script

structure Machine.SameOutside (m m' : Machine) : Prop where
  checkpoints : m'.checkpoints = 0
  transcript : m'.transcript = m.transcript
  stdin : m'.stdin = m.stdin
  timers : m'.timers = m.timers
  random : m'.random = m.random

namespace Machine.SameOutside

theorem refl {m : Machine} (hm : m.checkpoints = 0) : m.SameOutside m := ⟨hm, rfl, rfl, rfl, rfl⟩

theorem trans {m m' m'' : Machine} (h : m.SameOutside m') (h' : m'.SameOutside m'') :
    m.SameOutside m'' :=
  ⟨h'.checkpoints, h'.transcript.trans h.transcript, h'.stdin.trans h.stdin,
    h'.timers.trans h.timers, h'.random.trans h.random⟩

end Machine.SameOutside

def Silent {α : Type} (V : α → Prop) (x : Run α) : Prop :=
  ∀ m : Machine, m.checkpoints = 0 → Ends V Any (fun m' => m.SameOutside m') (x m)

namespace Silent

variable {α β : Type} {V : α → Prop} {W : β → Prop}

theorem pure {a : α} (ha : V a) : Silent V (Pure.pure a) :=
  fun _ hm => ⟨ha, Machine.SameOutside.refl hm⟩

theorem thrown (e : Fault) : Silent V (throw e) := fun _ hm => ⟨trivial, Machine.SameOutside.refl hm⟩

theorem bind {x : Run α} {f : α → Run β} (hx : Silent V x) (hf : ∀ a, V a → Silent W (f a)) :
    Silent W (x >>= f) := by
  intro m hm
  refine (hx m hm).bind (fun _ _ => Machine.SameOutside.trans) fun a m' ha h => ?_
  exact hf a ha m' h.checkpoints

/-- A quiet computation works on the store only. -/
theorem quiet {x : Run α} (hx : Quiet Any V x) : Silent V x := by
  intro m hm
  have hends := (hx m m.holds_any.heap).1
  have hover := hx.eq_over m.holds_any.heap
  cases hr : x m with
  | ok a m' =>
    rw [hr] at hends hover
    obtain ⟨-, hm'⟩ := EStateM.Result.ok.inj hover
    refine ⟨hends.1, ?_⟩
    rw [hm']
    exact ⟨hm, rfl, rfl, rfl, rfl⟩
  | error e m' =>
    rw [hr] at hover
    obtain ⟨-, hm'⟩ := EStateM.Result.error.inj hover
    refine ⟨trivial, ?_⟩
    rw [hm']
    exact ⟨hm, rfl, rfl, rfl, rfl⟩

/-- A checkpoint that cannot pass ends the run, whatever was to come after it. -/
theorem checkpoint (x : Run α) : Silent V (Run.checkpoint >>= fun _ => x) := by
  intro m hm
  rw [run_checkpoint_zero hm]
  exact ⟨trivial, Machine.SameOutside.refl hm⟩

theorem nested {x : Run α} (hx : Silent V x) : Silent V (Run.nested x) := by
  intro m hm
  refine Ends.nested trivial (Machine.SameOutside.refl hm) (fun m' h => ?_) (hx _ hm)
  exact ⟨h.checkpoints, h.transcript, h.stdin, h.timers, h.random⟩

theorem outcome {x : Run α} {f : Except Fault α → Run β} (hx : Silent V x)
    (hok : ∀ a, V a → Silent W (f (.ok a)))
    (herror : ∀ e, e.Plain Any → e.isFinal = false → Silent W (f (.error e)))
    (hfinal : ∀ e, e.isFinal = true → f (.error e) = throw e) :
    Silent W (Run.outcome x >>= f) := by
  intro m hm
  refine (hx m hm).outcome (fun _ _ => Machine.SameOutside.trans)
    (fun a m' ha h => hok a ha m' h.checkpoints) (fun e m' _ he h => ?_) hfinal
  exact herror e (Fault.plain_of_not_final he) he m' h.checkpoints

end Silent

def silencing : Simulation Any Bool where
  -- Silence, as a property that evaluation respects: it is asked for up to the first checkpoint
  -- only, so nothing is asked of what comes after one.
  Rel passed _ V x _ := passed = false → Silent V x
  After _ passed := passed = true
  Inside passed passed' := passed = passed'
  Effects passed := passed = true
  Reads passed := passed = true
  faults := plainFaults Any
  thrown _ _ := Silent.thrown _
  compositional _ :=
    ⟨fun ha _ => Silent.pure ha, fun hx hf h => (hx h).bind fun a ha => hf a ha h⟩
  quiet hx _ := Silent.quiet hx
  steady hpassed _ _ h := Bool.noConfusion (hpassed.symm.trans h)
  prompt hpassed h := Bool.noConfusion (hpassed.symm.trans h)
  later hpassed _ h := Bool.noConfusion (hpassed.symm.trans h)
  checkpoint _ _ := Silent.checkpoint _
  nested hx h := Silent.nested (hx _ rfl h)
  outcome hx hok herror hfinal h :=
    Silent.outcome (hx h) (fun a ha => hok a ha h) (fun e he hne => herror e he hne h)
      fun e he => (hfinal e he).1
  loop := by
    intro i α σ V f g F G _ _ hf _ hstep s h m hm
    -- The first round is the only one before a checkpoint.
    have hround := hstep i (Or.inl rfl) (f m.checkpoints) (f m.checkpoints)
      (fun j hj s hfalse => Bool.noConfusion (hj.symm.trans hfalse)) s h
    rw [← hf] at hround
    exact hround m hm

theorem silencing_runsTimers : silencing.RunsTimers where
  waiting _ _ hm := ⟨trivial, Machine.SameOutside.refl hm⟩
  next hpassed h := Bool.noConfusion (hpassed.symm.trans h)

/-- Evaluation of any depth is silent without checkpoints. -/
theorem evaluator_silent (n : Nat) :
    EvaluatorsRelated silencing false Any (evaluator n) (evaluator n) := by
  have hcut {α : Type} {V : α → Prop} : Silent V (throw .exhausted : Run α) :=
    fun _ hm => ⟨trivial, Machine.SameOutside.refl hm⟩
  have hzero (passed : Bool) : EvaluatorsRelated silencing passed Any (evaluator 0) (evaluator 0) :=
    evaluator_zero_related (fun _ _ => hcut) _
  have h := evaluators_related trivial (fun _ _ h => h) (fun _ _ h => h) hzero n false
  rwa [Nat.zero_add] at h

/-- A whole run without checkpoints is silent. -/
theorem program_silent (statements : List Stmt) : Silent Any (Run.program statements) := by
  intro m hm
  have h := (evaluator_silent (depthBound (m.checkpoints + 1) statements)).programBy
    silencing_runsTimers trivial statements (fun _ _ => trivial) rfl
  exact h m hm

def FailsAtOnce (statements : List Stmt) (stdin : String) (e : Fault) (h : Heap) : Prop :=
  -- A script comes to a fault before its first checkpoint: however many checkpoints could succeed,
  -- the fault is the same and all of them are left.
  ∀ n, ∃ m, Run.program statements (Machine.start stdin n) = .error e m ∧ m.checkpoints = n ∧
    m.heap = h

def TellsFault (source stdin text : String) : Prop :=
  -- A text is that of a fault of the source, or of one that the script comes to before its first
  -- checkpoint.
  (∃ fault, parseProgram source = .error fault ∧ text = fault.report) ∨
    ∃ statements e h, parseProgram source = .ok statements ∧ FailsAtOnce statements stdin e h ∧
      e.report? (Budget.timeoutMessage ⟨0⟩) h = some text

/-- Before its first checkpoint a script converts a value to a number or a text, or ends with a value that is
to be reported, and the conversion does not come to an end. -/
def ConvertsForEver (source stdin : String) : Prop :=
  ∃ statements e h, parseProgram source = .ok statements ∧ FailsAtOnce statements stdin e h ∧
    (e = .endless ∨ ∃ v, e = .thrown v ∧ (h.uncaught v).toOption = none)

/-- A fault other than a timeout comes before the first checkpoint if there is none that could succeed. -/
theorem failsAtOnce_of_program {statements : List Stmt} {stdin : String} {e : Fault} {m : Machine}
    (h : Run.program statements (Machine.start stdin 0) = .error e m) (he : ¬ e.IsTimeout) :
    FailsAtOnce statements stdin e m.heap := by
  intro n
  have hsilent := program_silent statements (Machine.start stdin 0) rfl
  -- The run with `n` checkpoints is in step with this one, which has passed none.
  have hstep := program_inStep statements stdin 0 n
  have hreturns := program_not_cutOff statements stdin 0
  rw [h] at hsilent hstep hreturns
  have hzero : m.checkpoints = 0 := hsilent.2.checkpoints
  have hleft : (m.plus n).checkpoints = n := by
    change m.checkpoints + n = n
    omega
  rw [Nat.zero_add] at hstep
  cases e with
  | timeout s => exact absurd trivial he
  | exhausted => exact absurd ⟨m, rfl⟩ hreturns
  | _ => exact ⟨m.plus n, hstep, hleft, rfl⟩

/-- The state at the end of a run without checkpoints is the one at its beginning, save for the store. -/
theorem sameOutside_finalState (statements : List Stmt) (stdin : String) :
    (Machine.start stdin 0).SameOutside
      (finalState (Run.program statements (Machine.start stdin 0))) := by
  have h := program_silent statements (Machine.start stdin 0) rfl
  cases hr : Run.program statements (Machine.start stdin 0) with
  | ok a m =>
    rw [hr] at h
    exact h.2
  | error e m =>
    rw [hr] at h
    exact h.2

/-- What a report without any time says: no output, and as its error nothing, the timeout message, or the text
of a fault that comes before the first checkpoint. -/
structure TellsNoEffect (source stdin : String) (draft : Draft) : Prop where
  output : draft.output = some ""
  error : ∃ text, draft.error = some text ∧
    (text = "" ∨ text = Budget.timeoutMessage ⟨0⟩ ∨ TellsFault source stdin text)

theorem tellsNoEffect_of_evaluate {source stdin : String} {draft : Draft}
    (h : evaluate source stdin ⟨0⟩ = some draft) : TellsNoEffect source stdin draft := by
  rw [evaluate_eq_draft?] at h
  cases hp : parseProgram source with
  | error fault =>
    rw [Ending.of, Ending.within_rejected _ _ hp] at h
    obtain rfl := Option.some.inj h
    exact ⟨rfl, _, rfl, Or.inr (Or.inr (Or.inl ⟨fault, hp, rfl⟩))⟩
  | ok statements =>
    have hout := sameOutside_finalState statements stdin
    rw [Ending.of, Ending.within_parsed _ _ hp] at h
    change (Ending.ofResult (Run.program statements (Machine.start stdin 0))).draft? source _ = _ at h
    cases hr : Run.program statements (Machine.start stdin 0) with
    | ok a m =>
      rw [hr] at hout h
      obtain rfl := Option.some.inj h
      have houtput : m.transcript.text = "" := congrArg Transcript.text hout.transcript
      exact ⟨congrArg some houtput, "", rfl, Or.inl rfl⟩
    | error e m =>
      rw [hr] at hout h
      obtain ⟨text, htext, rfl⟩ := Option.map_eq_some_iff.mp h
      have houtput : m.transcript.text = "" := congrArg Transcript.text hout.transcript
      refine ⟨congrArg some houtput, text, rfl, ?_⟩
      by_cases he : e.IsTimeout
      · -- A timeout is reported by its message.
        cases e with
        | timeout s => exact Or.inr (Or.inl (Option.some.inj htext).symm)
        | _ => exact he.elim
      · exact Or.inr (Or.inr (Or.inr ⟨statements, e, m.heap, hp, failsAtOnce_of_program hr he, htext⟩))

/-- A run without checkpoints has no result exactly if it converts a value for ever. -/
theorem convertsForEver_iff_isEndless (source stdin : String) :
    ConvertsForEver source stdin ↔ (Ending.of source stdin ⟨0⟩).IsEndless := by
  constructor
  · -- A run that fails at once with such a fault is endless.
    rintro ⟨statements, e, h, hp, hfails, hendless⟩
    obtain ⟨m, hr, -, rfl⟩ := hfails 0
    have hof : Ending.of source stdin ⟨0⟩ = .failed e m :=
      (Ending.within_parsed stdin _ hp).trans (congrArg Ending.ofResult hr)
    rw [hof]
    obtain rfl | ⟨v, rfl, hv⟩ := hendless
    · trivial
    · exact hv
  · -- The other way round, a script that cannot be read and one that ends normally are not.
    intro hendless
    cases hp : parseProgram source with
    | error fault =>
      rw [Ending.of, Ending.within_rejected _ _ hp] at hendless
      exact hendless.elim
    | ok statements =>
      rw [Ending.of, Ending.within_parsed _ _ hp] at hendless
      change (Ending.ofResult (Run.program statements (Machine.start stdin 0))).IsEndless at hendless
      cases hr : Run.program statements (Machine.start stdin 0) with
      | ok a m =>
        rw [hr] at hendless
        exact hendless.elim
      | error e m =>
        rw [hr] at hendless
        have hfails (he : ¬ e.IsTimeout) := failsAtOnce_of_program hr he
        cases e with
        | endless => exact ⟨statements, _, m.heap, hp, hfails id, Or.inl rfl⟩
        | thrown v => exact ⟨statements, _, m.heap, hp, hfails id, Or.inr ⟨v, rfl, hendless⟩⟩
        | _ => exact hendless.elim

/-- Without any time a script has no effects that can be seen from outside, and a report tells of none. There
is a report unless a conversion before the first checkpoint does not come to an end. -/
theorem evaluate_without_time (source stdin : String) :
    (∀ statements, parseProgram source = .ok statements →
      (Machine.start stdin 0).SameOutside
        (finalState (Run.program statements (Machine.start stdin 0)))) ∧
    (evaluate source stdin ⟨0⟩ = none ↔ ConvertsForEver source stdin) ∧
    ∀ draft, evaluate source stdin ⟨0⟩ = some draft → TellsNoEffect source stdin draft := by
  refine ⟨fun statements _ => sameOutside_finalState statements stdin, ?_,
    fun draft h => tellsNoEffect_of_evaluate h⟩
  rw [convertsForEver_iff_isEndless]
  exact evaluateWithin_eq_none_iff source stdin _ _

/-- A script can make a ring of arrays and ask for its number before it comes to a checkpoint: without any time
it does not come to an end. -/
theorem ring_is_converted_without_time :
    ∃ source stdin m a, evaluate source stdin ⟨0⟩ = none ∧
      Ending.of source stdin ⟨0⟩ = .failed .endless m ∧ m.heap.Unwraps a a := by
  have hends : (Ending.of "const a = []; a[0] = a; +a;" "" ⟨0⟩).endsInRing ⟨0⟩ = true := by
    decide +kernel
  obtain ⟨m, hm, hring⟩ := Ending.exists_of_endsInRing hends
  refine ⟨_, _, m, ⟨0⟩, ?_, hm, hring⟩
  rw [evaluate_eq_draft?, hm]
  rfl

end Snippet.Script
