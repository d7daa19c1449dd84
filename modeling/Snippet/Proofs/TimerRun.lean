import Snippet.Proofs.TimerOrder
import Snippet.Proofs.CallSequence

/-!
The timers of a run. When the statements of a script have ended, its timers come to their times one by one,
and the callback of each is called. The history of a run tells all firings and all that the script does in
between, so what holds of the timers in every history holds of those of every run.
-/

namespace Snippet.Script

/-- How the timers run out from a state, given what happens around the store and what it comes to. The first
timer is taken, which is the command to fire, and its callback is called, which gives commands of calls;
and so on, until no timer is left, the time is up, or a callback comes to a fault. -/
inductive Drains (ev : Evaluator) :
    Machine → List Command → EStateM.Result Fault Machine Unit → Prop where
  | done {m} : m.timers.pending = [] → Drains ev m [] (.ok () m)
  | late {m} : m.timers.pending ≠ [] → m.checkpoints = 0 → Drains ev m [] (.error (.timeout m) m)
  | fails {m m' : Machine} {k t timers e cs} : m.checkpoints = k + 1 →
      m.timers.next? = some (t, timers) →
      ev.call t.callback .undefined t.arguments { m with checkpoints := k, timers } = .error e m' →
      (∀ c ∈ cs, c.IsCall) → m'.outside = Outside.run { m.outside with timers } cs →
      Drains ev m (.fire :: cs) (.error e m')
  | goesOn {m m' : Machine} {k t timers v cs history r} : m.checkpoints = k + 1 →
      m.timers.next? = some (t, timers) →
      ev.call t.callback .undefined t.arguments { m with checkpoints := k, timers } = .ok v m' →
      (∀ c ∈ cs, c.IsCall) → m'.outside = Outside.run { m.outside with timers } cs →
      Drains ev m' history r →
      Drains ev m (.fire :: (cs ++ history)) r

/-- How a script is run from a state, given what happens around the store and what it comes to: its
statements, which give commands of calls, and then its timers. -/
inductive Plays (ev : Evaluator) (statements : List Stmt) (m : Machine) :
    List Command → EStateM.Result Fault Machine Unit → Prop where
  | fails {m' e cs} : Run.execAll ev statements globalScope m = .error e m' →
      (∀ c ∈ cs, c.IsCall) → m'.outside = m.outside.run cs →
      Plays ev statements m cs (.error e m')
  | goesOn {m' flow cs history r} : Run.execAll ev statements globalScope m = .ok flow m' →
      (∀ c ∈ cs, c.IsCall) → m'.outside = m.outside.run cs → Drains ev m' history r →
      Plays ev statements m (cs ++ history) r

variable {ev : Evaluator} {statements : List Stmt} {m : Machine} {history : List Command}
variable {r : EStateM.Result Fault Machine Unit}

theorem Outside.after_fire {o : Outside} {t : Timer} {timers : Timers}
    (h : o.timers.next? = some (t, timers)) : o.after .fire = { o with timers } := by
  change { o with timers := o.timers.fire } = _
  unfold Timers.fire
  rw [h]

/-- The history tells what is left around the store. -/
theorem Drains.outside (h : Drains ev m history r) :
    (finalState r).outside = m.outside.run history := by
  induction h with
  | done => rfl
  | late => rfl
  | fails _ hnext _ _ ho =>
    rw [Outside.run_cons, Outside.after_fire hnext]
    exact ho
  | goesOn _ hnext _ _ ho _ ih =>
    rw [Outside.run_cons, Outside.after_fire hnext, Outside.run_append, ← ho]
    exact ih

theorem Plays.outside (h : Plays ev statements m history r) :
    (finalState r).outside = m.outside.run history := by
  cases h with
  | fails _ _ ho => exact ho
  | goesOn _ _ ho hdrains => rw [hdrains.outside, ho, Outside.run_append]

/-- Timers that have run out without a fault leave none. -/
theorem Drains.pending_eq_nil (h : Drains ev m history r) {m' : Machine} (hr : r = .ok () m') :
    m'.timers.pending = [] := by
  induction h with
  | done hpending =>
    obtain ⟨-, rfl⟩ := EStateM.Result.ok.inj hr
    exact hpending
  | goesOn _ _ _ _ _ _ ih => exact ih hr
  | _ => exact nomatch hr

theorem Plays.pending_eq_nil (h : Plays ev statements m history r) {m' : Machine}
    (hr : r = .ok () m') : m'.timers.pending = [] := by
  cases h with
  | fails => exact nomatch hr
  | goesOn _ _ _ hdrains => exact hdrains.pending_eq_nil hr

-- The rounds of the timers, one for each timer that fires.

theorem run_waiting (h : m.timers.pending ≠ []) : Run.waiting m = .ok true m := by
  unfold Run.waiting
  cases hpending : m.timers.pending with
  | nil => exact absurd hpending h
  | cons first rest => rfl

theorem runTimers_late (ev : Evaluator) (n : Nat) (h : m.timers.pending ≠ [])
    (hm : m.checkpoints = 0) : Run.runTimers ev (n + 1) m = .error (.timeout m) m :=
  (run_bind_ok (run_waiting h)).trans (run_checkpoint_zero hm)

theorem runTimers_fires (ev : Evaluator) (n : Nat) {k : Nat} {t : Timer} {timers : Timers}
    (h : m.timers.pending ≠ []) (hm : m.checkpoints = k + 1)
    (hnext : m.timers.next? = some (t, timers)) :
    Run.runTimers ev (n + 1) m =
      (discard (ev.call t.callback .undefined t.arguments) >>= fun _ => Run.runTimers ev n)
        { m with checkpoints := k, timers } := by
  have htake : Run.nextTimer? (m.allowing k) = .ok (some t) { m with checkpoints := k, timers } := by
    unfold Run.nextTimer?
    rw [show (m.allowing k).timers.next? = _ from hnext]
    rfl
  refine (run_bind_ok (run_waiting h)).trans ?_
  exact (run_checkpoint_succ hm).trans (run_bind_ok htake)

theorem discard_bind {α β : Type} (x : Run α) (y : Run β) :
    (discard x >>= fun _ => y) = (x >>= fun _ => y) := by
  funext m
  cases hr : x m with
  | ok a m' =>
    have hdiscard : discard x m = .ok () m' := run_bind_ok hr
    rw [run_bind_ok hr, run_bind_ok hdiscard]
  | error e m' =>
    have hdiscard : discard x m = .error e m' := run_bind_error hr
    rw [run_bind_error hr, run_bind_error hdiscard]

-- The calls of a run, between which its timers come to their times.

instance : DecidablePred Command.IsCall
  | .fire => isFalse id
  | .print _ _ | .prompt | .draw | .schedule _ _ _ _ | .cancel _ => isTrue trivial

theorem filter_commandsOf (calls : List FunctionCall) :
    (commandsOf calls).filter Command.IsCall = commandsOf calls :=
  List.filter_eq_self.mpr fun _ hc => decide_eq_true (isCall_of_mem_commandsOf hc)

/-- Where a run with a few checkpoints more tells of no call there are no more calls. -/
theorem Job.callsBefore_add_of_none {j : Job} {b n : Nat} (h : ∀ k < n, j.callAt? (b + k) = none) :
    j.callsBefore (b + n) = j.callsBefore b := by
  have hnone : ((List.range n).map (b + ·)).filterMap j.callAt? = [] := by
    rw [List.filterMap_eq_nil_iff]
    intro i hi
    obtain ⟨k, hk, rfl⟩ := List.mem_map.mp hi
    exact h k (List.mem_range.mp hk)
  unfold callsBefore
  rw [List.range_add, List.filterMap_append, hnone, List.append_nil]

theorem tellable_call (k : Nat) (f : Value) (arguments : List Value) :
    Tellable (Value.Holds Any) fun tell => (tellingEvaluator tell k).call f .undefined arguments :=
  fun tell _ hd => (tellingEvaluator_continues hd tell k).call trivial f .undefined arguments
    f.holds_any trivial fun v _ => v.holds_any

/-- From a state on, to which the run comes after `b` checkpoints, its timers run out, and the calls in between
are those of the run. -/
structure Job.DrainsFrom (j : Job) (depth b : Nat) (m : Machine) (history : List Command) : Prop where
  drains : Drains (evaluator depth) m history (j.runTelling .plain (b + m.checkpoints))
  calls : commandsOf (j.callsBefore (b + m.checkpoints)) =
    commandsOf (j.callsBefore b) ++ history.filter Command.IsCall
  tells : j.TellsState (b + m.checkpoints) (finalState (j.runTelling .plain (b + m.checkpoints)))

namespace Job.Passes

variable {j : Job} {depth b i n : Nat} {m m' : Machine} {t : Timer} {timers : Timers} {e : Fault} {v : Value}

section

variable (h : j.Passes b m fun tell k => Run.runTimers (tellingEvaluator tell depth) (k + i + 1))
include h

/-- Where no timer is left the run has ended, whatever checkpoints are left. -/
theorem drainsFrom_done (hpending : m.timers.pending = []) : j.DrainsFrom depth b m [] := by
  have hdone (tell : Teller) (k : Nat) (hk : k ≤ m.checkpoints) :
      j.runTelling tell (b + k) = .ok () (m.allowing k) :=
    (h.goesOn tell k hk).trans (runTimers_done _ (k + i) hpending)
  have hnone (k : Nat) (hk : k ≤ m.checkpoints) : j.callAt? (b + k) = none := by
    unfold Job.callAt?
    rw [hdone .naming k hk]
    rfl
  have hle := Nat.le_refl m.checkpoints
  have hcalls : j.callsBefore (b + m.checkpoints) = j.callsBefore b :=
    Job.callsBefore_add_of_none fun k hk => hnone k (Nat.le_of_lt hk)
  refine ⟨?_, ?_, fun c hc => nomatch (hnone _ hle).symm.trans hc⟩
  · rw [hdone .plain _ hle]
    exact .done hpending
  · rw [hcalls]
    exact (List.append_nil _).symm

/-- A run that has no checkpoint for its next timer is out of time and tells of no call. -/
theorem late (hpending : m.timers.pending ≠ []) :
    (∀ tell, j.runTelling tell b = .error (.timeout (m.allowing 0)) (m.allowing 0)) ∧
      j.callAt? b = none := by
  have hlate (tell : Teller) :
      j.runTelling tell b = .error (.timeout (m.allowing 0)) (m.allowing 0) :=
    (h.goesOn tell 0 (Nat.zero_le _)).trans
      (runTimers_late (m := m.allowing 0) (tellingEvaluator tell depth) (0 + i) hpending rfl)
  refine ⟨hlate, ?_⟩
  unfold Job.callAt?
  rw [hlate]
  exact toldCall?_self (m.allowing 0)

/-- A job that is out of time with timers pending makes no call. -/
theorem drainsFrom_late (hpending : m.timers.pending ≠ []) (hm : m.checkpoints = 0) :
    j.DrainsFrom depth b m [] := by
  obtain ⟨hlate, hnone⟩ := h.late hpending
  have hself : m.allowing 0 = m := by
    rw [← hm]
    rfl
  constructor
  · rw [hm, Nat.add_zero, hlate, hself]
    exact .late hpending hm
  · rw [hm]
    exact (List.append_nil _).symm
  · rw [hm]
    exact fun c hc => nomatch hnone.symm.trans hc

/-- With a checkpoint more the first timer fires, and the run goes on with its callback. -/
theorem callback (hm : m.checkpoints = n + 1) (hpending : m.timers.pending ≠ [])
    (hnext : m.timers.next? = some (t, timers)) :
    j.callsBefore (b + 1) = j.callsBefore b ∧
      j.Passes (b + 1) { m with checkpoints := n, timers } fun tell k =>
        (tellingEvaluator tell depth).call t.callback .undefined t.arguments >>= fun _ =>
          Run.runTimers (tellingEvaluator tell depth) (k + 1 + i) := by
  have hbound := h.bound
  refine ⟨Job.callsBefore_add_of_none fun k hk => ?_, ?_, fun tell k hk => ?_⟩
  · rw [show k = 0 by omega]
    exact (h.late hpending).2
  · change b + 1 + n ≤ j.checkpoints
    omega
  · have hk : k ≤ n := hk
    have hfires := runTimers_fires (m := m.allowing (k + 1)) (tellingEvaluator tell depth) (k + 1 + i)
      hpending rfl hnext
    rw [discard_bind] at hfires
    rw [Nat.add_assoc, Nat.add_comm 1 k]
    exact (h.goesOn tell (k + 1) (by omega)).trans hfires

end

/-- The timers run out as described, and the calls in between are those of the run; by induction on the
checkpoints that are left, of which every timer takes one. -/
theorem exists_drainsFrom
    (h : j.Passes b m fun tell k => Run.runTimers (tellingEvaluator tell depth) (k + i + 1)) :
    ∃ history, j.DrainsFrom depth b m history := by
  -- The induction is on how many checkpoints are left: each round of the timers passes one.
  induction hc : m.checkpoints using Nat.strong_induction_on generalizing b i m with
  | _ c ih =>
  subst hc
  by_cases hpending : m.timers.pending = []
  · exact ⟨[], h.drainsFrom_done hpending⟩
  cases hm : m.checkpoints with
  | zero => exact ⟨[], h.drainsFrom_late hpending hm⟩
  | succ n =>
    obtain ⟨t, timers, hnext⟩ := Timers.exists_next? hpending
    obtain ⟨hfirst, hcallback⟩ := h.callback hm hpending hnext
    have hx := tellable_call depth t.callback t.arguments
    have hcheckpoint : b + m.checkpoints = b + 1 + n := by omega
    -- The callback ends the run, or the rest of the timers come after it with fewer checkpoints.
    cases hr : (tellingEvaluator .plain depth).call t.callback .undefined t.arguments
        { m with checkpoints := n, timers } with
    | error e m' =>
      obtain ⟨hends, htells, calls, hcalls, ho⟩ := hcallback.fails hx hr
      rw [tellingEvaluator_plain] at hr
      refine ⟨.fire :: commandsOf calls, ?_, ?_, ?_⟩
      all_goals rw [hcheckpoint]
      · rw [hends]
        exact .fails hm hnext hr (fun c hc => isCall_of_mem_commandsOf hc) ho
      · rw [hcalls, hfirst, commandsOf_append]
        exact congrArg (_ ++ ·) (filter_commandsOf calls).symm
      · rw [hends]
        exact htells
    | ok v m' =>
      obtain ⟨k, hk, hpasses, calls, hcalls, ho⟩ := hcallback.next hx hr
      rw [tellingEvaluator_plain] at hr
      have hk : k + m'.checkpoints = n := hk
      have hrest : j.Passes (b + 1 + k) m' fun tell l =>
          Run.runTimers (tellingEvaluator tell depth) (l + (k + i) + 1) := by
        refine ⟨hpasses.bound, fun tell l hl => (hpasses.goesOn tell l hl).trans ?_⟩
        rw [show k + l + 1 + i = l + (k + i) + 1 by omega]
      obtain ⟨history, hdrains, hhistory, htells⟩ := ih m'.checkpoints (by omega) hrest rfl
      rw [Nat.add_assoc, hk, ← hcheckpoint] at hdrains hhistory htells
      refine ⟨.fire :: (commandsOf calls ++ history), ?_, ?_, htells⟩
      · exact .goesOn hm hnext hr (fun c hc => isCall_of_mem_commandsOf hc) ho hdrains
      · rw [hhistory, hcalls, hfirst, commandsOf_append, List.append_assoc,
          List.filter_cons_of_neg (by decide), List.filter_append, filter_commandsOf]

end Job.Passes

/-- Every run of a script, with whatever checkpoints, plays a history of which the calls are those that it
makes. -/
theorem Job.plays {j : Job} {n : Nat} (hn : n ≤ j.checkpoints) :
    ∃ history,
      Plays (evaluator (depthBound (j.checkpoints + 1) j.statements)) j.statements
        (Machine.start j.stdin n) history (Run.program j.statements (Machine.start j.stdin n)) ∧
      history.filter Command.IsCall = commandsOf (j.callsBefore n) ∧
      j.TellsState n (finalState (Run.program j.statements (Machine.start j.stdin n))) := by
  rw [← runTelling_plain hn]
  -- The run is the statements of the script and the timers behind them.
  have hmain : j.Passes 0 (Machine.start j.stdin n) fun tell _ =>
      Run.execAll (tellingEvaluator tell (depthBound (j.checkpoints + 1) j.statements)) j.statements
          globalScope >>= fun _ =>
        Run.rounds >>= fun k =>
          Run.runTimers (tellingEvaluator tell (depthBound (j.checkpoints + 1) j.statements)) k := by
    refine ⟨(Nat.zero_add n).symm ▸ hn, fun tell k _ => ?_⟩
    unfold runTelling Run.programBy
    rw [discard_bind, Nat.zero_add]
    rfl
  generalize depthBound (j.checkpoints + 1) j.statements = depth at hmain ⊢
  have hx : Tellable (Flow.Holds Any) fun tell =>
      Run.execAll (tellingEvaluator tell depth) j.statements globalScope :=
    fun tell _ hd => (tellingEvaluator_continues hd tell depth).execAll (fun _ _ => trivial) globalScope
  have hcheckpoints : 0 + (Machine.start j.stdin n).checkpoints = n := Nat.zero_add n
  -- The statements end the run, or the timers come to their times.
  cases hr : Run.execAll (tellingEvaluator .plain depth) j.statements globalScope
      (Machine.start j.stdin n) with
  | error e m' =>
    obtain ⟨hends, htells, calls, hcalls, ho⟩ := hmain.fails hx hr
    rw [tellingEvaluator_plain] at hr
    rw [hcheckpoints] at hends htells hcalls
    rw [hends]
    refine ⟨commandsOf calls, .fails hr (fun c hc => isCall_of_mem_commandsOf hc) ho, ?_, htells⟩
    rw [hcalls, filter_commandsOf]
    rfl
  | ok flow m' =>
    obtain ⟨k, hk, hpasses, calls, hcalls, ho⟩ := hmain.next hx hr
    rw [tellingEvaluator_plain] at hr
    have hrest : j.Passes (0 + k) m' fun tell l =>
        Run.runTimers (tellingEvaluator tell depth) (l + 0 + 1) :=
      ⟨hpasses.bound, fun tell l hl => hpasses.goesOn tell l hl⟩
    obtain ⟨history, hdrains, hhistory, htells⟩ := Passes.exists_drainsFrom (i := 0) hrest
    have hk : 0 + k + m'.checkpoints = n := by
      rw [Nat.zero_add]
      exact hk
    rw [hk] at hdrains hhistory htells
    refine ⟨commandsOf calls ++ history, ?_, ?_, htells⟩
    · exact .goesOn hr (fun c hc => isCall_of_mem_commandsOf hc) ho hdrains
    · rw [hhistory, hcalls, List.filter_append, filter_commandsOf]
      rfl

theorem Job.length_callsBefore_le (j : Job) (n : Nat) : (j.callsBefore n).length ≤ n := by
  have hle := List.length_filterMap_le j.callAt? (List.range n)
  rwa [List.length_range] at hle

/-- A history sets no more timers than there are calls in it. -/
theorem countP_setsTimer_le {history : List Command} {calls : List FunctionCall}
    (h : history.filter Command.IsCall = commandsOf calls) :
    history.countP Command.setsTimer ≤ calls.length := by
  have hsets (c : Command) (hc : c.setsTimer = true) : decide c.IsCall = true := by
    cases c with
    | schedule => exact decide_eq_true trivial
    | _ => exact Bool.noConfusion hc
  calc history.countP Command.setsTimer
      ≤ history.countP fun c => decide c.IsCall := List.countP_mono_left fun c _ hc => hsets c hc
    _ = (history.filter Command.IsCall).length := List.countP_eq_length_filter
    _ ≤ calls.length := h ▸ List.length_filterMap_le FunctionCall.command? calls

/-- Only two functions set a timer. -/
theorem FunctionCall.setsTimer_of_command? {c : FunctionCall} {callback : Value} {delay : Float}
    {arguments : List Value} {repeated : Bool}
    (h : c.command? = some (.schedule callback delay arguments repeated)) :
    ∃ b identity repeats, c.callee = .function (.builtin b) identity ∧
      c.schedule? repeats = some (.schedule callback delay arguments repeated) ∧
      ∀ call, Run.callBuiltin call b c.arguments = Run.setTimer repeats c.arguments := by
  obtain ⟨b, identity, hcallee, ⟨rfl, hset⟩ | ⟨rfl, hset⟩⟩ := builtin_of_command? h
  · exact ⟨_, identity, false, hcallee, hset, fun _ => rfl⟩
  · exact ⟨_, identity, true, hcallee, hset, fun _ => rfl⟩

/-- A call that sets a timer gives the id of the timer, as long as it finds a checkpoint. -/
theorem FunctionCall.gives_id {c : FunctionCall} {callback : Value} {delay : Float}
    {arguments : List Value} {repeated : Bool}
    (h : c.command? = some (.schedule callback delay arguments repeated)) (ev : Evaluator)
    (receiver : Value) (n : Nat) :
    Run.call ev c.callee receiver c.arguments (c.state.allowing (n + 1)) =
      .ok (.ofNat (c.state.timers.schedule callback delay arguments repeated).1.toNat)
        { c.state.allowing n with
          timers := (c.state.timers.schedule callback delay arguments repeated).2 } := by
  obtain ⟨callee, given, m⟩ := c
  have hset (b : Bool) (hb : schedule? ⟨callee, given, m⟩ b = some (.schedule callback delay arguments repeated)) :
      Run.setTimer b given (m.allowing n) =
        .ok (.ofNat (m.timers.schedule callback delay arguments repeated).1.toNat)
          { m.allowing n with timers := (m.timers.schedule callback delay arguments repeated).2 } := by
    unfold schedule? at hb
    dsimp only at hb
    split at hb
    · rename_i hfunction
      obtain ⟨x, hx, hcommand⟩ := Option.map_eq_some_iff.mp hb
      have hnumber := run_numberArgument? callee given (m.allowing n) 1
      rw [show number? ⟨callee, given, m.allowing n⟩ 1 = some x from hx] at hnumber
      obtain ⟨rfl, rfl, rfl, rfl⟩ := Command.schedule.inj hcommand
      exact (congrFun (if_pos hfunction) _).trans (run_bind_ok hnumber)
    · cases hb
  obtain ⟨b, identity, repeats, rfl, hb, hbuiltin⟩ := setsTimer_of_command? h
  exact (run_checkpoint_succ rfl).trans ((congrFun (hbuiltin ev.call) _).trans (hset repeats hb))

/-- Timers keep time. In every history of commands they fire in the order of their times and numbers, the
clock does not go back, the ids of pending timers differ as long as fewer timers are set than there are ids,
every timer takes its course, and none fires after its id has been taken back. Every run of a script, with
whatever checkpoints, plays such a history: its firings are the calls of callbacks that the run makes, and the
other commands are what the calls do that the script makes, in their order. Where the run ends without a fault
no timer is left. A call that sets a timer gives its id. -/
theorem timers_keep_time :
    (∀ history, Timers.KeepsTime history) ∧
    (∀ (j : Job) (n : Nat), n ≤ j.checkpoints →
      ∃ history, Plays (evaluator (depthBound (j.checkpoints + 1) j.statements)) j.statements
          (Machine.start j.stdin n) history (Run.program j.statements (Machine.start j.stdin n)) ∧
        history.filter Command.IsCall = commandsOf (j.callsBefore n) ∧
        history.countP Command.setsTimer ≤ n ∧
        (finalState (Run.program j.statements (Machine.start j.stdin n))).timers =
          Timers.run {} history ∧
        (∀ c, j.callAt? n = some c → c.state.timers = Timers.run {} history) ∧
        ∀ m, Run.program j.statements (Machine.start j.stdin n) = .ok () m → m.timers.pending = []) ∧
    ∀ (c : FunctionCall) callback delay arguments repeated,
      c.command? = some (.schedule callback delay arguments repeated) →
        ∀ ev receiver n, Run.call ev c.callee receiver c.arguments (c.state.allowing (n + 1)) =
          .ok (.ofNat (c.state.timers.schedule callback delay arguments repeated).1.toNat)
            { c.state.allowing n with
              timers := (c.state.timers.schedule callback delay arguments repeated).2 } := by
  refine ⟨Timers.keepsTime, fun j n hn => ?_, fun c _ _ _ _ h => FunctionCall.gives_id h⟩
  obtain ⟨history, hplays, hhistory, htells⟩ := Job.plays hn
  have hlength := Nat.le_trans (countP_setsTimer_le hhistory) (j.length_callsBefore_le n)
  have ho := congrArg Outside.timers hplays.outside
  rw [Outside.run_timers] at ho
  refine ⟨history, hplays, hhistory, hlength, ho, fun c hc => ?_, fun m hr => hplays.pending_eq_nil hr⟩
  exact (congrArg Outside.timers (htells c hc).1).trans ho

end Snippet.Script
