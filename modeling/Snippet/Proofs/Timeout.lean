import Snippet.Proofs.Persistence
import Snippet.Proofs.Termination

/-!
A timeout cuts a run cleanly. A run is compared with the run of the same script that has `d` checkpoints
more. As long as the first one has checkpoints left the two are in step; from the checkpoint at which the
first one is out of time nothing happens in it any more, whatever the script has put around it.
-/

namespace Snippet.Script

def finalState {α : Type} : EStateM.Result Fault Machine α → Machine
  | .ok _ m => m
  | .error _ m => m

theorem Ends.final {α : Type} {V : α → Prop} {E : Fault → Prop} {S : Machine → Prop}
    {r : EStateM.Result Fault Machine α} (h : Ends V E S r) : S (finalState r) := by
  cases r with
  | ok a m => exact h.2
  | error e m => exact h.2

def Machine.plus (m : Machine) (d : Nat) : Machine := m.allowing (m.checkpoints + d)

def Fault.IsTimeout : Fault → Prop
  | .timeout _ => True
  | _ => False

theorem Fault.not_isTimeout_of_not_final (e : Fault) (he : e.isFinal = false) : ¬ e.IsTimeout := by
  cases e with
  | timeout s => exact Bool.noConfusion he
  | _ => exact id

/-- A run with `d` more checkpoints has gone beyond those that it has in common with another one. -/
def RanOn (d : Nat) {α : Type} : EStateM.Result Fault Machine α → Prop
  | .ok _ m => m.checkpoints < d
  | .error e m => e.IsTimeout ∨ m.checkpoints < d

structure Trails (d : Nat) (s : Machine) {α : Type} (r : EStateM.Result Fault Machine α) : Prop where
  outside : s.outside.Leads Any (finalState r).outside
  beyond : RanOn d r

namespace Trails

variable {d : Nat} {s m : Machine} {α β : Type} {V : α → Prop} {W : β → Prop}

theorem transcript {r : EStateM.Result Fault Machine α} (h : Trails d s r) :
    (finalState r).transcript.Extends s.transcript :=
  h.outside.transcript

/-- What goes on from a state after the timeout stays after it. -/
theorem of_keeps {x : Run α} (hx : Keeps Any V x) (ho : s.outside.Leads Any m.outside)
    (hd : m.checkpoints < d) : Trails d s (x m) := by
  have h := hx m
  cases hr : x m with
  | ok a m' =>
    rw [hr] at h
    obtain ⟨-, hm⟩ := h
    exact ⟨ho.trans hm.outside, Nat.lt_of_le_of_lt hm.checkpoints hd⟩
  | error e m' =>
    rw [hr] at h
    obtain ⟨-, hm⟩ := h
    have hlt : m'.checkpoints < d := Nat.lt_of_le_of_lt hm.checkpoints hd
    exact ⟨ho.trans hm.outside, Or.inr hlt⟩

/-- What has fallen behind stays behind: after a timeout nothing outside changes any more. -/
theorem bind {x : Run α} {f : α → Run β} (h : Trails d s (x m)) (hx : Keeps Any V x)
    (hf : ∀ a, V a → Keeps Any W (f a)) : Trails d s ((x >>= f) m) := by
  have hkeeps := hx m
  cases hr : x m with
  | ok a m' =>
    rw [hr] at h hkeeps
    rw [run_bind_ok hr]
    exact of_keeps (hf a hkeeps.1) h.outside h.beyond
  | error e m' =>
    rw [hr] at h
    rw [run_bind_error hr]
    exact ⟨h.outside, h.beyond⟩

/-- Handling an outcome cannot undo a timeout, which is final. -/
theorem outcome {x : Run α} {f : Except Fault α → Run β} (h : Trails d s (x m)) (hx : Keeps Any V x)
    (hok : ∀ a, V a → Keeps Any W (f (.ok a)))
    (herror : ∀ e, e.Plain Any → e.isFinal = false → Keeps Any W (f (.error e)))
    (hfinal : ∀ e, e.isFinal = true → f (.error e) = throw e) :
    Trails d s ((Run.outcome x >>= f) m) := by
  have hkeeps := hx m
  cases hr : x m with
  | ok a m' =>
    rw [hr] at h hkeeps
    rw [run_outcome_ok hr]
    exact of_keeps (hok a hkeeps.1) h.outside h.beyond
  | error e m' =>
    rw [hr] at h
    rw [run_outcome_error hr]
    cases hend : e.isFinal with
    | true =>
      rw [hfinal e hend]
      exact ⟨h.outside, h.beyond⟩
    | false =>
      -- A fault that the script may handle is no timeout, so the run has gone beyond.
      have hlt : m'.checkpoints < d := h.beyond.resolve_left (e.not_isTimeout_of_not_final hend)
      exact of_keeps (herror e (Fault.plain_of_not_final hend) hend) h.outside hlt

theorem atDepth {r : EStateM.Result Fault Machine α} (h : Trails d s r) (depth : Machine → Nat) :
    Trails d s (onState (fun m => m.atDepth (depth m)) r) := by
  cases r with
  | ok a m => exact ⟨h.outside, h.beyond⟩
  | error e m => exact ⟨h.outside, h.beyond⟩

end Trails

/-- How the result with `d` more checkpoints goes with the result without them: it is the same, unless the
latter is a timeout. Then nothing but the calls in progress has changed since the checkpoint that failed. -/
def InStep (d : Nat) {α : Type} (r r' : EStateM.Result Fault Machine α) : Prop :=
  match r with
  | .ok a m => r' = .ok a (m.plus d)
  | .error (.timeout s) m => s.checkpoints = 0 ∧ m = s.atDepth m.callDepth ∧ Trails d s r'
  | .error .exhausted _ => True
  | .error e m => r' = .error e (m.plus d)

/-- Two computations that take nothing back, the second of which is in step with the first one where it has
`d` more checkpoints. -/
structure Outlasts (d : Nat) {α : Type} (V : α → Prop) (x y : Run α) : Prop where
  left : Keeps Any V x
  right : Keeps Any V y
  inStep : ∀ m, InStep d (x m) (y (m.plus d))

/-- A steady computation leaves the checkpoints as they are, so it comes to the same with more of them. -/
theorem Steady.eq_plus {P : Command → Prop} {α : Type} {V : α → Prop} {x : Run α} (hx : Steady Any P V x)
    (m : Machine) (d : Nat) : x (m.plus d) = onState (fun m' => m'.plus d) (x m) := by
  obtain ⟨-, hallow⟩ := hx m m.holds_any
  have hsame := hallow m.checkpoints
  have hplus := hallow (m.checkpoints + d)
  change x m = _ at hsame
  change x (m.plus d) = _ at hplus
  rw [hplus]
  -- The state that is reached has as many checkpoints left as `m`, so `d` more are the same for both.
  cases hr : x m with
  | ok a m' =>
    rw [hr] at hsame
    obtain ⟨-, hm'⟩ := EStateM.Result.ok.inj hsame
    have hcheckpoints : m'.checkpoints = m.checkpoints := by
      rw [hm']
      rfl
    change EStateM.Result.ok a (m'.allowing (m.checkpoints + d)) = .ok a (m'.plus d)
    rw [← hcheckpoints]
    rfl
  | error e m' =>
    rw [hr] at hsame
    obtain ⟨-, hm'⟩ := EStateM.Result.error.inj hsame
    have hcheckpoints : m'.checkpoints = m.checkpoints := by
      rw [hm']
      rfl
    change EStateM.Result.error e (m'.allowing (m.checkpoints + d)) = .error e (m'.plus d)
    rw [← hcheckpoints]
    rfl

namespace Outlasts

variable {d : Nat} {α β : Type} {V : α → Prop} {W : β → Prop}

theorem pure {a : α} (ha : V a) : Outlasts d V (Pure.pure a) (Pure.pure a) :=
  ⟨Keeps.pure ha, Keeps.pure ha, fun _ => rfl⟩

theorem exhausted {y : Run α} (hy : Keeps Any V y) : Outlasts d V (throw .exhausted) y :=
  ⟨Keeps.throw .exhausted, hy, fun _ => trivial⟩

/-- A sequence outlasts another one if its halves do: in step up to the timeout, and behind from there on. -/
theorem bind {x y : Run α} {f g : α → Run β} (hx : Outlasts d V x y)
    (hf : ∀ a, V a → Outlasts d W (f a) (g a)) : Outlasts d W (x >>= f) (y >>= g) := by
  refine ⟨hx.left.bind fun a ha => (hf a ha).left, hx.right.bind fun a ha => (hf a ha).right, ?_⟩
  intro m
  have hkeeps := hx.left m
  have h := hx.inStep m
  cases hr : x m with
  | ok a m' =>
    rw [hr] at h hkeeps
    rw [run_bind_ok hr, run_bind_ok h]
    exact (hf a hkeeps.1).inStep m'
  | error e m' =>
    rw [hr] at h
    rw [run_bind_error hr]
    cases e with
    | timeout s =>
      -- The first run has ended here, the second one goes on with the rest.
      obtain ⟨hzero, hm', htrails⟩ := h
      exact ⟨hzero, hm', htrails.bind hx.right fun a ha => (hf a ha).right⟩
    | exhausted => trivial
    | _ => exact run_bind_error h

theorem thrown {e : Fault} (he : e.Plain Any) : Outlasts d V (throw e) (throw e) := by
  refine ⟨Keeps.throw e, Keeps.throw e, fun m => ?_⟩
  cases e with
  | timeout s => exact he.elim
  | exhausted => exact he.elim
  | _ => exact rfl

theorem steady {x : Run α} (hx : Steady Any Any V x) : Outlasts d V x x := by
  refine ⟨Keeps.steady hx, Keeps.steady hx, fun m => ?_⟩
  have hends := (hx m m.holds_any).1
  rw [hx.eq_plus m d]
  cases hr : x m with
  | ok a m' => rfl
  | error e m' =>
    rw [hr] at hends
    cases e with
    | timeout s => exact hends.1.elim
    | exhausted => trivial
    | _ => rfl

/-- Where the first run is out of time the second one passes a checkpoint more, unless it is out of time as
well. -/
theorem checkpoint {x y : Run α} (hx : Outlasts d V x y) :
    Outlasts d V (Run.checkpoint >>= fun _ => x) (Run.checkpoint >>= fun _ => y) := by
  refine ⟨hx.left.checkpoint, hx.right.checkpoint, fun m => ?_⟩
  cases hn : m.checkpoints with
  | succ n =>
    have hplus : (m.plus d).checkpoints = n + d + 1 := by
      change m.checkpoints + d = n + d + 1
      omega
    rw [run_checkpoint_succ hn, run_checkpoint_succ hplus]
    exact hx.inStep (m.allowing n)
  | zero =>
    -- This is the checkpoint that fails; the second run goes on behind it if it has more.
    rw [run_checkpoint_zero hn]
    refine ⟨hn, rfl, ?_⟩
    have hplus : (m.plus d).checkpoints = d := by
      change m.checkpoints + d = d
      omega
    cases d with
    | zero =>
      rw [run_checkpoint_zero hplus]
      exact ⟨.refl m.outside, Or.inl trivial⟩
    | succ d =>
      rw [run_checkpoint_succ hplus]
      exact Trails.of_keeps hx.right (.refl m.outside) (Nat.lt_succ_self d)

/-- A call is entered and left in both alike. -/
theorem nested {x y : Run α} (hx : Outlasts d V x y) :
    Outlasts d V (Run.nested x) (Run.nested y) := by
  refine ⟨hx.left.nested, hx.right.nested, fun m => ?_⟩
  by_cases hdepth : maxCallDepth ≤ m.callDepth
  · rw [run_nested_full hdepth, run_nested_full (m := m.plus d) hdepth]
    exact rfl
  · have hroom : m.callDepth < maxCallDepth := Nat.lt_of_not_le hdepth
    rw [run_nested hroom, run_nested (m := m.plus d) hroom]
    have h := hx.inStep (m.atDepth (m.callDepth + 1))
    change InStep d (x (m.atDepth (m.callDepth + 1)))
      (y ((m.plus d).atDepth ((m.plus d).callDepth + 1))) at h
    cases hr : x (m.atDepth (m.callDepth + 1)) with
    | ok a m' =>
      rw [hr] at h
      rw [show y _ = _ from h]
      rfl
    | error e m' =>
      rw [hr] at h
      cases e with
      | timeout s =>
        -- Of the state at the failing checkpoint only the depth changes when the call is left.
        obtain ⟨hzero, hm', htrails⟩ := h
        refine ⟨hzero, ?_, htrails.atDepth _⟩
        change m'.atDepth (m'.callDepth - 1) = s.atDepth (m'.callDepth - 1)
        rw [hm']
        rfl
      | exhausted => trivial
      | _ =>
        rw [show y _ = _ from h]
        rfl

/-- Faults that end the run at once are handed on, so a timeout stays what it is. -/
theorem outcome {x y : Run α} {f g : Except Fault α → Run β} (hx : Outlasts d V x y)
    (hok : ∀ a, V a → Outlasts d W (f (.ok a)) (g (.ok a)))
    (herror : ∀ e, e.Plain Any → e.isFinal = false → Outlasts d W (f (.error e)) (g (.error e)))
    (hfinal : ∀ e, e.isFinal = true → f (.error e) = throw e ∧ g (.error e) = throw e) :
    Outlasts d W (Run.outcome x >>= f) (Run.outcome y >>= g) := by
  constructor
  · exact hx.left.outcome (fun a ha => (hok a ha).left) (fun e he hne => (herror e he hne).left)
      fun e he => (hfinal e he).1
  · exact hx.right.outcome (fun a ha => (hok a ha).right) (fun e he hne => (herror e he hne).right)
      fun e he => (hfinal e he).2
  intro m
  have hkeeps := hx.left m
  have h := hx.inStep m
  cases hr : x m with
  | ok a m' =>
    rw [hr] at h hkeeps
    rw [run_outcome_ok hr, run_outcome_ok h]
    exact (hok a hkeeps.1).inStep m'
  | error e m' =>
    rw [hr] at h
    rw [run_outcome_error hr]
    cases e with
    | raised e =>
      rw [run_outcome_error h]
      exact (herror (.raised e) trivial rfl).inStep m'
    | thrown v =>
      rw [run_outcome_error h]
      exact (herror (.thrown v) v.holds_any rfl).inStep m'
    | endless =>
      rw [run_outcome_error h, (hfinal .endless rfl).1, (hfinal .endless rfl).2]
      exact rfl
    | exhausted =>
      rw [(hfinal .exhausted rfl).1]
      trivial
    | timeout s =>
      -- No handler sees the timeout in the first run; the second run may come to any handler.
      obtain ⟨hzero, hm', htrails⟩ := h
      rw [(hfinal (.timeout s) rfl).1]
      refine ⟨hzero, hm', htrails.outcome hx.right (fun a ha => (hok a ha).right) ?_ ?_⟩
      · exact fun e he hne => (herror e he hne).right
      · exact fun e he => (hfinal e he).2

/-- Loops whose rounds are bounded by the checkpoints that are left: the second one may have `d` rounds
more. -/
theorem loop {σ : Type} {f g : Nat → σ → Run α} {F G : (σ → Run α) → σ → Run α}
    (hf0 : ∀ s, f 0 s = throw .exhausted) (hg0 : ∀ s, g 0 s = throw .exhausted)
    (hf : ∀ n s, f (n + 1) s = F (f n) s) (hg : ∀ n s, g (n + 1) s = G (g n) s)
    (hstep : ∀ x y, (∀ s, Outlasts d V (x s) (y s)) → ∀ s, Outlasts d V (F x s) (G y s)) (s : σ) :
    Outlasts d V (Run.rounds >>= fun n => f n s) (Run.rounds >>= fun n => g n s) := by
  have hkeeps (n : Nat) (s : σ) : Keeps Any V (g n s) := by
    refine Keeps.loop hg0 hg (fun y hy s => ?_) n s
    exact (hstep (fun _ => throw .exhausted) y (fun s => exhausted (hy s)) s).right
  have hrounds (n : Nat) (s : σ) : Outlasts d V (f n s) (g (n + d) s) := by
    -- By induction on the rounds of the first loop; the second one keeps its `d` more to the end.
    induction n generalizing s with
    | zero =>
      rw [hf0]
      exact exhausted (hkeeps _ s)
    | succ n ih =>
      rw [hf, Nat.add_right_comm, hg]
      exact hstep (f n) (g (n + d)) ih s
  refine ⟨fun m => (hrounds (m.checkpoints + 1) s).left m, fun m => hkeeps _ s m, fun m => ?_⟩
  have h := (hrounds (m.checkpoints + 1) s).inStep m
  rw [Nat.add_right_comm] at h
  exact h

end Outlasts

def outlasting (d : Nat) : Simulation Any Unit where
  Rel _ _ V x y := Outlasts d V x y
  After _ _ := True
  Inside _ _ := True
  Effects _ := True
  Reads _ := True
  faults := plainFaults Any
  thrown he := Outlasts.thrown he
  compositional _ := ⟨Outlasts.pure, Outlasts.bind⟩
  quiet hx := Outlasts.steady hx.steady
  steady _ hx _ := Outlasts.steady (hx.mono fun _ _ => trivial)
  prompt _ := Outlasts.steady (Steady.prompt.mono fun _ _ => trivial)
  later _ hx := hx
  checkpoint hx := Outlasts.checkpoint (hx () trivial)
  nested hx := Outlasts.nested (hx () trivial)
  outcome hx hok herror hfinal := Outlasts.outcome hx hok herror hfinal
  loop hf0 hg0 hf hg hstep :=
    Outlasts.loop hf0 hg0 hf hg fun x y hxy => hstep () (Or.inl rfl) x y fun _ _ => hxy

theorem outlasting_runsTimers (d : Nat) : (outlasting d).RunsTimers where
  waiting :=
    ⟨fun m => ⟨trivial, m.reaches_refl⟩, fun m => ⟨trivial, m.reaches_refl⟩, fun _ => rfl⟩
  next _ := Outlasts.steady Steady.nextTimer?

/-- Evaluation with more checkpoints, and with more depth, is in step with evaluation without them. -/
theorem evaluator_outlasts (d n k : Nat) :
    EvaluatorsRelated (outlasting d) () Any (evaluator n) (evaluator (k + n)) := by
  have h := evaluator_keeps Any (fun _ _ => trivial) k
  -- At no depth the first evaluator is cut off, so the second one need only take nothing back.
  have hzero (i : Unit) : EvaluatorsRelated (outlasting d) i Any (evaluator 0) (evaluator k) :=
    { eval := fun e scope he => Outlasts.exhausted (h.eval e scope he)
      assign := fun e v scope he ht hv => Outlasts.exhausted (h.assign e v scope he ht hv)
      exec := fun s scope hs => Outlasts.exhausted (h.exec s scope hs)
      call := fun hc f receiver arguments hf hr ha =>
        Outlasts.exhausted (h.call hc f receiver arguments hf hr ha)
      construct := fun hc f arguments label hf ha =>
        Outlasts.exhausted (h.construct hc f arguments label hf ha)
      parts := fun _ _ _ _ => trivial
      functions := fun _ _ => trivial
      declared := fun _ _ => trivial }
  exact evaluators_related trivial (fun _ _ _ => trivial) (fun _ _ _ => trivial) hzero n ()

/-- The depth that a script may need grows with the checkpoints. -/
theorem depthBound_add (n d : Nat) (statements : List Stmt) :
    depthBound (n + d) statements =
      d * (statementsHeight statements + 3) + depthBound n statements := by
  unfold depthBound
  rw [show n + d + 2 = d + (n + 2) by omega, Nat.add_mul]

/-- A whole run with `d` more checkpoints is in step with the run without them. -/
theorem program_inStep (statements : List Stmt) (stdin : String) (n d : Nat) :
    InStep d (Run.program statements (Machine.start stdin n))
      (Run.program statements (Machine.start stdin (n + d))) := by
  have h := (evaluator_outlasts d (depthBound (n + 1) statements)
    (d * (statementsHeight statements + 3))).programBy (outlasting_runsTimers d) trivial statements
    fun _ _ => trivial
  rw [← depthBound_add, Nat.add_right_comm] at h
  exact h.inStep (Machine.start stdin n)

/-- Around the store a run with more checkpoints goes on from where the run without them has ended. -/
theorem program_leads_on (statements : List Stmt) (stdin : String) (n d : Nat) :
    (finalState (Run.program statements (Machine.start stdin n))).outside.Leads Any
      (finalState (Run.program statements (Machine.start stdin (n + d)))).outside := by
  have hstep := program_inStep statements stdin n d
  have hreturns := program_not_cutOff statements stdin n
  cases hr : Run.program statements (Machine.start stdin n) with
  | ok a m =>
    rw [hr] at hstep
    rw [show Run.program statements (Machine.start stdin (n + d)) = _ from hstep]
    exact .refl m.outside
  | error e m =>
    rw [hr] at hstep hreturns
    cases e with
    | exhausted => exact absurd ⟨m, rfl⟩ hreturns
    | timeout s =>
      obtain ⟨-, hm, htrails⟩ := hstep
      have ho : m.outside = s.outside := by
        rw [hm]
        rfl
      rw [show (finalState (.error (.timeout s) m : EStateM.Result Fault Machine Unit)) = m from rfl, ho]
      exact htrails.outside
    | _ =>
      rw [show Run.program statements (Machine.start stdin (n + d)) = _ from hstep]
      exact .refl m.outside

/-- The states that a run comes to with more and more checkpoints lie on one history. -/
theorem program_history (statements : List Stmt) (stdin : String) :
    ∃ history : Nat → List Command, (∀ n, history n <+: history (n + 1)) ∧
      ∀ n, (finalState (Run.program statements (Machine.start stdin n))).outside =
        (Machine.start stdin n).outside.run (history n) := by
  have hfirst := (program_reaches statements (Machine.start stdin 0)).final.outside
  obtain ⟨cs, hcs⟩ := Classical.skolem.mp fun n => program_leads_on statements stdin n 1
  obtain ⟨first, -, hfirst⟩ := hfirst
  let history (n : Nat) : List Command := n.rec first fun n before => before ++ cs n
  refine ⟨history, fun n => List.prefix_append _ _, fun n => ?_⟩
  -- The outside of the state at the start does not depend on the checkpoints.
  induction n with
  | zero => exact hfirst
  | succ n ih =>
    rw [(hcs n).2, ih]
    exact (Outside.run_append _ (history n) (cs n)).symm

/-- How many checkpoints a run came to of which `n` could succeed: those that did, and the one that did not
if the time was up. -/
def checkpointsReached (n : Nat) {α : Type} : EStateM.Result Fault Machine α → Nat
  | .ok _ m => n - m.checkpoints
  | .error (.timeout _) _ => n + 1
  | .error _ m => n - m.checkpoints

/-- A run that goes on where another is out of time reaches more checkpoints. -/
theorem lt_checkpointsReached_of_ranOn {n d : Nat} {α : Type} {r : EStateM.Result Fault Machine α}
    (h : RanOn d r) : n < checkpointsReached (n + d) r := by
  cases r with
  | ok a m =>
    have hlt : m.checkpoints < d := h
    change n < n + d - m.checkpoints
    omega
  | error e m =>
    have hother (hlt : m.checkpoints < d) : n < n + d - m.checkpoints := by omega
    cases e with
    | timeout s =>
      change n < n + d + 1
      omega
    | _ => exact hother (h.resolve_left id)

theorem evaluateWithin_of_ok {source stdin : String} {allowance : Nat} (timeout : String)
    {statements : List Stmt} {m : Machine} (hp : parseProgram source = .ok statements)
    (hr : Run.program statements (Machine.start stdin allowance) = .ok () m) :
    evaluateWithin source stdin allowance timeout = some (m.draft source) := by
  unfold evaluateWithin
  rw [hp]
  dsimp only
  rw [hr]

theorem evaluateWithin_of_error {source stdin : String} {allowance : Nat} (timeout : String)
    {statements : List Stmt} {e : Fault} {m : Machine} (hp : parseProgram source = .ok statements)
    (hr : Run.program statements (Machine.start stdin allowance) = .error e m) :
    evaluateWithin source stdin allowance timeout =
      (e.report? timeout m.heap).map fun text => (m.draft source).fail text := by
  unfold evaluateWithin
  rw [hp]
  dsimp only
  rw [hr]

/-- A run is compared with the run that has `d` checkpoints more. If that one comes to at most `n`
checkpoints, the two are the same but for the checkpoints that are left. Otherwise the run ends with the
timeout, in the state of the checkpoint that failed, out of which all calls have been left; what it has
printed is where the output of the other one begins, and its report is the timeout message. -/
theorem timeout_cuts_cleanly (statements : List Stmt) (stdin : String) (n d : Nat) :
    (checkpointsReached (n + d) (Run.program statements (Machine.start stdin (n + d))) ≤ n →
      Run.program statements (Machine.start stdin (n + d)) =
        onState (fun m => m.plus d) (Run.program statements (Machine.start stdin n))) ∧
    (n < checkpointsReached (n + d) (Run.program statements (Machine.start stdin (n + d))) →
      ∃ m : Machine, m.checkpoints = 0 ∧
        Run.program statements (Machine.start stdin n) = .error (.timeout m) (m.atDepth 0) ∧
        (finalState (Run.program statements (Machine.start stdin (n + d)))).transcript.Extends
          m.transcript ∧
        ∀ source budget, parseProgram source = .ok statements → budget.checkpoints = n →
          evaluate source stdin budget =
            some (((m.atDepth 0).draft source).fail budget.timeoutMessage)) := by
  have hstep := program_inStep statements stdin n d
  have hreaches := program_reaches statements (Machine.start stdin n)
  have hreturns := program_not_cutOff statements stdin n
  cases hr : Run.program statements (Machine.start stdin n) with
  | ok a m =>
    -- The shorter run ends by itself, with all its checkpoints reached and `d` more left in the longer one.
    rw [hr] at hstep
    rw [show Run.program statements (Machine.start stdin (n + d)) = _ from hstep]
    refine ⟨fun _ => rfl, fun hlt => ?_⟩
    change n < n + d - (m.checkpoints + d) at hlt
    omega
  | error e m =>
    rw [hr] at hstep hreaches hreturns
    have hplain (h : Run.program statements (Machine.start stdin (n + d)) = .error e (m.plus d))
        (he : ¬ e.IsTimeout) :
        ¬ n < checkpointsReached (n + d) (Run.program statements (Machine.start stdin (n + d))) := by
      rw [h]
      cases e with
      | timeout s => exact absurd trivial he
      | _ =>
        change ¬ n < n + d - (m.checkpoints + d)
        omega
    cases e with
    | exhausted => exact absurd ⟨m, rfl⟩ hreturns
    | timeout s =>
      -- Every call has been left at the end, so the state is the one at the failing checkpoint but for that.
      obtain ⟨hzero, hm, htrails⟩ := hstep
      have hlt := lt_checkpointsReached_of_ranOn (n := n) htrails.beyond
      have hdepth : m.callDepth = 0 := hreaches.2.callDepth
      rw [hdepth] at hm
      refine ⟨fun hle => absurd hlt (Nat.not_lt_of_le hle), fun _ => ?_⟩
      refine ⟨s, hzero, by rw [hm], htrails.transcript, fun source budget hparse hbudget => ?_⟩
      rw [← hbudget, hm] at hr
      exact evaluateWithin_of_error budget.timeoutMessage hparse hr
    | _ =>
      refine ⟨fun _ => hstep, fun hlt => absurd hlt (hplain hstep id)⟩

end Snippet.Script
