import Snippet.Proofs.CallCommand
import Snippet.Proofs.CallNesting

/-!
Which calls a run makes. Every call passes a checkpoint of its own, so a run that is given no more checkpoints
than it passes before a call comes to that call and is out of time there. If a timeout at a call tells of the
call, runs with more and more checkpoints tell of all of them. With one checkpoint more a run makes the call
that it had no time for before, and comes to the next one; around the store it does nothing else.
-/

namespace Snippet.Script

abbrev Teller := Machine → Value → List Value → Machine

namespace Teller

def plain : Teller := fun m _ _ => m

def naming : Teller := fun m f arguments =>
  { m with
    timers :=
      { m.timers with
        pending :=
          { id := 0, due := 0.0, order := 0, callback := f, arguments, interval := none } ::
            m.timers.pending } }

end Teller

def Evaluator.telling (tell : Teller) (ev : Evaluator) : Evaluator :=
  -- Evaluation in which a call that does something around the store and finds no checkpoint left is
  -- told.
  { ev with
    call := fun f receiver arguments m =>
      if f.hasEffect = true ∧ m.checkpoints = 0 then .error (.timeout (tell m f arguments)) m
      else ev.call f receiver arguments m }

def tellingEvaluator (tell : Teller) : Nat → Evaluator
  | 0 => evaluator 0
  | n + 1 => (tellingEvaluator tell n).layer.telling tell

def toldCall? (told final : Machine) : Option FunctionCall :=
  -- The call that a timeout tells of: in the state that it tells there is a timer more than at the
  -- end.
  match told.timers.pending with
  | [] => none
  | t :: pending =>
    if pending.length = final.timers.pending.length then
      some ⟨t.callback, t.arguments, { told with timers := { told.timers with pending } }⟩
    else none

def callOf? {α : Type} : EStateM.Result Fault Machine α → Option FunctionCall
  | .error (.timeout s) m => toldCall? s m
  | _ => none

theorem callOf?_error {α β : Type} (e : Fault) (m : Machine) :
    callOf? (.error e m : EStateM.Result Fault Machine α) =
      callOf? (.error e m : EStateM.Result Fault Machine β) := by
  cases e <;> rfl

theorem toldCall?_self (m : Machine) : toldCall? m m = none := by
  unfold toldCall?
  cases m.timers.pending with
  | nil => rfl
  | cons t pending => exact if_neg (Nat.ne_of_lt (Nat.lt_succ_self _))

theorem toldCall?_naming (m : Machine) (f : Value) (arguments : List Value) :
    toldCall? (Teller.naming m f arguments) m = some ⟨f, arguments, m⟩ := if_pos rfl

theorem Evaluator.call_telling (tell : Teller) (ev : Evaluator) {f : Value} {m : Machine}
    (h : ¬ (f.hasEffect = true ∧ m.checkpoints = 0)) (receiver : Value) (arguments : List Value) :
    (ev.telling tell).call f receiver arguments m = ev.call f receiver arguments m :=
  if_neg h

theorem Evaluator.call_telling_late (tell : Teller) (ev : Evaluator) {f : Value} {m : Machine}
    (hf : f.hasEffect = true) (hm : m.checkpoints = 0) (receiver : Value) (arguments : List Value) :
    (ev.telling tell).call f receiver arguments m = .error (.timeout (tell m f arguments)) m :=
  if_pos ⟨hf, hm⟩

theorem run_call_builtin (ev : Evaluator) (b : Builtin) (identity : Nat) (receiver : Value)
    (arguments : List Value) :
    Run.call ev (.function (.builtin b) identity) receiver arguments =
      (Run.checkpoint >>= fun _ => Run.callBuiltin ev.call b arguments) := rfl

/-- Where timeouts at calls are told like others, evaluation is what it is. -/
theorem tellingEvaluator_plain (n : Nat) : tellingEvaluator .plain n = evaluator n := by
  induction n with
  | zero => rfl
  | succ n ih =>
    have hcall : ((evaluator n).layer.telling .plain).call = (evaluator n).layer.call := by
      funext f receiver arguments m
      by_cases h : f.hasEffect = true ∧ m.checkpoints = 0
      · obtain ⟨hf, hm⟩ := h
        rw [Evaluator.call_telling_late _ _ hf hm]
        cases f with
        | function f identity => exact (run_checkpoint_zero hm).symm
        | _ => exact Bool.noConfusion hf
      · exact Evaluator.call_telling _ _ h receiver arguments
    change (tellingEvaluator .plain n).layer.telling .plain = _
    rw [ih, evaluator_succ]
    change { (evaluator n).layer with call := ((evaluator n).layer.telling .plain).call } = _
    rw [hcall]

structure Machine.Later (m m' : Machine) : Prop where
  -- A state that comes after another one: where no checkpoint is left nothing happens around the
  -- store.
  checkpoints : m'.checkpoints ≤ m.checkpoints
  outside : m.checkpoints = 0 → m'.outside = m.outside

theorem Machine.later_refl (m : Machine) : m.Later m := ⟨Nat.le_refl _, fun _ => rfl⟩

theorem Machine.Later.trans {m m' m'' : Machine} (h : m.Later m') (h' : m'.Later m'') : m.Later m'' where
  checkpoints := Nat.le_trans h'.checkpoints h.checkpoints
  outside hm :=
    (h'.outside (Nat.le_zero.mp (hm ▸ h.checkpoints))).trans (h.outside hm)

def Lasts {α : Type} (V : α → Prop) (x : Run α) : Prop := ∀ m, Ends V Any m.Later (x m)

namespace Lasts

variable {α β : Type} {V : α → Prop} {W : β → Prop}

theorem pure {a : α} (ha : V a) : Lasts V (Pure.pure a) := fun m => ⟨ha, m.later_refl⟩

theorem thrown (e : Fault) : Lasts V (throw e) := fun m => ⟨trivial, m.later_refl⟩

theorem bind {x : Run α} {f : α → Run β} (hx : Lasts V x) (hf : ∀ a, V a → Lasts W (f a)) :
    Lasts W (x >>= f) :=
  fun m => (hx m).bind (fun _ _ => .trans) fun a m' ha _ => hf a ha m'

/-- Computations that only look at the state, or add to the heap, do nothing around the store anyway. -/
theorem quiet {x : Run α} (hx : Quiet Any V x) : Lasts V x := by
  intro m
  have hends := (hx.steady (P := Any) m m.holds_any).1
  have hout := hx.outside_eq m
  cases hr : x m with
  | ok a m' =>
    rw [hr] at hends hout
    exact ⟨hends.1, hends.2.2.checkpoints, fun _ => hout⟩
  | error e m' =>
    rw [hr] at hends hout
    exact ⟨trivial, hends.2.2.checkpoints, fun _ => hout⟩

/-- Whatever a checkpoint leads to happens only where one is left. -/
theorem after_checkpoint {x : Run α} (hx : ∀ m, Ends V Any (fun m' => m'.checkpoints ≤ m.checkpoints) (x m)) :
    Lasts V (Run.checkpoint >>= fun _ => x) := by
  intro m
  cases hn : m.checkpoints with
  | zero =>
    rw [run_checkpoint_zero hn]
    exact ⟨trivial, m.later_refl⟩
  | succ n =>
    rw [run_checkpoint_succ hn]
    refine (hx (m.allowing n)).imp (fun _ h => h) (fun _ h => h) fun m' h => ⟨?_, fun hzero => ?_⟩
    · exact hn ▸ Nat.le_succ_of_le h
    · exact absurd (hn.symm.trans hzero) (Nat.succ_ne_zero n)

theorem checkpoint {x : Run α} (hx : Lasts V x) : Lasts V (Run.checkpoint >>= fun _ => x) :=
  after_checkpoint fun m => (hx m).imp (fun _ h => h) (fun _ h => h) fun _ h => h.checkpoints

theorem nested {x : Run α} (hx : Lasts V x) : Lasts V (Run.nested x) := fun m =>
  Ends.nested trivial m.later_refl (fun _ h => ⟨h.checkpoints, h.outside⟩) (hx _)

theorem outcome {x : Run α} {f : Except Fault α → Run β} (hx : Lasts V x)
    (hok : ∀ a, V a → Lasts W (f (.ok a)))
    (herror : ∀ e, e.Plain Any → e.isFinal = false → Lasts W (f (.error e)))
    (hfinal : ∀ e, e.isFinal = true → f (.error e) = throw e) : Lasts W (Run.outcome x >>= f) := fun m =>
  (hx m).outcome (fun _ _ => .trans) (fun a m' ha _ => hok a ha m')
    (fun e m' _ he _ => herror e (Fault.plain_of_not_final he) he m') hfinal

end Lasts

theorem ranOn_of_lt {d : Nat} {α : Type} {r : EStateM.Result Fault Machine α}
    (h : (finalState r).checkpoints < d) : RanOn d r := by
  cases r with
  | ok a m => exact h
  | error e m => exact Or.inr h

structure RunsBeyond (d : Nat) (o : Outside) {α : Type} (r : EStateM.Result Fault Machine α) : Prop where
  -- A result of a run that has gone beyond the checkpoints of another one, with nothing more done
  -- around the store than what is given.
  outside : (finalState r).outside = o
  beyond : RanOn d r

/-- How the result with `d` more checkpoints goes with the result without them: it is the same, unless the
latter is a timeout. Then the call is made that the timeout tells of, if it tells of one. -/
def Next (d : Nat) {α : Type} (r r' : EStateM.Result Fault Machine α) : Prop :=
  match r with
  | .ok a m => r' = .ok a (m.plus d)
  | .error (.timeout s) m =>
    (∀ c, toldCall? s m = some c → c.state.outside = m.outside ∧ c.callee.hasEffect = true) ∧
      RunsBeyond d (m.outside.run (((toldCall? s m).bind FunctionCall.command?).toList.take d)) r'
  | .error .exhausted _ => d = 0 → CutOff r'
  | .error e m => r' = .error e (m.plus d)

/-- A timeout that tells of no call. -/
theorem next_late {d : Nat} {α : Type} {m : Machine} {r' : EStateM.Result Fault Machine α}
    (h : RunsBeyond d m.outside r') : Next d (.error (.timeout m) m) r' := by
  have hnone := toldCall?_self m
  refine ⟨fun c hc => ?_, ?_⟩
  · rw [hnone] at hc
    cases hc
  · rw [hnone, Option.bind_none, Option.toList_none, List.take_nil]
    exact h

/-- A steady computation comes to the same with more checkpoints. -/
theorem next_steady {d : Nat} {P : Command → Prop} {α : Type} {V : α → Prop} {x : Run α}
    (hx : Steady Any P V x) (m : Machine) : Next d (x m) (x (m.plus d)) := by
  have hends := (hx m m.holds_any).1
  rw [hx.eq_plus m d]
  cases hr : x m with
  | ok a m' => rfl
  | error e m' =>
    rw [hr] at hends
    cases e with
    | timeout s => exact hends.1.elim
    | exhausted => exact hends.1.elim
    | _ => rfl

structure Continues (d : Nat) {α : Type} (V : α → Prop) (x y : Run α) : Prop where
  left : Lasts V x
  right : Lasts V y
  next : ∀ m, Next d (x m) (y (m.plus d))

namespace RunsBeyond

variable {d : Nat} {o : Outside} {α β : Type} {V : α → Prop} {W : β → Prop}

theorem of_lasts {x : Run α} {m : Machine} (hx : Lasts V x) (hm : m.checkpoints = 0) (hd : 0 < d) :
    RunsBeyond d m.outside (x m) := by
  have h := (hx m).final
  have hle := h.checkpoints
  exact ⟨h.outside hm, ranOn_of_lt (by omega)⟩

variable (hd : d ≤ 1)
include hd

/-- With one checkpoint more there is none left where the other run was out of time. -/
theorem of_state {x : Run α} {m : Machine} (hx : Lasts V x) (ho : m.outside = o) (hm : m.checkpoints < d) :
    RunsBeyond d o (x m) := by
  rw [← ho]
  exact of_lasts hx (by omega) (by omega)

/-- So whatever comes behind does nothing around the store. -/
theorem bind {x : Run α} {f : α → Run β} {m : Machine} (h : RunsBeyond d o (x m)) (hx : Lasts V x)
    (hf : ∀ a, V a → Lasts W (f a)) : RunsBeyond d o ((x >>= f) m) := by
  have hlasts := hx m
  cases hr : x m with
  | ok a m' =>
    rw [hr] at h hlasts
    rw [run_bind_ok hr]
    exact of_state hd (hf a hlasts.1) h.outside h.beyond
  | error e m' =>
    rw [hr] at h
    rw [run_bind_error hr]
    exact ⟨h.outside, h.beyond⟩

/-- Handling an outcome does nothing more around the store, since no checkpoint is left. -/
theorem outcome {x : Run α} {f : Except Fault α → Run β} {m : Machine} (h : RunsBeyond d o (x m))
    (hx : Lasts V x) (hok : ∀ a, V a → Lasts W (f (.ok a)))
    (herror : ∀ e, e.Plain Any → e.isFinal = false → Lasts W (f (.error e)))
    (hfinal : ∀ e, e.isFinal = true → f (.error e) = throw e) : RunsBeyond d o ((Run.outcome x >>= f) m) := by
  have hlasts := hx m
  cases hr : x m with
  | ok a m' =>
    rw [hr] at h hlasts
    rw [run_outcome_ok hr]
    exact of_state hd (hok a hlasts.1) h.outside h.beyond
  | error e m' =>
    rw [hr] at h
    rw [run_outcome_error hr]
    cases hend : e.isFinal with
    | true =>
      rw [hfinal e hend]
      exact ⟨h.outside, h.beyond⟩
    | false =>
      -- A fault that the script may handle is no timeout.
      have hbeyond : m'.checkpoints < d := h.beyond.resolve_left (e.not_isTimeout_of_not_final hend)
      exact of_state hd (herror e (Fault.plain_of_not_final hend) hend) h.outside hbeyond

omit hd in
theorem atDepth {r : EStateM.Result Fault Machine α} (h : RunsBeyond d o r) (depth : Machine → Nat) :
    RunsBeyond d o (onState (fun m => m.atDepth (depth m)) r) := by
  cases r with
  | ok a m => exact ⟨h.outside, h.beyond⟩
  | error e m => exact ⟨h.outside, h.beyond⟩

end RunsBeyond

namespace Continues

variable {d : Nat} {α β : Type} {V : α → Prop} {W : β → Prop}

theorem pure {a : α} (ha : V a) : Continues d V (Pure.pure a) (Pure.pure a) :=
  ⟨Lasts.pure ha, Lasts.pure ha, fun _ => rfl⟩

theorem exhausted {y : Run α} (hy : Lasts V y) (hd : d = 0 → ∀ m, CutOff (y m)) :
    Continues d V (throw .exhausted) y :=
  ⟨Lasts.thrown .exhausted, hy, fun _ hzero => hd hzero _⟩

theorem thrown {e : Fault} (he : e.Plain Any) : Continues d V (throw e) (throw e) := by
  refine ⟨Lasts.thrown e, Lasts.thrown e, fun m => ?_⟩
  cases e with
  | timeout s => exact he.elim
  | exhausted => exact he.elim
  | _ => rfl

theorem quiet {x : Run α} (hx : Quiet Any V x) : Continues d V x x :=
  ⟨Lasts.quiet hx, Lasts.quiet hx, next_steady (hx.steady (P := Any))⟩

section More

variable (hd : d ≤ 1)
include hd

/-- Where the first part is out of time, whatever the second one does finds no checkpoint. -/
theorem bind {x y : Run α} {f g : α → Run β} (hx : Continues d V x y)
    (hf : ∀ a, V a → Continues d W (f a) (g a)) : Continues d W (x >>= f) (y >>= g) := by
  refine ⟨hx.left.bind fun a ha => (hf a ha).left, hx.right.bind fun a ha => (hf a ha).right, fun m => ?_⟩
  have hlasts := hx.left m
  have h := hx.next m
  cases hr : x m with
  | ok a m' =>
    rw [hr] at h hlasts
    rw [run_bind_ok hr, run_bind_ok h]
    exact (hf a hlasts.1).next m'
  | error e m' =>
    rw [hr] at h
    rw [run_bind_error hr]
    cases e with
    | timeout s => exact ⟨h.1, h.2.bind hd hx.right fun a ha => (hf a ha).right⟩
    | exhausted => exact fun hzero => (h hzero).bind g
    | _ => exact run_bind_error h

/-- Where the first run is out of time the second one passes its last checkpoint. -/
theorem checkpoint {x y : Run α} (hx : Continues d V x y) :
    Continues d V (Run.checkpoint >>= fun _ => x) (Run.checkpoint >>= fun _ => y) := by
  refine ⟨hx.left.checkpoint, hx.right.checkpoint, fun m => ?_⟩
  cases hn : m.checkpoints with
  | succ n =>
    have hplus : (m.plus d).checkpoints = n + d + 1 := by
      change m.checkpoints + d = n + d + 1
      omega
    rw [run_checkpoint_succ hn, run_checkpoint_succ hplus]
    exact hx.next (m.allowing n)
  | zero =>
    have hplus : (m.plus d).checkpoints = d := by
      change m.checkpoints + d = d
      omega
    rw [run_checkpoint_zero hn]
    refine next_late ?_
    cases d with
    | zero =>
      rw [run_checkpoint_zero hplus]
      exact ⟨rfl, Or.inl trivial⟩
    | succ d =>
      rw [run_checkpoint_succ hplus]
      exact RunsBeyond.of_lasts (m := (m.plus (d + 1)).allowing d) hx.right (Nat.le_zero.mp (Nat.le_of_succ_le_succ hd))
        d.succ_pos

omit hd in
/-- Entering and leaving a call changes how many calls are in progress, and nothing else. -/
theorem nested {x y : Run α} (hx : Continues d V x y) : Continues d V (Run.nested x) (Run.nested y) := by
  refine ⟨hx.left.nested, hx.right.nested, fun m => ?_⟩
  by_cases hdepth : maxCallDepth ≤ m.callDepth
  · rw [run_nested_full hdepth, run_nested_full (m := m.plus d) hdepth]
    exact rfl
  · have hroom : m.callDepth < maxCallDepth := Nat.lt_of_not_le hdepth
    rw [run_nested hroom, run_nested (m := m.plus d) hroom]
    have h := hx.next (m.atDepth (m.callDepth + 1))
    change Next d (x (m.atDepth (m.callDepth + 1)))
      (y ((m.plus d).atDepth ((m.plus d).callDepth + 1))) at h
    cases hr : x (m.atDepth (m.callDepth + 1)) with
    | ok a m' =>
      rw [hr] at h
      rw [show y _ = _ from h]
      rfl
    | error e m' =>
      rw [hr] at h
      cases e with
      | timeout s => exact ⟨h.1, h.2.atDepth _⟩
      | exhausted =>
        intro hzero
        obtain ⟨m'', hcut⟩ := h hzero
        rw [hcut]
        exact ⟨_, rfl⟩
      | _ =>
        rw [show y _ = _ from h]
        rfl

/-- A timeout is not handled, so what handles an outcome sees the same one on both sides. -/
theorem outcome {x y : Run α} {f g : Except Fault α → Run β} (hx : Continues d V x y)
    (hok : ∀ a, V a → Continues d W (f (.ok a)) (g (.ok a)))
    (herror : ∀ e, e.Plain Any → e.isFinal = false → Continues d W (f (.error e)) (g (.error e)))
    (hfinal : ∀ e, e.isFinal = true → f (.error e) = throw e ∧ g (.error e) = throw e) :
    Continues d W (Run.outcome x >>= f) (Run.outcome y >>= g) := by
  constructor
  · exact hx.left.outcome (fun a ha => (hok a ha).left) (fun e he hne => (herror e he hne).left)
      fun e he => (hfinal e he).1
  · exact hx.right.outcome (fun a ha => (hok a ha).right) (fun e he hne => (herror e he hne).right)
      fun e he => (hfinal e he).2
  intro m
  -- A handler only comes to outcomes that are not final; after a final one both sides stop.
  have hlasts := hx.left m
  have h := hx.next m
  cases hr : x m with
  | ok a m' =>
    rw [hr] at h hlasts
    rw [run_outcome_ok hr, run_outcome_ok h]
    exact (hok a hlasts.1).next m'
  | error e m' =>
    rw [hr] at h
    rw [run_outcome_error hr]
    cases e with
    | raised e =>
      rw [run_outcome_error h]
      exact (herror (.raised e) trivial rfl).next m'
    | thrown v =>
      rw [run_outcome_error h]
      exact (herror (.thrown v) v.holds_any rfl).next m'
    | endless =>
      rw [run_outcome_error h, (hfinal .endless rfl).1, (hfinal .endless rfl).2]
      rfl
    | exhausted =>
      rw [(hfinal .exhausted rfl).1]
      intro hzero
      obtain ⟨m'', hcut⟩ := h hzero
      rw [run_outcome_error hcut, (hfinal .exhausted rfl).2]
      exact ⟨_, rfl⟩
    | timeout s =>
      rw [(hfinal (.timeout s) rfl).1]
      -- The first one was stopped by a timeout, so the second one runs on alone.
      refine ⟨h.1, h.2.outcome hd hx.right (fun a ha => (hok a ha).right) ?_ ?_⟩
      · exact fun e he hne => (herror e he hne).right
      · exact fun e he => (hfinal e he).2

omit hd in
/-- Loops whose rounds are bounded by the checkpoints that are left. -/
theorem loop {σ : Type} {f g : Nat → σ → Run α} {F G : (σ → Run α) → σ → Run α}
    (hf0 : ∀ s, f 0 s = throw .exhausted) (hg0 : ∀ s, g 0 s = throw .exhausted)
    (hf : ∀ n s, f (n + 1) s = F (f n) s) (hg : ∀ n s, g (n + 1) s = G (g n) s)
    (hstep : ∀ x y, (∀ s, Continues d V (x s) (y s)) → ∀ s, Continues d V (F x s) (G y s)) (s : σ) :
    Continues d V (Run.rounds >>= fun n => f n s) (Run.rounds >>= fun n => g n s) := by
  -- Without a checkpoint more the loops have the same rounds, and are cut off together.
  have hboth (n : Nat) (s : σ) : Lasts V (g n s) ∧ (d = 0 → Continues d V (f n s) (g n s)) := by
    induction n generalizing s with
    | zero =>
      rw [hf0, hg0]
      exact ⟨Lasts.thrown _, fun _ => exhausted (Lasts.thrown _) fun _ m => ⟨m, rfl⟩⟩
    | succ n ih =>
      rw [hf, hg]
      by_cases hzero : d = 0
      · have h := hstep (f n) (g n) (fun s => (ih s).2 hzero) s
        exact ⟨h.right, fun _ => h⟩
      · have hcut (s : σ) : Continues d V (throw .exhausted) (g n s) :=
          exhausted (ih s).1 fun h => absurd h hzero
        exact ⟨(hstep (fun _ => throw .exhausted) (g n) hcut s).right, fun h => absurd h hzero⟩
  have hlasts (n : Nat) (s : σ) : Lasts V (g n s) := (hboth n s).1
  have hrounds (n : Nat) (s : σ) : Continues d V (f n s) (g (n + d) s) := by
    induction n generalizing s with
    | zero =>
      rw [hf0]
      refine exhausted (hlasts _ s) fun hzero m => ?_
      rw [hzero, hg0]
      exact ⟨m, rfl⟩
    | succ n ih =>
      rw [hf, Nat.add_right_comm, hg]
      exact hstep (f n) (g (n + d)) ih s
  refine ⟨fun m => (hrounds (m.checkpoints + 1) s).left m, fun m => hlasts _ s m, fun m => ?_⟩
  have h := (hrounds (m.checkpoints + 1) s).next m
  rw [Nat.add_right_comm] at h
  exact h

end More

end Continues

def continuing (d : Nat) (hd : d ≤ 1) : Simulation Any Unit where
  -- Going on where another run is out of time, as a relation that evaluation respects as long as it
  -- does nothing around the store.
  Rel _ _ V x y := Continues d V x y
  After _ _ := True
  Inside _ _ := True
  Effects _ := False
  Reads _ := False
  faults := plainFaults Any
  thrown he := Continues.thrown he
  compositional _ := ⟨Continues.pure, Continues.bind hd⟩
  quiet hx := Continues.quiet hx
  steady := False.elim
  prompt := False.elim
  later _ hx := hx
  checkpoint hx := Continues.checkpoint hd (hx () trivial)
  nested hx := Continues.nested (hx () trivial)
  outcome hx hok herror hfinal := Continues.outcome hd hx hok herror hfinal
  loop hf0 hg0 hf hg hstep :=
    Continues.loop hf0 hg0 hf hg fun x y hxy => hstep () (Or.inl rfl) x y fun _ _ => hxy

theorem exists_builtin {f : Value} (hf : f.hasEffect = true) :
    ∃ b identity, f = .function (.builtin b) identity ∧ b.hasEffect = true := by
  cases f with
  | function f identity =>
    cases f with
    | builtin b => exact ⟨b, identity, rfl, hf⟩
    | _ => exact Bool.noConfusion hf
  | _ => exact Bool.noConfusion hf

theorem hasEffect_of_isPrompt {f : Value} (hf : f.isPrompt = true) : f.hasEffect = true := by
  obtain ⟨identity, rfl⟩ := Value.exists_prompt hf
  rfl

section Telling

variable {tell : Teller} {f : Value} (receiver : Value) (arguments : List Value)

/-- A call that does something around the store does it only after its checkpoint. -/
theorem Lasts.telling (hf : f.hasEffect = true) (ev : Evaluator) :
    Lasts (Value.Holds Any) ((ev.layer.telling tell).call f receiver arguments) := by
  intro m
  by_cases hm : m.checkpoints = 0
  · rw [Evaluator.call_telling_late _ _ hf hm]
    exact ⟨trivial, m.later_refl⟩
  · obtain ⟨b, identity, rfl, hb⟩ := exists_builtin hf
    rw [Evaluator.call_telling _ _ fun h => hm h.2]
    have hsteady := Steady.callBuiltin ev.call hb arguments
    refine after_checkpoint (fun m => ?_) m
    exact (hsteady m m.holds_any).1.imp (fun _ h => h) (fun _ _ => trivial) fun _ h => h.2.checkpoints

/-- A call that does something around the store does that, and nothing else, where it finds the checkpoint that
it has not found before. -/
theorem Continues.telling {d : Nat} (hd : d ≤ 1) (hf : f.hasEffect = true) (ev ev' : Evaluator) :
    Continues d (Value.Holds Any) ((ev.layer.telling .naming).call f receiver arguments)
      ((ev'.layer.telling tell).call f receiver arguments) := by
  refine ⟨Lasts.telling receiver arguments hf ev, Lasts.telling receiver arguments hf ev', fun m => ?_⟩
  obtain ⟨b, identity, rfl, hb⟩ := exists_builtin hf
  have hsteady := Steady.callBuiltin ev.call hb arguments
  have hcall : Run.callBuiltin ev'.call b arguments = Run.callBuiltin ev.call b arguments := by
    cases b <;> first | rfl | exact Bool.noConfusion hb
  have hplus : (m.plus d).checkpoints = m.checkpoints + d := rfl
  cases hn : m.checkpoints with
  | zero =>
    -- Without a checkpoint the first one is stopped here and tells the call.
    rw [Evaluator.call_telling_late _ _ hf hn]
    rw [hn, Nat.zero_add] at hplus
    refine ⟨fun c hc => ?_, ?_⟩
    · rw [toldCall?_naming] at hc
      obtain rfl := Option.some.inj hc
      exact ⟨rfl, hf⟩
    · rw [toldCall?_naming, Option.bind_some]
      obtain rfl | rfl : d = 0 ∨ d = 1 := by omega
      · rw [Evaluator.call_telling_late _ _ hf hplus]
        exact ⟨rfl, Or.inl trivial⟩
      · have hall {α : Type} (x : Option α) : x.toList.take 1 = x.toList := by cases x <;> rfl
        rw [Evaluator.call_telling _ _ fun h => absurd (hplus.symm.trans h.2) Nat.one_ne_zero, hall]
        change RunsBeyond 1 _ (Run.call ev' (.function (.builtin b) identity) receiver arguments (m.plus 1))
        have hsame : (m.plus 1).allowing 0 = m := by
          rw [← hn]
          rfl
        rw [run_call_builtin, run_checkpoint_succ hplus, hcall, hsame]
        refine ⟨outside_callBuiltin arguments m ev.call hb identity, ?_⟩
        exact ranOn_of_lt (Nat.lt_succ_of_le (hn ▸ (hsteady m m.holds_any).1.final.2.checkpoints))
  | succ n =>
    rw [hn, Nat.add_right_comm] at hplus
    rw [Evaluator.call_telling _ _ fun h => absurd (hn.symm.trans h.2) n.succ_ne_zero,
      Evaluator.call_telling _ _ fun h => absurd (hplus.symm.trans h.2) (Nat.succ_ne_zero _)]
    change Next d (Run.call ev (.function (.builtin b) identity) receiver arguments m)
      (Run.call ev' (.function (.builtin b) identity) receiver arguments (m.plus d))
    rw [run_call_builtin, run_call_builtin, run_checkpoint_succ hn, run_checkpoint_succ hplus, hcall]
    exact next_steady hsteady (m.allowing n)

end Telling

/-- Evaluation that names calls goes on, in whatever way they are told, where it is out of time; by induction
on the depth. -/
theorem tellingEvaluator_continues {d : Nat} (hd : d ≤ 1) (tell : Teller) (k : Nat) :
    EvaluatorsRelated (continuing d hd) () Any (tellingEvaluator .naming k) (tellingEvaluator tell k) := by
  induction k with
  | zero =>
    refine evaluator_zero_self ?_
    exact Continues.exhausted (Lasts.thrown _) fun _ m => ⟨m, rfl⟩
  | succ k ih =>
    refine ih.layerWith (fun _ _ _ _ => trivial) (fun _ _ _ _ => trivial) (fun _ _ _ _ => Or.inr trivial)
      (fun _ _ _ _ => trivial) (fun _ _ => trivial) (fun _ _ => trivial) ?_ ?_
    · intro _ f receiver arguments hf hr ha
      -- Only a call of a function with an effect is told; any other is a call one level further down.
      cases heffect : f.hasEffect with
      | true => exact Continues.telling receiver arguments hd heffect _ _
      | false =>
        have hcall : (continuing d hd).Rel () (Value.Holds Any)
            (Run.call (tellingEvaluator .naming k) f receiver arguments)
            (Run.call (tellingEvaluator tell k) f receiver arguments) :=
          EvaluatorsRelated.runCall hf hr ha (fun he => Bool.noConfusion (heffect.symm.trans he))
            (fun hp => Bool.noConfusion (heffect.symm.trans (hasEffect_of_isPrompt hp)))
            (fun _ _ _ _ _ => ⟨Any, ih, fun _ _ _ _ => trivial⟩) fun _ _ _ => ih.call trivial
        have hplain (tell : Teller) (ev : Evaluator) :
            (ev.layer.telling tell).call f receiver arguments = Run.call ev f receiver arguments := by
          funext m
          exact Evaluator.call_telling _ _ (fun h => Bool.noConfusion (heffect.symm.trans h.1)) _ _
        change Continues d _ (((tellingEvaluator .naming k).layer.telling .naming).call f receiver arguments)
          (((tellingEvaluator tell k).layer.telling tell).call f receiver arguments)
        rw [hplain, hplain]
        exact hcall
    · intro _ f arguments label hf ha
      exact EvaluatorsRelated.runConstruct (C := continuing d hd) hf ha label
        fun _ _ _ _ _ => ⟨Any, ih, fun _ _ _ _ => trivial⟩

end Snippet.Script
