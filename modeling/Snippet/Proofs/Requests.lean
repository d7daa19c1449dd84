import Snippet.Proofs.CallNesting
import Snippet.Proofs.Timeout

/-!
How many lines a run asks for. Every call passes a checkpoint of its own, so the calls that ask for a line
are told apart by how many checkpoints they leave: a run asks for a line at a checkpoint if it is cut off
when asking is forbidden there. Where asking is allowed at more checkpoints, evaluation is the same, unless
it was cut off at one of these.
-/

namespace Snippet.Script

/-- Whether a value may be called. A call that asks for a line has to leave as many checkpoints as `asks`
allows; one that finds no checkpoint does not come to asking. -/
def Machine.mayCall (m : Machine) (asks : Nat → Bool) (f : Value) : Bool :=
  match f.isPrompt, m.checkpoints with
  | true, n + 1 => asks n
  | _, _ => true

def Evaluator.asking (asks : Nat → Bool) (ev : Evaluator) : Evaluator :=
  { ev with
    call := fun f receiver arguments m =>
      if m.mayCall asks f then ev.call f receiver arguments m else .error .exhausted m }

/-- Evaluation that may go `n` levels deep and asks for lines where it is allowed to. -/
def askingEvaluator (asks : Nat → Bool) : Nat → Evaluator
  | 0 => evaluator 0
  | n + 1 => (askingEvaluator asks n).layer.asking asks

def isCutOff {α : Type} : EStateM.Result Fault Machine α → Bool
  | .error .exhausted _ => true
  | _ => false

namespace Job

def runAsking (asks : Nat → Bool) (j : Job) : EStateM.Result Fault Machine Unit :=
  Run.programBy (askingEvaluator asks (depthBound (j.checkpoints + 1) j.statements)) j.statements
    (Machine.start j.stdin j.checkpoints)

/-- Whether the run asks for a line by a call that leaves `n` checkpoints. -/
def asksAt (j : Job) (n : Nat) : Bool := isCutOff (j.runAsking (· != n))

def requests (j : Job) : Nat := (List.range j.checkpoints).countP j.asksAt

end Job

theorem isCutOff_iff {α : Type} {r : EStateM.Result Fault Machine α} : isCutOff r = true ↔ CutOff r := by
  unfold CutOff
  cases r with
  | ok a m => exact ⟨nofun, nofun⟩
  | error e m =>
    cases e with
    | exhausted => exact ⟨fun _ => ⟨m, rfl⟩, fun _ => rfl⟩
    | _ => exact ⟨nofun, nofun⟩

def StoppedAt (T : Nat → Prop) {α : Type} (r : EStateM.Result Fault Machine α) : Prop :=
  ∃ m n, r = .error .exhausted m ∧ m.checkpoints = n + 1 ∧ T n

theorem StoppedAt.cutOff {T : Nat → Prop} {α : Type} {r : EStateM.Result Fault Machine α}
    (h : StoppedAt T r) : CutOff r := by
  obtain ⟨m, n, hr, -⟩ := h
  exact ⟨m, hr⟩

def SameUnlessStopped (T : Nat → Prop) {α : Type} (V : α → Prop) (x y : Run α) : Prop :=
  ∀ m : Machine, Ends V Any Any (y m) ∧ (StoppedAt T (x m) ∨ y m = x m)

namespace SameUnlessStopped

variable {T : Nat → Prop} {α β : Type} {V : α → Prop} {W : β → Prop}

theorem pure {a : α} (ha : V a) : SameUnlessStopped T V (Pure.pure a) (Pure.pure a) :=
  fun _ => ⟨⟨ha, trivial⟩, Or.inr rfl⟩

theorem thrown (e : Fault) : SameUnlessStopped T V (throw e) (throw e) :=
  fun _ => ⟨⟨trivial, trivial⟩, Or.inr rfl⟩

/-- A sequence is the same unless one of its halves was stopped. -/
theorem bind {x y : Run α} {f g : α → Run β} (hx : SameUnlessStopped T V x y)
    (hf : ∀ a, V a → SameUnlessStopped T W (f a) (g a)) :
    SameUnlessStopped T W (x >>= f) (y >>= g) := by
  intro m
  obtain ⟨hends, hstop | heq⟩ := hx m
  all_goals refine ⟨hends.bind (fun _ _ _ _ => trivial) fun a m' ha _ => (hf a ha m').1, ?_⟩
  · obtain ⟨m', n, hcut, hn⟩ := hstop
    exact Or.inl ⟨m', n, run_bind_error hcut, hn⟩
  · cases hr : x m with
    | error e m' =>
      rw [run_bind_error hr, run_bind_error (heq.trans hr)]
      exact Or.inr rfl
    | ok a m' =>
      rw [heq, hr] at hends
      rw [run_bind_ok hr, run_bind_ok (heq.trans hr)]
      exact (hf a hends.1 m').2

theorem steady {P : Command → Prop} {x : Run α} (hx : Steady Any P V x) : SameUnlessStopped T V x x := by
  intro m
  exact ⟨(hx m m.holds_any).1.imp (fun _ ha => ha) (fun _ _ => trivial) fun _ _ => trivial, Or.inr rfl⟩

/-- Behind a checkpoint that both of them pass, the two are the same unless they are stopped. -/
theorem checkpoint {x y : Run α} (hx : SameUnlessStopped T V x y) :
    SameUnlessStopped T V (Run.checkpoint >>= fun _ => x) (Run.checkpoint >>= fun _ => y) := by
  intro m
  cases hn : m.checkpoints with
  | zero =>
    rw [run_checkpoint_zero hn, run_checkpoint_zero hn]
    exact ⟨⟨trivial, trivial⟩, Or.inr rfl⟩
  | succ n =>
    rw [run_checkpoint_succ hn, run_checkpoint_succ hn]
    exact hx (m.allowing n)

/-- A call is the same unless what is done inside of it was stopped. -/
theorem nested {x y : Run α} (hx : SameUnlessStopped T V x y) :
    SameUnlessStopped T V (Run.nested x) (Run.nested y) := by
  intro m
  obtain ⟨hends, hsame⟩ := hx (m.atDepth (m.callDepth + 1))
  have hleft : Ends V Any Any (Run.nested y m) :=
    Ends.nested (S := fun _ _ => True) trivial trivial (fun _ _ => trivial) hends
  refine ⟨hleft, ?_⟩
  by_cases hfull : maxCallDepth ≤ m.callDepth
  · rw [run_nested_full hfull, run_nested_full hfull]
    exact Or.inr rfl
  · have hroom : m.callDepth < maxCallDepth := Nat.lt_of_not_le hfull
    rw [run_nested hroom, run_nested hroom]
    obtain hstop | heq := hsame
    · obtain ⟨m', n, hcut, hn⟩ := hstop
      rw [hcut]
      exact Or.inl ⟨_, n, rfl, hn⟩
    · rw [heq]
      exact Or.inr rfl

/-- Handling an outcome is the same unless what came to it was stopped, as a stop is final. -/
theorem outcome {x y : Run α} {f g : Except Fault α → Run β} (hx : SameUnlessStopped T V x y)
    (hok : ∀ a, V a → SameUnlessStopped T W (f (.ok a)) (g (.ok a)))
    (herror : ∀ e, e.Plain Any → e.isFinal = false →
      SameUnlessStopped T W (f (.error e)) (g (.error e)))
    (hfinal : ∀ e, e.isFinal = true → f (.error e) = throw e ∧ g (.error e) = throw e) :
    SameUnlessStopped T W (Run.outcome x >>= f) (Run.outcome y >>= g) := by
  intro m
  obtain ⟨hends, hsame⟩ := hx m
  -- What a handler comes to is not final, and such faults hold no function.
  have herror' (e : Fault) (he : e.isFinal = false) :
      SameUnlessStopped T W (f (.error e)) (g (.error e)) :=
    herror e (Fault.plain_of_not_final he) he
  refine ⟨hends.outcome (fun _ _ _ _ => trivial) (fun a m' ha _ => (hok a ha m').1)
    (fun e m' _ he _ => (herror' e he m').1) fun e he => (hfinal e he).2, ?_⟩
  obtain hstop | heq := hsame
  · -- The cut is handed on.
    obtain ⟨m', n, hcut, hn⟩ := hstop
    refine Or.inl ⟨m', n, ?_, hn⟩
    rw [run_outcome_error hcut, (hfinal .exhausted rfl).1]
    rfl
  · cases hr : x m with
    | ok a m' =>
      rw [heq, hr] at hends
      rw [run_outcome_ok hr, run_outcome_ok (heq.trans hr)]
      exact (hok a hends.1 m').2
    | error e m' =>
      rw [run_outcome_error hr, run_outcome_error (heq.trans hr)]
      cases hend : e.isFinal with
      | true =>
        rw [(hfinal e hend).1, (hfinal e hend).2]
        exact Or.inr rfl
      | false => exact (herror' e hend m').2

/-- Loops that are given the same number of rounds. -/
theorem loop {σ : Type} {f g : Nat → σ → Run α} {F G : (σ → Run α) → σ → Run α}
    (hf0 : ∀ s, f 0 s = throw .exhausted) (hg0 : ∀ s, g 0 s = throw .exhausted)
    (hf : ∀ n s, f (n + 1) s = F (f n) s) (hg : ∀ n s, g (n + 1) s = G (g n) s)
    (hstep : ∀ x y, (∀ s, SameUnlessStopped T V (x s) (y s)) →
      ∀ s, SameUnlessStopped T V (F x s) (G y s)) (n : Nat) (s : σ) :
    SameUnlessStopped T V (f n s) (g n s) := by
  refine loops_related (R := SameUnlessStopped T V) (fun s => ?_) hf hg hstep n s
  rw [hf0, hg0]
  exact thrown _

end SameUnlessStopped

def stopping (T : Nat → Prop) : Simulation Any Unit where
  Rel _ _ V x y := SameUnlessStopped T V x y
  After _ _ := True
  Inside _ _ := True
  Effects _ := True
  Reads _ := True
  faults := plainFaults Any
  thrown _ := SameUnlessStopped.thrown _
  compositional _ := ⟨SameUnlessStopped.pure, SameUnlessStopped.bind⟩
  quiet hx := SameUnlessStopped.steady (hx.steady (P := Any))
  steady _ hx _ := SameUnlessStopped.steady hx
  prompt _ := SameUnlessStopped.steady Steady.prompt
  later _ hx := hx
  checkpoint hx := SameUnlessStopped.checkpoint (hx () trivial)
  nested hx := SameUnlessStopped.nested (hx () trivial)
  outcome hx hok herror hfinal := SameUnlessStopped.outcome hx hok herror hfinal
  loop hf0 hg0 hf hg hstep s m :=
    SameUnlessStopped.loop hf0 hg0 hf hg (fun x y hxy => hstep () (Or.inl rfl) x y fun _ _ => hxy) _ s m

theorem stopping_runsTimers (T : Nat → Prop) : (stopping T).RunsTimers where
  waiting _ := ⟨⟨trivial, trivial⟩, Or.inr rfl⟩
  next _ := SameUnlessStopped.steady Steady.nextTimer?

section Allowances

variable {asks asks' : Nat → Bool}

/-- A call that is not allowed is one that asks for a line and leaves a checkpoint at which that is not
allowed. -/
theorem Machine.mayCall_eq_false {m : Machine} {f : Value} (h : m.mayCall asks f = false) :
    f.isPrompt = true ∧ ∃ n, m.checkpoints = n + 1 ∧ asks n = false := by
  unfold Machine.mayCall at h
  split at h
  · rename_i n hf hn
    exact ⟨hf, n, hn, h⟩
  · cases h

theorem Machine.mayCall_prompt {m : Machine} {f : Value} {n : Nat} (hf : f.isPrompt = true)
    (hn : m.checkpoints = n + 1) : m.mayCall asks f = asks n := by
  unfold Machine.mayCall
  rw [hf, hn]

/-- Whatever may be called may be called where asking is allowed at more checkpoints. -/
theorem Machine.mayCall_mono (h : ∀ n, asks n = true → asks' n = true) {m : Machine} {f : Value}
    (hm : m.mayCall asks f = true) : m.mayCall asks' f = true := by
  cases hm' : m.mayCall asks' f with
  | true => rfl
  | false =>
    obtain ⟨hf, n, hn, hno⟩ := mayCall_eq_false hm'
    rw [mayCall_prompt hf hn] at hm
    exact hno.symm.trans (h n hm)

theorem Evaluator.call_asking (ev : Evaluator) {m : Machine} {f : Value} (h : m.mayCall asks f = true)
    (receiver : Value) (arguments : List Value) :
    (ev.asking asks).call f receiver arguments m = ev.call f receiver arguments m :=
  if_pos h

theorem Evaluator.call_asking_cut (ev : Evaluator) {m : Machine} {f : Value}
    (h : m.mayCall asks f = false) (receiver : Value) (arguments : List Value) :
    (ev.asking asks).call f receiver arguments m = .error .exhausted m :=
  if_neg (ne_true_of_eq_false h)

/-- The function that reads a line does nothing else, once its checkpoint has passed. -/
theorem run_call_prompt (ev : Evaluator) {f : Value} (hf : f.isPrompt = true) (receiver : Value)
    (arguments : List Value) :
    Run.call ev f receiver arguments = (Run.checkpoint >>= fun _ => Run.prompt) := by
  obtain ⟨identity, rfl⟩ := Value.exists_prompt hf
  rfl

/-- Calls that are the same unless they are stopped inside are so where they may be cut off at once. -/
theorem SameUnlessStopped.asking (h : ∀ n, asks n = true → asks' n = true) {V : Value → Prop}
    {ev ev' : Evaluator} {f receiver : Value} {arguments : List Value}
    (hcall : SameUnlessStopped (fun n => asks n = false ∧ asks' n = true) V
      (ev.call f receiver arguments) (ev'.call f receiver arguments)) :
    SameUnlessStopped (fun n => asks n = false ∧ asks' n = true) V
      ((ev.asking asks).call f receiver arguments) ((ev'.asking asks').call f receiver arguments) := by
  intro m
  cases hm : m.mayCall asks f with
  | true =>
    rw [ev.call_asking hm, ev'.call_asking (Machine.mayCall_mono h hm)]
    exact hcall m
  | false =>
    -- The first call is cut off here; the second one is too unless it may ask here.
    rw [ev.call_asking_cut hm]
    cases hm' : m.mayCall asks' f with
    | false =>
      rw [ev'.call_asking_cut hm']
      exact ⟨⟨trivial, trivial⟩, Or.inr rfl⟩
    | true =>
      obtain ⟨hf, n, hn, hno⟩ := Machine.mayCall_eq_false hm
      rw [ev'.call_asking hm']
      rw [Machine.mayCall_prompt hf hn] at hm'
      exact ⟨(hcall m).1, Or.inl ⟨m, n, rfl, hn, hno, hm'⟩⟩

/-- Where asking is allowed at more checkpoints evaluation is the same, unless it is stopped at one of
them; by induction on the depth. -/
theorem askingEvaluator_stopping (h : ∀ n, asks n = true → asks' n = true) (k : Nat) :
    EvaluatorsRelated (stopping fun n => asks n = false ∧ asks' n = true) () Any
      (askingEvaluator asks k) (askingEvaluator asks' k) := by
  induction k with
  | zero => exact evaluator_zero_self (SameUnlessStopped.thrown _)
  | succ k ih =>
    have hlayer : EvaluatorsRelated (stopping fun n => asks n = false ∧ asks' n = true) () Any
        (askingEvaluator asks k).layer (askingEvaluator asks' k).layer :=
      ih.layer (fun _ _ _ _ => trivial) (fun _ _ _ _ => trivial) (fun _ _ _ _ => Or.inr trivial)
        (fun _ _ _ _ => trivial) (fun _ _ => trivial) (fun _ _ => trivial) (fun _ _ => trivial)
        (fun _ _ => trivial) (fun _ _ _ _ _ => ⟨Any, ih, fun _ _ _ _ => trivial⟩) fun _ _ _ => ih.call trivial
    refine { hlayer with call := fun _ f receiver arguments hf hr ha => ?_ }
    exact SameUnlessStopped.asking h (hlayer.call trivial f receiver arguments hf hr ha)

/-- Where asking is allowed everywhere nothing is cut off. -/
theorem askingEvaluator_all (k : Nat) : askingEvaluator (fun _ => true) k = evaluator k := by
  have hmay (m : Machine) (f : Value) : m.mayCall (fun _ => true) f = true := by
    unfold Machine.mayCall
    split <;> rfl
  induction k with
  | zero => rfl
  | succ k ih =>
    change (askingEvaluator _ k).layer.asking _ = _
    rw [ih, evaluator_succ]
    unfold Evaluator.asking
    simp only [hmay, if_true]

end Allowances

namespace Job

variable {asks asks' : Nat → Bool}

theorem runAsking_all (j : Job) : j.runAsking (fun _ => true) = j.run := by
  unfold runAsking
  rw [askingEvaluator_all]
  rfl

/-- A run that may ask for lines at more checkpoints is the same, unless the other one is stopped. -/
theorem runAsking_same (j : Job) (h : ∀ n, asks n = true → asks' n = true) :
    StoppedAt (fun n => asks n = false ∧ asks' n = true) (j.runAsking asks) ∨
      j.runAsking asks' = j.runAsking asks :=
  ((askingEvaluator_stopping h (depthBound (j.checkpoints + 1) j.statements)).programBy
    (stopping_runsTimers _) trivial j.statements (fun _ _ => trivial)
    (Machine.start j.stdin j.checkpoints)).2

/-- A run that is cut off is stopped where it may not ask: the run itself is not cut off. -/
theorem stopped_of_cutOff {j : Job} (h : CutOff (j.runAsking asks)) :
    StoppedAt (fun n => asks n = false) (j.runAsking asks) := by
  have hall (n : Nat) (_ : asks n = true) : (fun _ => true) n = true := rfl
  obtain ⟨m, n, hcut, hn, hno, -⟩ | heq := j.runAsking_same hall
  · exact ⟨m, n, hcut, hn, hno⟩
  · rw [← heq, runAsking_all] at h
    exact absurd h (program_not_cutOff j.statements j.stdin j.checkpoints)

/-- A run that is not cut off is the run itself. -/
theorem runAsking_eq_run {j : Job} (h : ¬ CutOff (j.runAsking asks)) : j.runAsking asks = j.run := by
  rw [← runAsking_all]
  exact ((j.runAsking_same fun _ _ => rfl).resolve_left fun hstop => h hstop.cutOff).symm

/-- A run that may ask wherever it does ask is not cut off. If it were, that would be at a checkpoint at
which it asks as well when it may ask everywhere else. -/
theorem runAsking_asksAt (j : Job) : j.runAsking j.asksAt = j.run := by
  refine runAsking_eq_run fun hcut => ?_
  obtain ⟨m, n, hcut, hn, hno⟩ := stopped_of_cutOff hcut
  have hbut (i : Nat) (hi : j.asksAt i = true) : (i != n) = true := by
    rw [bne_iff_ne]
    rintro rfl
    exact Bool.noConfusion (hno.symm.trans hi)
  have hasks : j.asksAt n = true := by
    obtain ⟨m', n', hcut', hn', -, hne⟩ | heq := j.runAsking_same hbut
    · -- The run was stopped in one state only.
      obtain ⟨-, rfl⟩ := EStateM.Result.error.inj (hcut.symm.trans hcut')
      have hnn : n = n' := Nat.succ.inj (hn.symm.trans hn')
      rw [bne_iff_ne] at hne
      exact absurd hnn.symm hne
    · exact isCutOff_iff.mpr ⟨m, heq.trans hcut⟩
  exact Bool.noConfusion (hno.symm.trans hasks)

/-- A run that is not cut off where asking is allowed at some checkpoints asks at none but these. -/
theorem asks_of_asksAt {j : Job} (h : ¬ CutOff (j.runAsking asks)) {n : Nat} (hn : j.asksAt n = true) :
    asks n = true := by
  cases hno : asks n with
  | true => rfl
  | false =>
    have hbut (i : Nat) (hi : asks i = true) : (i != n) = true := by
      rw [bne_iff_ne]
      rintro rfl
      exact Bool.noConfusion (hno.symm.trans hi)
    have heq := (j.runAsking_same hbut).resolve_left fun hstop => h hstop.cutOff
    have hcut := isCutOff_iff.mp hn
    rw [heq] at hcut
    exact absurd hcut h

end Job

end Snippet.Script
