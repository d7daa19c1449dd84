import Snippet.Proofs.SimulationCall

/-!
Evaluation takes nothing back: whatever a script does, what it has printed stays printed, no checkpoint is
gained, and every call that it enters is left again, also where a fault ends the run. What it does around
the store comes to a history of commands.
-/

namespace Snippet.Script

/-- A computation that takes nothing back and does nothing around the store but by commands of a kind, given
what is true of its results. -/
def Keeps (P : Command → Prop) {α : Type} (V : α → Prop) (x : Run α) : Prop :=
  ∀ m, Ends V Any (fun m' => m.Reaches P m') (x m)

namespace Keeps

variable {P : Command → Prop} {α β : Type} {V : α → Prop} {W : β → Prop}

theorem pure {a : α} (ha : V a) : Keeps P V (Pure.pure a) := fun m => ⟨ha, m.reaches_refl⟩

theorem throw (e : Fault) : Keeps P V (MonadExcept.throw e : Run α) := fun m => ⟨trivial, m.reaches_refl⟩

theorem bind {x : Run α} {f : α → Run β} (hx : Keeps P V x) (hf : ∀ a, V a → Keeps P W (f a)) :
    Keeps P W (x >>= f) :=
  fun m => (hx m).bind (fun _ _ => Machine.Reaches.trans) fun a m' ha _ => hf a ha m'

theorem steady {x : Run α} (hx : Steady Any P V x) : Keeps P V x :=
  fun m => (hx m m.holds_any).1.imp (fun _ ha => ha) (fun _ _ => trivial) fun _ h => h.2

theorem checkpoint {x : Run α} (hx : Keeps P V x) : Keeps P V (Run.checkpoint >>= fun _ => x) := by
  intro m
  cases hm : m.checkpoints with
  | zero =>
    rw [run_checkpoint_zero hm]
    exact ⟨trivial, m.reaches_refl⟩
  | succ n =>
    rw [run_checkpoint_succ hm]
    have hpass : m.Reaches P (m.allowing n) := by
      refine ⟨.refl m.outside, ?_, rfl⟩
      change n ≤ m.checkpoints
      omega
    exact (hx _).trans fun _ => hpass.trans

theorem nested {x : Run α} (hx : Keeps P V x) : Keeps P V (Run.nested x) := by
  intro m
  refine Ends.nested trivial m.reaches_refl (fun m' hm => ⟨hm.outside, hm.checkpoints, ?_⟩) (hx _)
  change m'.callDepth - 1 = m.callDepth
  rw [hm.callDepth]
  exact Nat.add_sub_cancel _ _

theorem outcome {x : Run α} {f : Except Fault α → Run β} (hx : Keeps P V x)
    (hok : ∀ a, V a → Keeps P W (f (.ok a)))
    (herror : ∀ e, e.Plain Any → e.isFinal = false → Keeps P W (f (.error e)))
    (hfinal : ∀ e, e.isFinal = true → f (.error e) = MonadExcept.throw e) :
    Keeps P W (Run.outcome x >>= f) := by
  intro m
  refine (hx m).outcome (fun _ _ => Machine.Reaches.trans) (fun a m' ha _ => hok a ha m') ?_ hfinal
  exact fun e m' _ he _ => herror e (Fault.plain_of_not_final he) he m'

/-- Loops of any number of rounds. -/
theorem loop {σ : Type} {f : Nat → σ → Run α} {F : (σ → Run α) → σ → Run α}
    (hzero : ∀ s, f 0 s = MonadExcept.throw .exhausted) (hsucc : ∀ n s, f (n + 1) s = F (f n) s)
    (hstep : ∀ x, (∀ s, Keeps P V (x s)) → ∀ s, Keeps P V (F x s)) (n : Nat) (s : σ) :
    Keeps P V (f n s) := by
  refine loops_related (R := fun x _ => Keeps P V x) (fun s => ?_) hsucc hsucc (fun x _ => hstep x) n s
  rw [hzero]
  exact throw .exhausted

end Keeps

def keeping (P : Command → Prop) (hP : ∀ c, c.IsCall → P c) : Simulation Any Unit where
  Rel _ _ V x _ := Keeps P V x
  After _ _ := True
  Inside _ _ := True
  Effects _ := True
  Reads _ := True
  faults := plainFaults Any
  thrown _ := Keeps.throw _
  compositional _ := ⟨Keeps.pure, Keeps.bind⟩
  quiet hx := Keeps.steady hx.steady
  steady _ hx _ := Keeps.steady (hx.mono hP)
  prompt _ := Keeps.steady (Steady.prompt.mono hP)
  later _ hx := hx
  checkpoint hx := Keeps.checkpoint (hx () trivial)
  nested hx := Keeps.nested (hx () trivial)
  outcome hx hok herror hfinal := Keeps.outcome hx hok herror fun e he => (hfinal e he).1
  loop hzero _ hsucc _ hstep s m :=
    Keeps.loop hzero hsucc (fun x hx => hstep () (Or.inl rfl) x x fun _ _ => hx) _ s m

/-- The timers come to their times by a command of their own. -/
theorem keeping_runsTimers : (keeping Any fun _ _ => trivial).RunsTimers where
  waiting m := ⟨trivial, m.reaches_refl⟩
  next _ := Keeps.steady Steady.nextTimer?

/-- Evaluation of any depth takes nothing back. -/
theorem evaluator_keeps (P : Command → Prop) (hP : ∀ c, c.IsCall → P c) (n : Nat) :
    EvaluatorsRelated (keeping P hP) () Any (evaluator n) (evaluator n) := by
  have hzero (i : Unit) : EvaluatorsRelated (keeping P hP) i Any (evaluator 0) (evaluator 0) :=
    evaluator_zero_related (fun _ => Keeps.throw .exhausted) _
  have h := evaluators_related trivial (fun _ _ _ => trivial) (fun _ _ _ => trivial) hzero n ()
  rwa [Nat.zero_add] at h

/-- A whole run takes nothing back. -/
theorem program_reaches (statements : List Stmt) (m : Machine) :
    Ends Any Any (fun m' => m.Reaches Any m') (Run.program statements m) :=
  (evaluator_keeps Any (fun _ _ => trivial) (depthBound (m.checkpoints + 1) statements)).programBy
    keeping_runsTimers trivial statements (fun _ _ => trivial) m

end Snippet.Script
