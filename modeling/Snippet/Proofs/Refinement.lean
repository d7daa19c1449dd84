import Snippet.Proofs.SimulationCall

/-!
Evaluation that may go deeper comes to the same result, unless evaluation that may go less deep was cut
off. The calls in progress are kept track of, since how many functions of the script may still be entered
follows from them.
-/

namespace Snippet.Script

def CutOff {α : Type} (r : EStateM.Result Fault Machine α) : Prop := ∃ m, r = .error .exhausted m

/-- The second computation comes to the same as the first one, unless the first one is cut off, in all
states in which `c` more functions of the script may be entered. -/
def Refines (c : Nat) {α : Type} (V : α → Prop) (x y : Run α) : Prop :=
  ∀ m : Machine, m.callDepth + c = maxCallDepth →
    CutOff (x m) ∨ (y m = x m ∧ Ends V Any (fun m' => m'.callDepth = m.callDepth) (x m))

namespace Refines

variable {c : Nat} {α β : Type} {V : α → Prop} {W : β → Prop}

theorem pure {a : α} (ha : V a) : Refines c V (Pure.pure a) (Pure.pure a) :=
  fun _ _ => Or.inr ⟨rfl, ha, rfl⟩

theorem thrown (e : Fault) : Refines c V (throw e) (throw e) := fun _ _ => Or.inr ⟨rfl, trivial, rfl⟩

/-- Whatever is cut off at once is refined by everything. -/
theorem exhausted (y : Run α) : Refines c V (throw .exhausted) y := fun m _ => Or.inl ⟨m, rfl⟩

/-- Refinement goes through a sequence: both halves are refined, and a cut in the first one is one of the
whole. -/
theorem bind {x y : Run α} {f g : α → Run β} (hx : Refines c V x y)
    (hf : ∀ a, V a → Refines c W (f a) (g a)) : Refines c W (x >>= f) (y >>= g) := by
  intro m hm
  obtain ⟨m', hcut⟩ | ⟨heq, hends⟩ := hx m hm
  · exact Or.inl ⟨m', run_bind_error hcut⟩
  cases hr : x m with
  | error e m' =>
    rw [hr] at heq hends
    rw [run_bind_error hr, run_bind_error heq]
    exact Or.inr ⟨rfl, trivial, hends.2⟩
  | ok a m' =>
    -- What follows starts at the same depth, so as many functions may be entered in it.
    rw [hr] at heq hends
    rw [run_bind_ok hr, run_bind_ok heq]
    have hdepth : m'.callDepth = m.callDepth := hends.2
    have hrest := hf a hends.1 m' (by omega)
    rw [hdepth] at hrest
    exact hrest

theorem steady {P : Command → Prop} {x : Run α} (hx : Steady Any P V x) : Refines c V x x := by
  intro m _
  refine Or.inr ⟨rfl, (hx m m.holds_any).1.imp (fun _ ha => ha) (fun _ _ => trivial) ?_⟩
  exact fun _ h => h.2.callDepth

/-- A checkpoint is passed or missed in both alike. -/
theorem checkpoint {x y : Run α} (hx : Refines c V x y) :
    Refines c V (Run.checkpoint >>= fun _ => x) (Run.checkpoint >>= fun _ => y) := by
  intro m hm
  cases hn : m.checkpoints with
  | zero =>
    rw [run_checkpoint_zero hn, run_checkpoint_zero hn]
    exact Or.inr ⟨rfl, trivial, rfl⟩
  | succ n =>
    rw [run_checkpoint_succ hn, run_checkpoint_succ hn]
    exact hx (m.allowing n) hm

/-- The inside of a call may enter one function less. -/
theorem nested {x y : Run α} (hx : ∀ c', c = c' + 1 → Refines c' V x y) :
    Refines c V (Run.nested x) (Run.nested y) := by
  intro m hm
  cases c with
  | zero =>
    have hfull : maxCallDepth ≤ m.callDepth := by omega
    rw [run_nested_full hfull, run_nested_full hfull]
    exact Or.inr ⟨rfl, trivial, rfl⟩
  | succ c' =>
    have hroom : m.callDepth < maxCallDepth := by omega
    rw [run_nested hroom, run_nested hroom]
    have hdepth : (m.atDepth (m.callDepth + 1)).callDepth + c' = maxCallDepth := by
      change m.callDepth + 1 + c' = maxCallDepth
      omega
    -- Leaving the function takes back the one call that entering it has added.
    have hleave (m' : Machine) (hm' : m'.callDepth = (m.atDepth (m.callDepth + 1)).callDepth) :
        (m'.atDepth (m'.callDepth - 1)).callDepth = m.callDepth := by
      change m'.callDepth - 1 = m.callDepth
      rw [hm']
      exact Nat.add_sub_cancel _ _
    obtain ⟨m', hcut⟩ | ⟨heq, hends⟩ := hx c' rfl _ hdepth
    · rw [hcut]
      exact Or.inl ⟨_, rfl⟩
    · rw [heq]
      refine Or.inr ⟨rfl, ?_⟩
      cases hr : x (m.atDepth (m.callDepth + 1)) with
      | ok a m' =>
        rw [hr] at hends
        exact ⟨hends.1, hleave m' hends.2⟩
      | error e m' =>
        rw [hr] at hends
        exact ⟨trivial, hleave m' hends.2⟩

/-- Refinement goes through the handling of an outcome. A cut is not an outcome that anything handles. -/
theorem outcome {x y : Run α} {f g : Except Fault α → Run β} (hx : Refines c V x y)
    (hok : ∀ a, V a → Refines c W (f (.ok a)) (g (.ok a)))
    (herror : ∀ e, e.Plain Any → e.isFinal = false → Refines c W (f (.error e)) (g (.error e)))
    (hfinal : ∀ e, e.isFinal = true → f (.error e) = throw e ∧ g (.error e) = throw e) :
    Refines c W (Run.outcome x >>= f) (Run.outcome y >>= g) := by
  intro m hm
  obtain ⟨m', hcut⟩ | ⟨heq, hends⟩ := hx m hm
  · rw [run_outcome_error hcut, (hfinal .exhausted rfl).1]
    exact Or.inl ⟨m', rfl⟩
  cases hr : x m with
  | ok a m' =>
    rw [hr] at heq hends
    rw [run_outcome_ok hr, run_outcome_ok heq]
    have hdepth : m'.callDepth = m.callDepth := hends.2
    have hrest := hok a hends.1 m' (by omega)
    rw [hdepth] at hrest
    exact hrest
  | error e m' =>
    rw [hr] at heq hends
    rw [run_outcome_error hr, run_outcome_error heq]
    have hdepth : m'.callDepth = m.callDepth := hends.2
    -- Both hand on what ends the run; otherwise both go on with the same handler.
    cases hend : e.isFinal with
    | true =>
      rw [(hfinal e hend).1, (hfinal e hend).2]
      exact Or.inr ⟨rfl, trivial, hdepth⟩
    | false =>
      have hrest := herror e (Fault.plain_of_not_final hend) hend m' (by omega)
      rw [hdepth] at hrest
      exact hrest

/-- Loops that are given the same number of rounds; of no rounds the first one is cut off. -/
theorem loop {σ : Type} {f g : Nat → σ → Run α} {F G : (σ → Run α) → σ → Run α}
    (hzero : ∀ s, f 0 s = throw .exhausted) (hf : ∀ n s, f (n + 1) s = F (f n) s)
    (hg : ∀ n s, g (n + 1) s = G (g n) s)
    (hstep : ∀ x y, (∀ s, Refines c V (x s) (y s)) → ∀ s, Refines c V (F x s) (G y s)) (n : Nat)
    (s : σ) : Refines c V (f n s) (g n s) := by
  refine loops_related (R := Refines c V) (fun s => ?_) hf hg hstep n s
  rw [hzero]
  exact exhausted _

end Refines

def refining : Simulation Any Nat where
  -- Refinement, as a relation that evaluation respects: checkpoints do not change how many
  -- functions of the script may be entered, and inside of one there is one less.
  Rel c _ V x y := Refines c V x y
  After c c' := c = c'
  Inside c c' := c = c' + 1
  Effects _ := True
  Reads _ := True
  faults := plainFaults Any
  thrown _ := Refines.thrown _
  compositional _ := ⟨Refines.pure, Refines.bind⟩
  quiet hx := Refines.steady (hx.steady (P := Any))
  steady _ hx _ := Refines.steady hx
  prompt _ := Refines.steady Steady.prompt
  later h hx := h ▸ hx
  checkpoint hx := Refines.checkpoint (hx _ rfl)
  nested hx := Refines.nested hx
  outcome hx hok herror hfinal := Refines.outcome hx hok herror hfinal
  loop hzero _ hf hg hstep s m :=
    Refines.loop hzero hf hg (fun x y hxy => hstep _ (Or.inl rfl) x y fun _ h => h ▸ hxy) _ s m

theorem refining_runsTimers : refining.RunsTimers where
  waiting _ _ := Or.inr ⟨rfl, trivial, rfl⟩
  next _ := Refines.steady Steady.nextTimer?

/-- Whatever depth is added, evaluation refines evaluation without it. -/
theorem evaluator_refines (n k c : Nat) :
    EvaluatorsRelated refining c Any (evaluator n) (evaluator (k + n)) :=
  evaluators_related trivial (fun _ _ _ => trivial) (fun _ _ _ => trivial)
    (fun _ => evaluator_zero_related Refines.exhausted _) n c

/-- A run that is not cut off is the same with any further depth. -/
theorem programBy_eq_of_not_cutOff {n : Nat} {statements : List Stmt} {m : Machine}
    (hm : m.callDepth = 0) (h : ¬ CutOff (Run.programBy (evaluator n) statements m)) (k : Nat) :
    Run.programBy (evaluator (k + n)) statements m = Run.programBy (evaluator n) statements m := by
  have hrefines : Refines maxCallDepth Any (Run.programBy (evaluator n) statements)
      (Run.programBy (evaluator (k + n)) statements) :=
    (evaluator_refines n k maxCallDepth).programBy refining_runsTimers trivial statements
      fun _ _ => trivial
  obtain hcut | ⟨heq, -⟩ := hrefines m (by omega)
  · exact absurd hcut h
  · exact heq

end Snippet.Script
