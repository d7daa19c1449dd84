import Snippet.Proofs.Refinement

/-!
Every run comes to an end once no more checkpoints succeed. Between two checkpoints evaluation goes no
deeper than the script is high, so a depth that is enough can be told from the checkpoints that are left
and the height of the script; and a loop has no more rounds than there are checkpoints left.
-/

namespace Snippet.Script

def Fault.Genuine (Q : Func → Prop) : Fault → Prop
  | .thrown v => v.Holds Q
  | .exhausted => False
  | _ => True

theorem Fault.Genuine.plain {Q : Func → Prop} {e : Fault} (he : e.Genuine Q)
    (hne : e.isFinal = false) : e.Plain Q := by
  cases e with
  | raised e => trivial
  | thrown v => exact he
  | _ => exact Bool.noConfusion hne

theorem Fault.Plain.genuine {Q : Func → Prop} {e : Fault} (he : e.Plain Q) : e.Genuine Q := by
  cases e with
  | thrown v => exact he
  | raised e => trivial
  | endless => trivial
  | timeout reached => exact he.elim
  | exhausted => exact he.elim

/-- What is left in a state: functions of `Q`, and no more checkpoints than there were before. -/
def Left (Q : Func → Prop) (m m' : Machine) : Prop := m'.Holds Q ∧ m'.checkpoints ≤ m.checkpoints

theorem Left.trans {Q : Func → Prop} {m m' m'' : Machine} (h : Left Q m m') (h' : Left Q m' m'') :
    Left Q m m'' :=
  ⟨h'.1, Nat.le_trans h'.2 h.2⟩

/-- A computation that is not cut off where at most `k` checkpoints are left. -/
def Returns (Q : Func → Prop) (k : Nat) {α : Type} (V : α → Prop) (x : Run α) : Prop :=
  ∀ m : Machine, m.Holds Q → m.checkpoints ≤ k →
    Ends V (Fault.Genuine Q) (Left Q m) (x m)

namespace Returns

variable {Q : Func → Prop} {k : Nat} {α β : Type} {V : α → Prop} {W : β → Prop}

theorem pure {a : α} (ha : V a) : Returns Q k V (Pure.pure a) :=
  fun _ hm _ => ⟨ha, hm, Nat.le_refl _⟩

theorem thrown {e : Fault} (he : e.Genuine Q) : Returns Q k V (throw e) :=
  fun _ hm _ => ⟨he, hm, Nat.le_refl _⟩

theorem bind {x : Run α} {f : α → Run β} (hx : Returns Q k V x)
    (hf : ∀ a, V a → Returns Q k W (f a)) : Returns Q k W (x >>= f) := by
  intro m hm hk
  refine (hx m hm hk).bind (fun _ _ => Left.trans) fun a m' ha h => ?_
  exact hf a ha m' h.1 (Nat.le_trans h.2 hk)

theorem steady {P : Command → Prop} {x : Run α} (hx : Steady Q P V x) : Returns Q k V x := by
  intro m hm _
  exact (hx m hm).1.imp (fun _ ha => ha) (fun _ he => he.plain.genuine) fun _ h =>
    ⟨h.1, h.2.checkpoints⟩

/-- After a checkpoint one less is left. -/
theorem checkpoint {x : Run α} (hx : ∀ j, j < k → Returns Q j V x) :
    Returns Q k V (Run.checkpoint >>= fun _ => x) := by
  intro m hm hk
  cases hn : m.checkpoints with
  | zero =>
    rw [run_checkpoint_zero hn]
    exact ⟨trivial, hm, Nat.le_refl _⟩
  | succ n =>
    rw [run_checkpoint_succ hn]
    have hpass : Left Q m (m.allowing n) := by
      refine ⟨⟨hm.heap, hm.timers⟩, ?_⟩
      change n ≤ m.checkpoints
      omega
    have hends := hx n (by omega) (m.allowing n) hpass.1 (Nat.le_refl n)
    exact hends.trans fun _ => hpass.trans

theorem nested {x : Run α} (hx : Returns Q k V x) : Returns Q k V (Run.nested x) := by
  intro m hm hk
  refine Ends.nested trivial ⟨hm, Nat.le_refl _⟩ (fun m' h => ⟨⟨h.1.heap, h.1.timers⟩, h.2⟩) ?_
  exact hx (m.atDepth (m.callDepth + 1)) ⟨hm.heap, hm.timers⟩ hk

theorem outcome {x : Run α} {f : Except Fault α → Run β} (hx : Returns Q k V x)
    (hok : ∀ a, V a → Returns Q k W (f (.ok a)))
    (herror : ∀ e, e.Plain Q → e.isFinal = false → Returns Q k W (f (.error e)))
    (hfinal : ∀ e, e.isFinal = true → f (.error e) = throw e) :
    Returns Q k W (Run.outcome x >>= f) := by
  intro m hm hk
  refine (hx m hm hk).outcome (fun _ _ => Left.trans) (fun a m' ha h => ?_) (fun e m' he hne h => ?_)
    hfinal
  · exact hok a ha m' h.1 (Nat.le_trans h.2 hk)
  · exact herror e (he.plain hne) hne m' h.1 (Nat.le_trans h.2 hk)

/-- A loop may have a round for every checkpoint that is left and one more, in which the next checkpoint
fails. By induction on the rounds: in each one a checkpoint passes before the loop goes on. -/
theorem loop {σ : Type} {f : Nat → σ → Run α} {F : (σ → Run α) → σ → Run α}
    (hsucc : ∀ n s, f (n + 1) s = F (f n) s)
    (hstep : ∀ j, j = k ∨ j < k → ∀ x, (∀ i, i < j → ∀ s, Returns Q i V (x s)) →
      ∀ s, Returns Q j V (F x s)) (s : σ) :
    Returns Q k V (Run.rounds >>= fun n => f n s) := by
  -- More rounds than checkpoints: the rounds cannot run out before the checkpoints do.
  have hrounds (n j : Nat) (hj : j < n) (hjk : j = k ∨ j < k) (s : σ) : Returns Q j V (f n s) := by
    induction n generalizing j s with
    | zero => omega
    | succ n ih =>
      rw [hsucc]
      exact hstep j hjk (f n) (fun i hi s => ih i (by omega) (by omega) s) s
  intro m hm hk
  exact hrounds (m.checkpoints + 1) m.checkpoints (by omega) (by omega) s m hm (Nat.le_refl _)

end Returns

def returning (Q : Func → Prop) : Simulation Q Nat where
  -- Coming to an end, as a property that evaluation respects: a checkpoint leaves fewer
  -- checkpoints.
  Rel k _ V x _ := Returns Q k V x
  After k j := j < k
  Inside k j := k = j
  Effects _ := True
  Reads _ := True
  faults := plainFaults Q
  thrown he := Returns.thrown he.genuine
  compositional _ := ⟨Returns.pure, Returns.bind⟩
  quiet hx := Returns.steady (hx.steady (P := Any))
  steady _ hx _ := Returns.steady hx
  prompt _ := Returns.steady Steady.prompt
  later h hx m hm hk := hx m hm (Nat.le_trans hk (Nat.le_of_lt h))
  checkpoint hx := Returns.checkpoint hx
  nested hx := Returns.nested (hx _ rfl)
  outcome hx hok herror hfinal := Returns.outcome hx hok herror fun e he => (hfinal e he).1
  loop _ _ hsucc _ hstep := Returns.loop hsucc fun j hj x hx => hstep j hj x x hx

theorem returning_runsTimers (Q : Func → Prop) : (returning Q).RunsTimers where
  waiting _ hm _ := ⟨trivial, hm, Nat.le_refl _⟩
  next _ := Returns.steady Steady.nextTimer?

/-- The parts of scripts of height `h` for which a depth of `n` is enough where at most `k` checkpoints are
left: every checkpoint may be followed by a function as high as the script. -/
def WithinDepth (h n k : Nat) (p : Part) : Prop :=
  p.height ≤ h ∧ p.height + k * (h + 2) < n

theorem withinDepth_part {h n k : Nat} {p q : Part} (hp : WithinDepth h (n + 1) k p)
    (hq : q.height < p.height) : WithinDepth h n k q := by
  obtain ⟨hle, hlt⟩ := hp
  exact ⟨by omega, by omega⟩

/-- After a checkpoint there is room for a whole function. -/
theorem withinDepth_body {h n k j : Nat} {p : Part} (hcall : WithinDepth h (n + 1) k .call)
    (hj : j < k) (hp : p.height ≤ h) : WithinDepth h n j p := by
  have hroom : k * (h + 2) < n + 1 := by
    have := hcall.2
    change 0 + k * (h + 2) < n + 1 at this
    omega
  have hless : (j + 1) * (h + 2) ≤ k * (h + 2) := Nat.mul_le_mul_right _ hj
  rw [Nat.add_mul] at hless
  exact ⟨hp, by omega⟩

/-- Evaluation of some depth comes to an end on the parts for which the depth is enough, by induction on
the depth. -/
theorem evaluator_returns (h n k : Nat) :
    EvaluatorsRelated (returning fun f => f.height ≤ h) k (WithinDepth h n k) (evaluator n)
      (evaluator n) := by
  induction n generalizing k with
  | zero =>
    have hnone (p : Part) : ¬ WithinDepth h 0 k p := fun hp => Nat.not_lt_zero _ hp.2
    -- There is no depth left, but nothing fits into none.
    exact
      { eval := fun e _ he => absurd he (hnone (.expr e))
        assign := fun e _ _ he => absurd he (hnone (.expr e))
        exec := fun s _ hs => absurd hs (hnone (.stmt s))
        call := fun hc => absurd hc (hnone .call)
        construct := fun hc => absurd hc (hnone .call)
        parts := fun e he => absurd he (hnone (.expr e))
        functions := fun f hf => hf.1
        declared := fun f hf => absurd hf (hnone (.stmt (.function f))) }
  | succ n ih =>
    have hparts (e : Expr) (he : WithinDepth h (n + 1) k (.expr e)) (p : Part) (hp : p ∈ e.parts) :
        WithinDepth h n k p :=
      withinDepth_part he (e.height_lt_of_mem_parts p hp)
    rw [evaluator_succ]
    refine (ih k).layer hparts ?_ (fun _ _ _ _ => Or.inr trivial) ?_ ?_ ?_ (fun _ _ => trivial)
      (fun _ _ => trivial) ?_ ?_
    · -- The parts of a statement are less high than it is.
      exact fun s hs p hp => withinDepth_part hs (s.height_lt_of_mem_parts p hp)
    · intro e he p hp
      obtain ⟨hle, hlt⟩ := hparts e he p hp
      exact ⟨hle, by omega⟩
    · exact fun f hf => hf.1
    · intro f hf
      have hle : f.height + 1 ≤ h := hf.1
      omega
    · -- A checkpoint less is left in the function, and the depth suffices for one of any height.
      intro hcall j i hj hi
      obtain rfl : j = i := hi
      refine ⟨WithinDepth h n j, ih j, fun f hf p hp => ?_⟩
      exact withinDepth_body hcall hj (Nat.le_trans (f.height_le_of_mem_parts p hp) hf)
    · -- A constructor has as much room as a call.
      intro hcall j hj
      exact (ih j).call (withinDepth_body hcall hj (Nat.zero_le _))

/-- A run that may go as deep as the bound says is not cut off. -/
theorem programBy_not_cutOff (statements : List Stmt) (m : Machine)
    (hm : m.Holds fun f => f.height ≤ statementsHeight statements) :
    ¬ CutOff (Run.programBy (evaluator (depthBound (m.checkpoints + 1) statements)) statements
      m) := by
  intro hcut
  obtain ⟨m', hcut⟩ := hcut
  have hroom : statementsHeight statements + m.checkpoints * (statementsHeight statements + 2) <
      depthBound (m.checkpoints + 1) statements := by
    unfold depthBound
    have hexpand : (m.checkpoints + 1 + 2) * (statementsHeight statements + 3) =
        m.checkpoints * (statementsHeight statements + 2) + m.checkpoints +
          3 * (statementsHeight statements + 3) := by
      rw [Nat.add_assoc, Nat.add_mul]
      congr 1
    omega
  have hcall : WithinDepth (statementsHeight statements)
      (depthBound (m.checkpoints + 1) statements) m.checkpoints .call := by
    refine ⟨Nat.zero_le _, ?_⟩
    change 0 + _ < _
    omega
  have hparts (p : Part) (hp : p ∈ statements.map Part.stmt) :
      WithinDepth (statementsHeight statements) (depthBound (m.checkpoints + 1) statements)
        m.checkpoints p := by
    have hle := height_le_of_mem_statements p hp
    exact ⟨hle, by omega⟩
  have hends := (evaluator_returns _ _ _).programBy (returning_runsTimers _) hcall statements hparts m hm
    (Nat.le_refl _)
  rw [hcut] at hends
  exact hends.1

theorem program_not_cutOff (statements : List Stmt) (stdin : String) (n : Nat) :
    ¬ CutOff (Run.program statements (Machine.start stdin n)) :=
  programBy_not_cutOff statements (Machine.start stdin n) (Machine.holds_start stdin n)

/-- Every run comes to an end, and no depth beyond the bound makes a difference to it: after the first
`n` checkpoints have succeeded, no script can go on for ever. -/
theorem program_returns (statements : List Stmt) (stdin : String) (n : Nat) :
    ¬ CutOff (Run.program statements (Machine.start stdin n)) ∧
      ∀ k, Run.programBy (evaluator (k + depthBound (n + 1) statements)) statements
          (Machine.start stdin n) =
        Run.program statements (Machine.start stdin n) := by
  have hreturns := program_not_cutOff statements stdin n
  exact ⟨hreturns, programBy_eq_of_not_cutOff rfl hreturns⟩

end Snippet.Script
