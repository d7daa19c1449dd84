import Snippet.Proofs.Ending
import Snippet.Proofs.InputLines
import Snippet.Proofs.Requests

/-!
Input that is not asked for does not matter. Two runs of a script on inputs that begin with the same lines
go through states that differ in the lines left only, as long as they ask for no more lines than are the
same; the checkpoints at which they may ask bound how many they do ask for.
-/

namespace Snippet.Script

/-- Two inputs that begin with the same `k` lines, and the checkpoints at which a run may ask for one. -/
structure Inputs where
  left : List String
  right : List String
  k : Nat
  asks : Nat → Bool
  same : left.take k = right.take k

namespace Inputs

variable (I : Inputs)

def allowance (m : Machine) : Nat := (List.range m.checkpoints).countP I.asks

def Twins (m m' : Machine) : Prop :=
  -- Two states that differ in their inputs only, of both of which the same number of lines has been
  -- read; with those that may still be asked for it is no more than the lines that are the same.
  ∃ p s, m' = m.reading s ∧ m.stdin.lines = I.left.drop p ∧ s.lines = I.right.drop p ∧
    p + I.allowance m ≤ I.k

def SameFault (e e' : Fault) : Prop := e = e' ∨ (e.IsTimeout ∧ e'.IsTimeout)

inductive Agree {α : Type} (V : α → Prop) :
    EStateM.Result Fault Machine α → EStateM.Result Fault Machine α → Prop
  | ok {a : α} {m m' : Machine} (ha : V a) (hm : I.Twins m m') : Agree V (.ok a m) (.ok a m')
  | error {e e' : Fault} {m m' : Machine} (he : SameFault e e') (hm : I.Twins m m') :
    Agree V (.error e m) (.error e' m')

def Alike {α : Type} (V : α → Prop) (x y : Run α) : Prop :=
  ∀ m m', I.Twins m m' → I.Agree V (x m) (y m')

end Inputs

theorem Fault.IsTimeout.isFinal {e : Fault} (he : e.IsTimeout) : e.isFinal = true := by
  cases e with
  | timeout s => rfl
  | _ => exact he.elim

/-- A quiet computation does not read. -/
theorem Quiet.deaf {α : Type} {V : α → Prop} {x : Run α} (hx : Quiet Any V x) : Deaf x := by
  intro m s
  have hreading := (hx m m.holds_any.heap).2 (m.reading s)
  have hover := hx.eq_over m.holds_any.heap
  change x (m.reading s) = _ at hreading
  rw [hreading, hover]
  cases x m <;> rfl

/-- A steady computation that does not read leaves checkpoints and input as they are. -/
theorem Steady.unchanged {P : Command → Prop} {α : Type} {V : α → Prop} {x : Run α}
    (hx : Steady Any P V x) (hdeaf : Deaf x) (m : Machine) :
    (finalState (x m)).checkpoints = m.checkpoints ∧ (finalState (x m)).stdin = m.stdin := by
  have hallow : x m = onState (fun m' => m'.allowing m.checkpoints) (x m) :=
    (hx m m.holds_any).2 m.checkpoints
  have hstdin : x m = onState (fun m' => m'.reading m.stdin) (x m) := hdeaf m m.stdin
  refine ⟨?_, ?_⟩
  · rw [hallow]
    cases x m <;> rfl
  · rw [hstdin]
    cases x m <;> rfl

namespace Inputs

variable {I : Inputs} {α β : Type} {V : α → Prop} {W : β → Prop} {m m' : Machine}

theorem Twins.eq_reading (h : I.Twins m m') : m' = m.reading m'.stdin := by
  obtain ⟨p, s, rfl, -⟩ := h
  rfl

theorem Twins.checkpoints (h : I.Twins m m') : m'.checkpoints = m.checkpoints := by
  rw [h.eq_reading]
  rfl

theorem Twins.callDepth (h : I.Twins m m') : m'.callDepth = m.callDepth := by
  rw [h.eq_reading]
  rfl

theorem allowance_le {m₁ : Machine} (h : m₁.checkpoints ≤ m.checkpoints) :
    I.allowance m₁ ≤ I.allowance m :=
  (List.range_sublist.mpr h).countP_le

/-- A state that is reached without reading has the twin that is reached from the other input. -/
theorem Twins.unread {m₁ : Machine} (h : I.Twins m m') (hstdin : m₁.stdin = m.stdin)
    (hcheckpoints : m₁.checkpoints ≤ m.checkpoints) : I.Twins m₁ (m₁.reading m'.stdin) := by
  obtain ⟨p, s, rfl, hleft, hright, hle⟩ := h
  have hallowance : I.allowance m₁ ≤ I.allowance m := allowance_le hcheckpoints
  exact ⟨p, s, rfl, hstdin ▸ hleft, hright, by omega⟩

theorem Twins.allowing {n : Nat} (h : I.Twins m m') (hn : n ≤ m.checkpoints) :
    I.Twins (m.allowing n) (m'.allowing n) := by
  have htwins : I.Twins (m.allowing n) ((m.allowing n).reading m'.stdin) := h.unread rfl hn
  rw [h.eq_reading]
  exact htwins

theorem Twins.atDepth (h : I.Twins m m') (n : Nat) : I.Twins (m.atDepth n) (m'.atDepth n) := by
  have htwins : I.Twins (m.atDepth n) ((m.atDepth n).reading m'.stdin) := h.unread rfl (Nat.le_refl _)
  rw [h.eq_reading]
  exact htwins

theorem Twins.leaving (h : I.Twins m m') :
    I.Twins (m.atDepth (m.callDepth - 1)) (m'.atDepth (m'.callDepth - 1)) := by
  rw [h.callDepth]
  exact h.atDepth _

/-- Where a line may be asked for the next one is the same in both inputs, if there is one. -/
theorem same_head (I : Inputs) {p : Nat} (hp : p < I.k) :
    (I.left.drop p = [] ∧ I.right.drop p = []) ∨
      ∃ line, I.left.drop p = line :: I.left.drop (p + 1) ∧
        I.right.drop p = line :: I.right.drop (p + 1) := by
  have hsame : I.left[p]? = I.right[p]? := by
    rw [← List.getElem?_take_of_lt hp, I.same, List.getElem?_take_of_lt hp]
  cases hl : I.left[p]? with
  | none =>
    have hr : I.right[p]? = none := hsame.symm.trans hl
    rw [List.getElem?_eq_none_iff] at hl hr
    exact Or.inl ⟨List.drop_of_length_le hl, List.drop_of_length_le hr⟩
  | some line =>
    have hr : I.right[p]? = some line := hsame.symm.trans hl
    obtain ⟨hlt, hline⟩ := List.getElem?_eq_some_iff.mp hl
    obtain ⟨hlt', hline'⟩ := List.getElem?_eq_some_iff.mp hr
    refine Or.inr ⟨line, ?_, ?_⟩
    · rw [List.drop_eq_getElem_cons hlt, hline]
    · rw [List.drop_eq_getElem_cons hlt', hline']

namespace Alike

theorem pure {a : α} (ha : V a) : I.Alike V (Pure.pure a) (Pure.pure a) :=
  fun _ _ hm => .ok ha hm

theorem thrown (e : Fault) : I.Alike V (throw e) (throw e) :=
  fun _ _ hm => .error (Or.inl rfl) hm

/-- A sequence is alike on both inputs if its halves are. -/
theorem bind {x y : Run α} {f g : α → Run β} (hx : I.Alike V x y)
    (hf : ∀ a, V a → I.Alike W (f a) (g a)) : I.Alike W (x >>= f) (y >>= g) := by
  intro m m' hm
  have h := hx m m' hm
  generalize hr : x m = r at h
  generalize hr' : y m' = r' at h
  cases h with
  | ok ha hm =>
    rw [run_bind_ok hr, run_bind_ok hr']
    exact hf _ ha _ _ hm
  | error he hm =>
    rw [run_bind_error hr, run_bind_error hr']
    exact .error he hm

/-- What does not read comes to the same on both inputs. -/
theorem steady {P : Command → Prop} {x : Run α} (hx : Steady Any P V x) (hdeaf : Deaf x) :
    I.Alike V x x := by
  intro m m' hm
  have hends := (hx m m.holds_any).1
  obtain ⟨hcheckpoints, hstdin⟩ := hx.unchanged hdeaf m
  -- Nothing is read and no checkpoint is passed, so the bound on the lines is kept.
  have hsame : x m' = onState (fun m₁ => m₁.reading m'.stdin) (x m) := by
    rw [hm.eq_reading]
    exact hdeaf m m'.stdin
  rw [hsame]
  cases hr : x m with
  | ok a m₁ =>
    rw [hr] at hends hcheckpoints hstdin
    exact .ok hends.1 (hm.unread hstdin (Nat.le_of_eq hcheckpoints))
  | error e m₁ =>
    rw [hr] at hcheckpoints hstdin
    exact .error (Or.inl rfl) (hm.unread hstdin (Nat.le_of_eq hcheckpoints))

theorem quiet {x : Run α} (hx : Quiet Any V x) : I.Alike V x x :=
  steady (hx.steady (P := Any)) hx.deaf

theorem checkpoint {x y : Run α} (hx : I.Alike V x y) :
    I.Alike V (Run.checkpoint >>= fun _ => x) (Run.checkpoint >>= fun _ => y) := by
  intro m m' hm
  cases hn : m.checkpoints with
  | zero =>
    rw [run_checkpoint_zero hn, run_checkpoint_zero (hm.checkpoints.trans hn)]
    exact .error (Or.inr ⟨trivial, trivial⟩) hm
  | succ n =>
    rw [run_checkpoint_succ hn, run_checkpoint_succ (hm.checkpoints.trans hn)]
    exact hx _ _ (hm.allowing (hn ▸ Nat.le_succ n))

/-- A call is alike on both inputs if what is done inside of it is. -/
theorem nested {x y : Run α} (hx : I.Alike V x y) : I.Alike V (Run.nested x) (Run.nested y) := by
  intro m m' hm
  by_cases hfull : maxCallDepth ≤ m.callDepth
  · rw [run_nested_full hfull, run_nested_full (hm.callDepth.symm ▸ hfull)]
    exact .error (Or.inl rfl) hm
  · have hroom : m.callDepth < maxCallDepth := Nat.lt_of_not_le hfull
    -- Both calls are entered and left at the same depth.
    have h := hx _ _ (hm.atDepth (m.callDepth + 1))
    rw [run_nested hroom, run_nested (hm.callDepth.symm ▸ hroom), hm.callDepth]
    generalize x (m.atDepth (m.callDepth + 1)) = r at h ⊢
    generalize y (m'.atDepth (m.callDepth + 1)) = r' at h ⊢
    cases h with
    | ok ha hm => exact .ok ha hm.leaving
    | error he hm => exact .error he hm.leaving

/-- Faults that end the run at once are handed on on both inputs. -/
theorem outcome {x y : Run α} {f g : Except Fault α → Run β} (hx : I.Alike V x y)
    (hok : ∀ a, V a → I.Alike W (f (.ok a)) (g (.ok a)))
    (herror : ∀ e, e.Plain Any → e.isFinal = false → I.Alike W (f (.error e)) (g (.error e)))
    (hfinal : ∀ e, e.isFinal = true → f (.error e) = throw e ∧ g (.error e) = throw e) :
    I.Alike W (Run.outcome x >>= f) (Run.outcome y >>= g) := by
  intro m m' hm
  have h := hx m m' hm
  generalize hr : x m = r at h
  generalize hr' : y m' = r' at h
  cases h with
  | ok ha hm =>
    rw [run_outcome_ok hr, run_outcome_ok hr']
    exact hok _ ha _ _ hm
  | @error e e' m₁ m₁' he hm =>
    rw [run_outcome_error hr, run_outcome_error hr']
    cases hend : e.isFinal with
    | true =>
      have hend' : e'.isFinal = true := by
        obtain rfl | ⟨-, he'⟩ := he
        · exact hend
        · exact he'.isFinal
      rw [(hfinal e hend).1, (hfinal e' hend').2]
      exact .error he hm
    | false =>
      obtain rfl | ⟨ht, -⟩ := he
      · exact herror e (Fault.plain_of_not_final hend) hend _ _ hm
      · exact absurd ht (e.not_isTimeout_of_not_final hend)

/-- A loop is alike on both inputs if each of its rounds is, by induction on how many rounds are left. -/
theorem loop {σ : Type} {f g : Nat → σ → Run α} {F G : (σ → Run α) → σ → Run α}
    (hf0 : ∀ s, f 0 s = throw .exhausted) (hg0 : ∀ s, g 0 s = throw .exhausted)
    (hf : ∀ n s, f (n + 1) s = F (f n) s) (hg : ∀ n s, g (n + 1) s = G (g n) s)
    (hstep : ∀ x y, (∀ s, I.Alike V (x s) (y s)) → ∀ s, I.Alike V (F x s) (G y s)) (s : σ) :
    I.Alike V (Run.rounds >>= fun n => f n s) (Run.rounds >>= fun n => g n s) := by
  intro m m' hm
  have hzero (s : σ) : I.Alike V (f 0 s) (g 0 s) := by
    rw [hf0, hg0]
    exact thrown _
  have h := loops_related hzero hf hg hstep (m.checkpoints + 1) s m m' hm
  change I.Agree V (f (m.checkpoints + 1) s m) (g (m'.checkpoints + 1) s m')
  rw [hm.checkpoints]
  exact h

/-- A line that is asked for where asking is allowed is the same in both inputs. -/
theorem prompt {n : Nat} (hm : I.Twins m m') (hn : m.checkpoints = n + 1) (hasks : I.asks n = true) :
    I.Agree (Value.Holds Any) (Run.prompt (m.allowing n)) (Run.prompt (m'.allowing n)) := by
  obtain ⟨p, s, rfl, hleft, hright, hle⟩ := hm
  -- This line is no longer one of those that may still be asked for.
  have hallowance : I.allowance m = I.allowance (m.allowing n) + 1 := by
    unfold allowance
    rw [hn, List.range_succ, List.countP_append, List.countP_singleton, if_pos hasks]
    rfl
  obtain ⟨hl, hr⟩ | ⟨line, hl, hr⟩ := I.same_head (p := p) (by omega)
  · rw [run_prompt_nil (m := m.allowing n) (hleft.trans hl),
      run_prompt_nil (m := (m.reading s).allowing n) (hright.trans hr)]
    exact .ok trivial ⟨p, s, rfl, hleft, hright, by omega⟩
  · have hl : (m.allowing n).stdin.lines = line :: I.left.drop (p + 1) := hleft.trans hl
    have hr : ((m.reading s).allowing n).stdin.lines = line :: I.right.drop (p + 1) := hright.trans hr
    rw [run_prompt_cons hl, run_prompt_cons hr]
    -- What is left is to make a string of the line, which does not read.
    refine quiet (Quiet.makeString line) _ _ ?_
    rw [Machine.prompted_cons hl, Machine.prompted_cons hr]
    refine ⟨p + 1, ⟨I.right.drop (p + 1)⟩, rfl, rfl, rfl, ?_⟩
    change p + 1 + I.allowance (m.allowing n) ≤ I.k
    omega

end Alike

def alike (I : Inputs) : Simulation Any Unit where
  Rel _ _ V x y := I.Alike V x y
  After _ _ := True
  Inside _ _ := True
  Effects _ := True
  Reads _ := False
  faults := plainFaults Any
  thrown _ := Alike.thrown _
  compositional _ := ⟨Alike.pure, Alike.bind⟩
  quiet hx := Alike.quiet hx
  steady _ hx hdeaf := Alike.steady hx hdeaf
  prompt := False.elim
  later _ hx := hx
  checkpoint hx := Alike.checkpoint (hx () trivial)
  nested hx := Alike.nested (hx () trivial)
  outcome hx hok herror hfinal := Alike.outcome hx hok herror hfinal
  loop hf0 hg0 hf hg hstep :=
    Alike.loop hf0 hg0 hf hg fun x y hxy => hstep () (Or.inl rfl) x y fun _ _ => hxy

theorem alike_runsTimers (I : Inputs) : I.alike.RunsTimers where
  waiting m m' hm := by
    rw [hm.eq_reading]
    exact .ok trivial (hm.unread rfl (Nat.le_refl _))
  next _ := Alike.steady Steady.nextTimer? fun m s => by
    have htimers : (m.reading s).timers = m.timers := rfl
    unfold Run.nextTimer?
    simp only [htimers]
    cases m.timers.next? with
    | none => rfl
    | some found => rfl

/-- A call comes to the same on both inputs if it does so where it is not cut off. -/
theorem Alike.asking {ev ev' : Evaluator} {f receiver : Value} {arguments : List Value}
    {V : Value → Prop}
    (hcall : ∀ m m', I.Twins m m' → m.mayCall I.asks f = true →
      I.Agree V (ev.call f receiver arguments m) (ev'.call f receiver arguments m')) :
    I.Alike V ((ev.asking I.asks).call f receiver arguments)
      ((ev'.asking I.asks).call f receiver arguments) := by
  intro m m' hm
  have hsame : m'.mayCall I.asks f = m.mayCall I.asks f := by
    rw [hm.eq_reading]
    rfl
  cases hmay : m.mayCall I.asks f with
  | true =>
    rw [ev.call_asking hmay, ev'.call_asking (hsame.trans hmay)]
    exact hcall m m' hm hmay
  | false =>
    rw [ev.call_asking_cut hmay, ev'.call_asking_cut (hsame.trans hmay)]
    exact .error (Or.inl rfl) hm

/-- A call that asks for a line where that is allowed comes to the same on both inputs. -/
theorem agree_call_prompt (ev ev' : Evaluator) {f : Value} (hf : f.isPrompt = true) (receiver : Value)
    (arguments : List Value) (hm : I.Twins m m') (hmay : m.mayCall I.asks f = true) :
    I.Agree (Value.Holds Any) (Run.call ev f receiver arguments m)
      (Run.call ev' f receiver arguments m') := by
  rw [run_call_prompt ev hf, run_call_prompt ev' hf]
  cases hn : m.checkpoints with
  | zero =>
    rw [run_checkpoint_zero hn, run_checkpoint_zero (hm.checkpoints.trans hn)]
    exact .error (Or.inr ⟨trivial, trivial⟩) hm
  | succ n =>
    rw [Machine.mayCall_prompt hf hn] at hmay
    rw [run_checkpoint_succ hn, run_checkpoint_succ (hm.checkpoints.trans hn)]
    exact Alike.prompt hm hn hmay

/-- Evaluation that asks for lines where that is allowed comes to the same on both inputs; by induction on
the depth. -/
theorem askingEvaluator_alike (I : Inputs) (k : Nat) :
    EvaluatorsRelated I.alike () Any (askingEvaluator I.asks k) (askingEvaluator I.asks k) := by
  induction k with
  | zero => exact evaluator_zero_self (Alike.thrown _)
  | succ k ih =>
    have hlayer : EvaluatorsRelated I.alike () Any ((askingEvaluator I.asks k).layer.asking I.asks)
        ((askingEvaluator I.asks k).layer.asking I.asks) := by
      refine ih.layerWith (fun _ _ _ _ => trivial) (fun _ _ _ _ => trivial)
        (fun _ _ _ _ => Or.inr trivial) (fun _ _ _ _ => trivial) (fun _ _ => trivial)
        (fun _ _ => trivial) ?_ ?_
      · intro _ f receiver arguments hf hr ha
        refine Alike.asking fun m m' hm hmay => ?_
        -- Only the function that asks for a line reads; the rest is the simulation's.
        cases hprompt : f.isPrompt with
        | true => exact agree_call_prompt _ _ hprompt receiver arguments hm hmay
        | false =>
          have hcall : I.alike.Rel () (Value.Holds Any)
              (Run.call (askingEvaluator I.asks k) f receiver arguments)
              (Run.call (askingEvaluator I.asks k) f receiver arguments) :=
            EvaluatorsRelated.runCall hf hr ha (fun _ _ _ => trivial) (fun hread => Bool.noConfusion (hprompt.symm.trans hread))
              (fun _ _ _ _ _ => ⟨Any, ih, fun _ _ _ _ => trivial⟩) fun _ _ _ => ih.call trivial
          exact hcall m m' hm
      · intro _ f arguments label hf ha
        exact EvaluatorsRelated.runConstruct (C := I.alike) hf ha label
          fun _ _ _ _ _ => ⟨Any, ih, fun _ _ _ _ => trivial⟩
    exact hlayer

end Inputs

theorem Inputs.Agree.cutOff {I : Inputs} {α : Type} {V : α → Prop}
    {r r' : EStateM.Result Fault Machine α} (h : I.Agree V r r') (hcut : CutOff r') : CutOff r := by
  obtain ⟨m, rfl⟩ := hcut
  cases h with
  | error he hm =>
    obtain rfl | ⟨-, htimeout⟩ := he
    · exact ⟨_, rfl⟩
    · exact htimeout.elim

namespace Job

variable {stdin stdin' : String} {n k : Nat}

/-- Runs that may ask for as many lines as their inputs have in common come to the same. -/
theorem runAsking_agree (statements : List Stmt) {asks : Nat → Bool}
    (hsame : (inputLines stdin).take k = (inputLines stdin').take k)
    (hk : (List.range n).countP asks ≤ k) :
    (Inputs.mk (inputLines stdin) (inputLines stdin') k asks hsame).Agree Any
      ((Job.mk statements stdin n).runAsking asks) ((Job.mk statements stdin' n).runAsking asks) := by
  let I := Inputs.mk (inputLines stdin) (inputLines stdin') k asks hsame
  have hstart : I.Twins (Machine.start stdin n) (Machine.start stdin' n) := by
    refine ⟨0, Stdin.ofText stdin', rfl, Stdin.ofText_lines stdin, Stdin.ofText_lines stdin', ?_⟩
    change 0 + (List.range n).countP asks ≤ k
    omega
  exact (I.askingEvaluator_alike (depthBound (n + 1) statements)).programBy I.alike_runsTimers trivial
    statements (fun _ _ => trivial) _ _ hstart

variable {statements : List Stmt}

/-- A run asks for no line where a run on an input with the same lines, as far as they are asked for, does
not ask for one, and it comes to the same. -/
theorem asksAt_of_same (hsame : (inputLines stdin).take k = (inputLines stdin').take k)
    (hk : (Job.mk statements stdin n).requests ≤ k) :
    (∀ i, (Job.mk statements stdin' n).asksAt i = true → (Job.mk statements stdin n).asksAt i = true) ∧
      (Inputs.mk (inputLines stdin) (inputLines stdin') k (Job.mk statements stdin n).asksAt hsame).Agree
        Any (Job.mk statements stdin n).run (Job.mk statements stdin' n).run := by
  have hagree := runAsking_agree statements hsame hk
  rw [runAsking_asksAt] at hagree
  -- A run that is not cut off asks at no other checkpoints than those it may ask at.
  have hcut : ¬ CutOff ((Job.mk statements stdin' n).runAsking (Job.mk statements stdin n).asksAt) :=
    fun hcut => program_not_cutOff statements stdin n (hagree.cutOff hcut)
  rw [runAsking_eq_run hcut] at hagree
  exact ⟨fun i hi => asks_of_asksAt hcut hi, hagree⟩

/-- Two inputs that begin with the same lines are asked for the same number of lines. -/
theorem requests_of_same (hsame : (inputLines stdin).take k = (inputLines stdin').take k)
    (hk : (Job.mk statements stdin n).requests ≤ k) :
    (Job.mk statements stdin' n).requests = (Job.mk statements stdin n).requests := by
  obtain ⟨hasks, -⟩ := asksAt_of_same hsame hk
  have hle : (Job.mk statements stdin' n).requests ≤ (Job.mk statements stdin n).requests :=
    List.countP_mono_left fun i _ hi => hasks i hi
  -- The second run asks for no more lines than the first, so the same holds the other way round.
  obtain ⟨hasks', -⟩ := asksAt_of_same hsame.symm (Nat.le_trans hle hk)
  have hge : (Job.mk statements stdin n).requests ≤ (Job.mk statements stdin' n).requests :=
    List.countP_mono_left fun i _ hi => hasks' i hi
  exact Nat.le_antisymm hle hge

end Job

def promptCalls (source stdin : String) (budget : Budget) : Nat :=
  match parseProgram source with
  | .error _ => 0
  | .ok statements => (Job.mk statements stdin budget.checkpoints).requests

theorem promptCalls_of_parsed {source : String} {statements : List Stmt}
    (hp : parseProgram source = .ok statements) (stdin : String) (budget : Budget) :
    promptCalls source stdin budget = (Job.mk statements stdin budget.checkpoints).requests := by
  unfold promptCalls
  rw [hp]

/-- Every call that asks for a line passes a checkpoint of its own. -/
theorem promptCalls_le (source stdin : String) (budget : Budget) :
    promptCalls source stdin budget ≤ budget.checkpoints := by
  cases hp : parseProgram source with
  | error fault =>
    unfold promptCalls
    rw [hp]
    exact Nat.zero_le _
  | ok statements =>
    rw [promptCalls_of_parsed hp]
    exact List.countP_le_length.trans_eq List.length_range

/-- Faults that are the same but for the state a timeout tells of are reported in the same way. -/
theorem Inputs.SameFault.report? {e e' : Fault} (h : Inputs.SameFault e e') (timeout : String)
    (heap : Heap) : e.report? timeout heap = e'.report? timeout heap := by
  obtain rfl | ⟨he, he'⟩ := h
  · rfl
  · cases e with
    | timeout s =>
      cases e' with
      | timeout s' => rfl
      | _ => exact he'.elim
    | _ => exact he.elim

theorem draft_of_twins {I : Inputs} {m m' : Machine} (h : I.Twins m m') (source : String) :
    m'.draft source = m.draft source := by
  rw [h.eq_reading]
  rfl

/-- What is reported of two runs that come to the same is the same. -/
theorem evaluate_of_agree {source : String} {statements : List Stmt}
    (hp : parseProgram source = .ok statements) {stdin stdin' : String} {budget : Budget} {I : Inputs}
    (h : I.Agree Any (Job.mk statements stdin budget.checkpoints).run
      (Job.mk statements stdin' budget.checkpoints).run) :
    evaluate source stdin' budget = evaluate source stdin budget := by
  generalize hr : (Job.mk statements stdin budget.checkpoints).run = r at h
  generalize hr' : (Job.mk statements stdin' budget.checkpoints).run = r' at h
  cases h with
  | ok ha hm =>
    unfold evaluate
    rw [evaluateWithin_of_ok _ hp hr, evaluateWithin_of_ok _ hp hr', draft_of_twins hm]
  | error he hm =>
    unfold evaluate
    rw [evaluateWithin_of_error _ hp hr, evaluateWithin_of_error _ hp hr', draft_of_twins hm,
      he.report?, hm.eq_reading]
    rfl

/-- A source that is no script is rejected on every input. -/
theorem rejected_on_every_input {source : String} {fault : SyntaxFault}
    (hp : parseProgram source = .error fault) (stdin stdin' : String) (budget : Budget) :
    evaluate source stdin' budget = evaluate source stdin budget := by
  unfold evaluate evaluateWithin
  rw [hp]
  rfl

/-- A run on another input with the same first lines asks as often and comes to the same report. -/
theorem same_on_same_lines (source : String) {stdin stdin' : String} (budget : Budget) {k : Nat}
    (hsame : (inputLines stdin).take k = (inputLines stdin').take k)
    (hk : promptCalls source stdin budget ≤ k) :
    promptCalls source stdin' budget = promptCalls source stdin budget ∧
      evaluate source stdin' budget = evaluate source stdin budget := by
  cases hp : parseProgram source with
  | error fault =>
    unfold promptCalls
    rw [hp]
    exact ⟨rfl, rejected_on_every_input hp stdin stdin' budget⟩
  | ok statements =>
    rw [promptCalls_of_parsed hp] at hk
    rw [promptCalls_of_parsed hp, promptCalls_of_parsed hp]
    exact ⟨Job.requests_of_same hsame hk, evaluate_of_agree hp (Job.asksAt_of_same hsame hk).2⟩

/-- What is reported of a source depends only on the lines that its run asks for: on every input that begins
with the same lines, or ends where the first one does before there are as many, the run asks for as many
lines and the report is the same. A run that asks for no line is the same on every input. -/
theorem report_depends_on_lines_asked_for (source stdin stdin' : String) (budget : Budget) (k : Nat)
    (hsame : (inputLines stdin).take k = (inputLines stdin').take k)
    (hk : promptCalls source stdin budget ≤ k) :
    (promptCalls source stdin' budget = promptCalls source stdin budget ∧
      evaluate source stdin' budget = evaluate source stdin budget) ∧
    (promptCalls source stdin budget = 0 → ∀ other,
      promptCalls source other budget = 0 ∧
        evaluate source other budget = evaluate source stdin budget) := by
  refine ⟨same_on_same_lines source budget hsame hk, fun hnone other => ?_⟩
  have hother := same_on_same_lines (k := 0) source budget
    (show (inputLines stdin).take 0 = (inputLines other).take 0 from rfl) (Nat.le_of_eq hnone)
  exact ⟨hother.1.trans hnone, hother.2⟩

/-- A script that asks for one line does not see the second one. -/
theorem second_line_is_not_seen :
    (inputLines "1\n2").take 1 = (inputLines "1\n3").take 1 ∧
      promptCalls "prompt()" "1\n2" ⟨1000⟩ ≤ 1 ∧
      evaluate "prompt()" "1\n3" ⟨1000⟩ = evaluate "prompt()" "1\n2" ⟨1000⟩ := by
  have hsame : (inputLines "1\n2").take 1 = (inputLines "1\n3").take 1 := by decide +kernel
  have hk : promptCalls "prompt()" "1\n2" ⟨1000⟩ ≤ 1 :=
    Nat.le_trans (promptCalls_le _ _ _) (by decide)
  have h := report_depends_on_lines_asked_for "prompt()" "1\n2" "1\n3" ⟨1000⟩ 1 hsame hk
  exact ⟨hsame, hk, h.1.2⟩

end Snippet.Script
