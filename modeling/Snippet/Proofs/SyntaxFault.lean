import Snippet.Proofs.Ending
import Snippet.Proofs.TreeHeight

/-!
Faults of the syntax. Most of them are found before a script runs, on a line of its text; the one that
evaluation knows, an assignment to what cannot be assigned to, is left to it by the parser in some places.
A script that assigns to targets only does not come to it.
-/

namespace Snippet.Script

/-- Functions of `Q` are all that a fault holds, and it is not that of an assignment to no target. -/
def Fault.OnTarget (Q : Func → Prop) : Fault → Prop
  | .thrown v => v.Holds Q
  | .raised e => e.isOffTarget = false
  | _ => True

theorem Fault.Ordinary.onTarget {Q : Func → Prop} {e : Fault} (he : e.Ordinary Q) : e.OnTarget Q := by
  cases e with
  | raised e => exact he
  | thrown v => exact he
  | _ => trivial

theorem Fault.OnTarget.ordinary {Q : Func → Prop} {e : Fault} (he : e.OnTarget Q)
    (hne : e.isFinal = false) : e.Ordinary Q := by
  cases e with
  | raised e => exact he
  | thrown v => exact he
  | _ => exact Bool.noConfusion hne

def StaysOnTarget (Q : Func → Prop) {α : Type} (V : α → Prop) (x : Run α) : Prop :=
  ∀ m : Machine, m.Holds Q → Ends V (Fault.OnTarget Q) (fun m' => m'.Holds Q) (x m)

namespace StaysOnTarget

variable {Q : Func → Prop} {α β : Type} {V : α → Prop} {W : β → Prop}

theorem pure {a : α} (ha : V a) : StaysOnTarget Q V (Pure.pure a) := fun _ hm => ⟨ha, hm⟩

theorem thrown {e : Fault} (he : e.OnTarget Q) : StaysOnTarget Q V (throw e) := fun _ hm => ⟨he, hm⟩

theorem bind {x : Run α} {f : α → Run β} (hx : StaysOnTarget Q V x)
    (hf : ∀ a, V a → StaysOnTarget Q W (f a)) : StaysOnTarget Q W (x >>= f) :=
  fun m hm => (hx m hm).bind (S := fun _ m' => m'.Holds Q) (fun _ _ _ h => h) fun a m' ha hm' =>
    hf a ha m' hm'

theorem steady {P : Command → Prop} {x : Run α} (hx : Steady Q P V x) : StaysOnTarget Q V x :=
  fun m hm => (hx m hm).1.imp (fun _ ha => ha) (fun _ he => he.onTarget) fun _ h => h.1

theorem checkpoint {x : Run α} (hx : StaysOnTarget Q V x) :
    StaysOnTarget Q V (Run.checkpoint >>= fun _ => x) := by
  intro m hm
  cases hn : m.checkpoints with
  | zero =>
    rw [run_checkpoint_zero hn]
    exact ⟨trivial, hm⟩
  | succ n =>
    rw [run_checkpoint_succ hn]
    exact hx (m.allowing n) ⟨hm.heap, hm.timers⟩

theorem nested {x : Run α} (hx : StaysOnTarget Q V x) : StaysOnTarget Q V (Run.nested x) := by
  intro m hm
  refine Ends.nested (S := fun _ m' => m'.Holds Q) rfl hm (fun m' h => ⟨h.heap, h.timers⟩) ?_
  exact hx (m.atDepth (m.callDepth + 1)) ⟨hm.heap, hm.timers⟩

theorem outcome {x : Run α} {f : Except Fault α → Run β} (hx : StaysOnTarget Q V x)
    (hok : ∀ a, V a → StaysOnTarget Q W (f (.ok a)))
    (herror : ∀ e, e.Ordinary Q → e.isFinal = false → StaysOnTarget Q W (f (.error e)))
    (hfinal : ∀ e, e.isFinal = true → f (.error e) = throw e) :
    StaysOnTarget Q W (Run.outcome x >>= f) := by
  intro m hm
  refine (hx m hm).outcome (S := fun _ m' => m'.Holds Q) (fun _ _ _ h => h) ?_ ?_ hfinal
  · exact fun a m' ha hm' => hok a ha m' hm'
  · exact fun e m' he hne hm' => herror e (he.ordinary hne) hne m' hm'

/-- Loops of any number of rounds. -/
theorem loop {σ : Type} {f : Nat → σ → Run α} {F : (σ → Run α) → σ → Run α}
    (hzero : ∀ s, f 0 s = throw .exhausted) (hsucc : ∀ n s, f (n + 1) s = F (f n) s)
    (hstep : ∀ x, (∀ s, StaysOnTarget Q V (x s)) → ∀ s, StaysOnTarget Q V (F x s)) (n : Nat) (s : σ) :
    StaysOnTarget Q V (f n s) := by
  refine loops_related (R := fun x _ => StaysOnTarget Q V x) (fun s => ?_) hsucc hsucc
    (fun x _ => hstep x) n s
  rw [hzero]
  exact thrown trivial

end StaysOnTarget

def targeting (Q : Func → Prop) : Simulation Q Unit where
  Rel _ _ V x _ := StaysOnTarget Q V x
  After _ _ := True
  Inside _ _ := True
  Effects _ := True
  Reads _ := True
  faults := ordinaryFaults Q
  thrown he := StaysOnTarget.thrown he.onTarget
  compositional _ := ⟨StaysOnTarget.pure, StaysOnTarget.bind⟩
  quiet hx := StaysOnTarget.steady (hx.steady (P := Any))
  steady _ hx _ := StaysOnTarget.steady hx
  prompt _ := StaysOnTarget.steady Steady.prompt
  later _ hx := hx
  checkpoint hx := StaysOnTarget.checkpoint (hx () trivial)
  nested hx := StaysOnTarget.nested (hx () trivial)
  outcome hx hok herror hfinal := StaysOnTarget.outcome hx hok herror fun e he => (hfinal e he).1
  loop hzero _ hsucc _ hstep s m :=
    StaysOnTarget.loop hzero hsucc (fun x hx => hstep () (Or.inl rfl) x x fun _ _ => hx) _ s m

theorem targeting_runsTimers (Q : Func → Prop) : (targeting Q).RunsTimers where
  waiting _ hm := ⟨trivial, hm⟩
  next _ := StaysOnTarget.steady Steady.nextTimer?

def Part.Aims : Part → Prop
  | .expr e => ∀ target, e.assigned? = some target → target.isTarget = true
  | _ => True

def Aimed (p : Part) : Prop := ∀ q, p.Contains q → q.Aims

theorem Aimed.part {p q : Part} (h : Aimed p) (hq : q ∈ p.parts) : Aimed q :=
  fun q' hq' => h q' (.inside hq hq')

/-- Evaluation of any depth assigns to targets only in the parts in which there is nothing else to assign
to. -/
theorem evaluator_aims (n : Nat) :
    EvaluatorsRelated (targeting fun f => Aimed (.func f)) () Aimed (evaluator n) (evaluator n) := by
  induction n with
  | zero =>
    -- What is cut off comes to no fault of the script.
    exact evaluator_zero_within (StaysOnTarget.thrown trivial) (fun _ he _ hp => he.part hp) (fun _ hf => hf)
      fun _ hf => hf.part List.mem_cons_self
  | succ n ih =>
    rw [evaluator_succ]
    refine ih.layer (fun _ he _ hp => he.part hp) (fun _ hs _ hp => hs.part hp) ?_
      (fun _ he _ hp => he.part hp) (fun _ hf => hf) (fun _ hf => hf.part List.mem_cons_self)
      (fun _ _ => trivial) (fun _ _ => trivial) ?_ ?_
    · exact fun e target he htarget => Or.inl (he _ (.itself _) target htarget)
    -- The functions that a run holds are those of aimed parts, so their insides are aimed.
    · exact fun _ _ _ _ _ => ⟨Aimed, ih, fun _ hf _ hp => hf.part hp⟩
    · exact fun hcall _ _ => ih.call hcall

def Expr.unchecked : Expr → List Expr
  -- What an expression assigns to without the parser having checked it: the target of a step, and
  -- what a pattern consists of.
  | .update _ _ target => [target]
  | .assign _ (.array items) _ => items.map fun
    | .mk _ e => e
  | .assign _ (.object members) _ => members.filterMap fun
    | .init _ e => some e
    | .spread _ => none
  | _ => []

theorem areItemTargets_of_all {items : List Item}
    (h : ∀ e v, e ∈ Expr.unchecked (.assign none (.array items) v) → e.isTarget = true) :
    areItemTargets items = true := by
  induction items with
  | nil => rfl
  | cons item rest ih =>
    obtain ⟨spread, e⟩ := item
    have hrest := ih fun e' v he' => h e' v (List.mem_cons_of_mem _ he')
    exact Bool.and_eq_true_iff.mpr ⟨h e .null List.mem_cons_self, hrest⟩

/-- Members are targets if the expressions that the parser leaves unchecked in them are. -/
theorem areMemberTargets_of_all {members : List Member}
    (h : ∀ e v, e ∈ Expr.unchecked (.assign none (.object members) v) → e.isTarget = true) :
    areMemberTargets members = true := by
  induction members with
  | nil => rfl
  | cons member rest ih =>
    cases member with
    | spread e => exact ih h
    | init key e =>
      have hrest := ih fun e' v he' => h e' v (List.mem_cons_of_mem _ he')
      exact Bool.and_eq_true_iff.mpr ⟨h e .null List.mem_cons_self, hrest⟩

/-- What the parser checks of an assignment, and what it does not, together make sure of its target. -/
theorem aims_of_unchecked {p : Part} (hp : p.Admissible)
    (h : ∀ e, p = .expr e → ∀ target ∈ e.unchecked, target.isTarget = true) : p.Aims := by
  cases p with
  | expr e =>
    intro target htarget
    cases e with
    | update increment before operand =>
      obtain rfl := Option.some.inj htarget
      exact h _ rfl _ List.mem_cons_self
    | assign op left value =>
      obtain rfl := Option.some.inj htarget
      cases left with
      | name | member => rfl
      | array items => exact areItemTargets_of_all fun e v he => h _ rfl e he
      | object members => exact areMemberTargets_of_all fun e v he => h _ rfl e he
      | _ => exact absurd hp Bool.false_ne_true
    | _ => cases htarget
  | _ => trivial

def AimsThroughout (source : String) : Prop :=
  ∀ statements, parseProgram source = .ok statements → ∀ e, StandsIn statements (.expr e) →
    ∀ target ∈ e.unchecked, target.isTarget = true

/-- The statements of a script that aims at targets throughout do so one by one. -/
theorem aimed_of_aimsThroughout {source : String} {statements : List Stmt}
    (hp : parseProgram source = .ok statements) (h : AimsThroughout source) :
    ∀ p ∈ statements.map Part.stmt, Aimed p := by
  have hparsed := parseProgram_parsesTo source
  rw [hp] at hparsed
  intro p hmem q hq
  obtain ⟨s, hs, rfl⟩ := List.mem_map.mp hmem
  refine aims_of_unchecked ?_ ?_
  · cases (hparsed s hs).contains hq with
    | node hadmissible _ _ => exact hadmissible
  · rintro e rfl
    exact h statements hp e ⟨s, hs, hq⟩

def Ending.isSyntaxFault : Ending → Bool
  | .rejected _ => true
  | .failed (.raised .invalidTarget) _ => true
  | _ => false

/-- A script in which a value can be assigned to whatever the parser leaves unchecked does not end with a
fault of the syntax. -/
theorem Ending.isSyntaxFault_of_aimed {source : String} (stdin : String) (budget : Budget)
    {statements : List Stmt} (hp : parseProgram source = .ok statements) (h : AimsThroughout source) :
    (Ending.of source stdin budget).isSyntaxFault = false := by
  have haimed := aimed_of_aimsThroughout hp h
  -- A run begins with built-in functions only, and what it adds to them comes from the script.
  have hends := (evaluator_aims (depthBound (budget.checkpoints + 1) statements)).programBy
    (targeting_runsTimers _) (fun q hq => ?_) statements haimed
    (Machine.start stdin budget.checkpoints) (Machine.holds_start _ _)
  · rw [of, within_parsed stdin budget.checkpoints hp]
    change Ends _ _ _ (Run.program statements (Machine.start stdin budget.checkpoints)) at hends
    cases hr : Run.program statements (Machine.start stdin budget.checkpoints) with
    | ok a m => rfl
    | error e m =>
      rw [hr] at hends
      cases e with
      | raised e =>
        cases e with
        | invalidTarget => exact Bool.noConfusion hends.1
        | _ => rfl
      | _ => rfl
  · cases hq with
    | itself => trivial
    | inside hmem _ => exact absurd hmem List.not_mem_nil

/-- A run that comes to a fault of the syntax was ended by an invalid target. -/
theorem Ending.failed_of_isSyntaxFault {source stdin : String} {budget : Budget} {statements : List Stmt}
    (hp : parseProgram source = .ok statements) (h : (Ending.of source stdin budget).isSyntaxFault = true) :
    ∃ m, Ending.of source stdin budget = .failed (.raised .invalidTarget) m := by
  rw [of, within_parsed stdin budget.checkpoints hp] at h ⊢
  cases hr : Run.program statements (Machine.start stdin budget.checkpoints) with
  | ok a m =>
    rw [hr] at h
    exact absurd h Bool.false_ne_true
  | error e m =>
    rw [hr] at h
    cases e with
    | raised e =>
      cases e with
      | invalidTarget => exact ⟨m, rfl⟩
      | _ => exact absurd h Bool.false_ne_true
    | _ => exact absurd h Bool.false_ne_true

/-- What is reported of a source that is no script: nothing but its fault. -/
theorem evaluate_of_rejected {source : String} {fault : SyntaxFault}
    (hp : parseProgram source = .error fault) (stdin : String) (budget : Budget) :
    evaluate source stdin budget = some (((Machine.start "" 0).draft source).fail fault.report) := by
  rw [evaluate_eq_draft?, Ending.of, Ending.within_rejected stdin budget.checkpoints hp]
  rfl

/-- A source that is no script is not run: its fault is on a line of it, there is no output, and neither the
standard input nor the budget makes a difference. A script ends with a fault of the syntax only if it
assigns to something that the parser has left unchecked and that nothing can be assigned to, and the fault
is then said to be on line 0. -/
theorem syntax_faults_come_first (source stdin : String) (budget : Budget) :
    (∀ fault, parseProgram source = .error fault →
      (1 ≤ fault.line ∧ fault.line ≤ lineCount source.toList) ∧
        ∃ draft, draft.output = some "" ∧ draft.error = some fault.report ∧
          ∀ stdin budget, Ending.of source stdin budget = .rejected fault ∧
            evaluate source stdin budget = some draft) ∧
    ((Ending.of source stdin budget).isSyntaxFault = true →
      (∃ fault, parseProgram source = .error fault) ∨
        ¬ AimsThroughout source ∧ ∃ draft, evaluate source stdin budget = some draft ∧
          draft.error = some "SyntaxError: Invalid left-hand side in assignment (line 0)") := by
  refine ⟨fun fault hp => ⟨?_, ?_⟩, fun hfault => ?_⟩
  · have hparsed := parseProgram_parsesTo source
    rw [hp] at hparsed
    exact ⟨hparsed.first, hparsed.last⟩
  · refine ⟨((Machine.start "" 0).draft source).fail fault.report, rfl, rfl, fun stdin budget => ?_⟩
    exact ⟨Ending.within_rejected stdin budget.checkpoints hp, evaluate_of_rejected hp stdin budget⟩
  · cases hp : parseProgram source with
    | error fault => exact Or.inl ⟨fault, rfl⟩
    | ok statements =>
      obtain ⟨m, hm⟩ := Ending.failed_of_isSyntaxFault hp hfault
      refine Or.inr ⟨fun haims => ?_, ?_⟩
      · rw [Ending.isSyntaxFault_of_aimed stdin budget hp haims] at hfault
        exact Bool.false_ne_true hfault
      · rw [evaluate_eq_draft?, hm]
        exact ⟨_, rfl, rfl⟩

/-- A script that reads a line and prints it, and then steps what cannot be assigned to, ends with a fault of
the syntax after all that. -/
theorem syntax_fault_after_output : ∃ source stdin budget draft,
    (∃ statements, parseProgram source = .ok statements) ∧
      (Ending.of source stdin budget).isSyntaxFault = true ∧
      evaluate source stdin budget = some draft ∧ draft.output = some "a\n" ∧
      draft.error = some "SyntaxError: Invalid left-hand side in assignment (line 0)" := by
  have hparsed : (parseProgram "prompt();this++").isOk = true := by decide +kernel
  have hfault : (Ending.of "prompt();this++" "a" ⟨20000⟩).isSyntaxFault = true := by decide +kernel
  have hrun : (evaluate "prompt();this++" "a" ⟨20000⟩).map (fun draft => (draft.output, draft.error)) =
      some (some "a\n", some "SyntaxError: Invalid left-hand side in assignment (line 0)") := by
    decide +kernel
  obtain ⟨draft, hdraft, hfields⟩ := Option.map_eq_some_iff.mp hrun
  refine ⟨_, _, _, draft, ?_, hfault, hdraft, congrArg Prod.fst hfields, congrArg Prod.snd hfields⟩
  cases hp : parseProgram "prompt();this++" with
  | ok statements => exact ⟨statements, rfl⟩
  | error fault =>
    rw [hp] at hparsed
    cases hparsed

end Snippet.Script
