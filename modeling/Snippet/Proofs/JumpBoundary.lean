import Snippet.Proofs.LooseJump
import Snippet.Proofs.TreeHeight

/-!
Jumps at the boundaries of functions and scripts. They are read wherever a statement may stand, and one that is
loose there ends the function or the script as if nothing were left of it. Where no jump is loose, none comes
to a boundary.
-/

namespace Snippet.Script

def Func.keepsJumps (f : Func) : Bool :=
  match f.body with
  | .block statements => !anyLeak .breaks statements && !anyLeak .continues statements
  | .value _ => true

def Value.keepsJumps : Value → Bool
  | .function (.closure f _) _ => f.keepsJumps
  | .function (.classDef c _) _ => c.functions.all Func.keepsJumps
  | _ => true

def CallRule.keepingJumps : CallRule Unit := fun _ f => if f.keepsJumps then some () else none

def KeepsJumps (p : Part) : Prop := ∀ f, p.Contains (.func f) → f.keepsJumps = true

theorem KeepsJumps.part {p q : Part} (h : KeepsJumps p) (hq : q ∈ p.parts) : KeepsJumps q :=
  fun f hf => h f (.inside hq hf)

theorem keepsJumps_call : KeepsJumps .call := by
  intro f hf
  cases hf with
  | inside hmem _ => exact absurd hmem List.not_mem_nil

-- Computations that agree as long as the functions in sight belong to a class.

/-- Two computations that come to the same in states that hold functions of `Q` only, and then to such a state. -/
def Agree (Q : Func → Prop) {α : Type} (V : α → Prop) (x y : Run α) : Prop :=
  ∀ m : Machine, m.Holds Q →
    y m = x m ∧ Ends V (fun e => e.isFinal = false → e.Plain Q) (fun m' => m'.Holds Q) (x m)

namespace Agree

variable {Q : Func → Prop} {α β : Type} {V : α → Prop} {W : β → Prop}

theorem pure {a : α} (ha : V a) : Agree Q V (Pure.pure a) (Pure.pure a) := fun _ hm => ⟨rfl, ha, hm⟩

theorem thrown {e : Fault} (he : e.isFinal = false → e.Plain Q) : Agree Q V (throw e) (throw e) :=
  fun _ hm => ⟨rfl, he, hm⟩

/-- Two computations that agree up to a jump agree with what follows. -/
theorem bind {x y : Run α} {f g : α → Run β} (hx : Agree Q V x y) (hf : ∀ a, V a → Agree Q W (f a) (g a)) :
    Agree Q W (x >>= f) (y >>= g) := by
  intro m hm
  obtain ⟨heq, hends⟩ := hx m hm
  cases hr : x m with
  | error e m' =>
    rw [hr] at heq hends
    rw [run_bind_error hr, run_bind_error heq]
    exact ⟨rfl, hends⟩
  | ok a m' =>
    rw [hr] at heq hends
    rw [run_bind_ok hr, run_bind_ok heq]
    exact hf a hends.1 m' hends.2

theorem steady {P : Command → Prop} {x : Run α} (hx : Steady Q P V x) : Agree Q V x x :=
  fun m hm => ⟨rfl, (hx m hm).1.imp (fun _ ha => ha) (fun _ he _ => he.plain) fun _ h => h.1⟩

/-- Both pass a checkpoint, or neither does. -/
theorem checkpoint {x y : Run α} (hx : Agree Q V x y) :
    Agree Q V (Run.checkpoint >>= fun _ => x) (Run.checkpoint >>= fun _ => y) := by
  intro m hm
  cases hn : m.checkpoints with
  | zero =>
    rw [run_checkpoint_zero hn, run_checkpoint_zero hn]
    exact ⟨rfl, Bool.noConfusion, hm⟩
  | succ n =>
    rw [run_checkpoint_succ hn, run_checkpoint_succ hn]
    exact hx (m.allowing n) ⟨hm.heap, hm.timers⟩

/-- Both enter a call, or neither does. -/
theorem nested {x y : Run α} (hx : Agree Q V x y) : Agree Q V (Run.nested x) (Run.nested y) := by
  intro m hm
  obtain ⟨heq, hends⟩ := hx (m.atDepth (m.callDepth + 1)) ⟨hm.heap, hm.timers⟩
  refine ⟨?_, Ends.nested (S := fun _ m' => m'.Holds Q) (fun _ => trivial) hm ?_ hends⟩
  · by_cases hroom : m.callDepth < maxCallDepth
    · rw [run_nested hroom, run_nested hroom, heq]
    · rw [run_nested_full (Nat.le_of_not_lt hroom), run_nested_full (Nat.le_of_not_lt hroom)]
  · exact fun _ h => ⟨h.heap, h.timers⟩

/-- The outcomes that are handled are the same up to a jump, and so is what handles them. -/
theorem outcome {x y : Run α} {f g : Except Fault α → Run β} (hx : Agree Q V x y)
    (hok : ∀ a, V a → Agree Q W (f (.ok a)) (g (.ok a)))
    (herror : ∀ e, e.Plain Q → e.isFinal = false → Agree Q W (f (.error e)) (g (.error e)))
    (hfinal : ∀ e, e.isFinal = true → f (.error e) = throw e ∧ g (.error e) = throw e) :
    Agree Q W (Run.outcome x >>= f) (Run.outcome y >>= g) := by
  intro m hm
  obtain ⟨heq, hends⟩ := hx m hm
  cases hr : x m with
  | ok a m' =>
    rw [hr] at heq hends
    rw [run_outcome_ok hr, run_outcome_ok heq]
    exact hok a hends.1 m' hends.2
  | error e m' =>
    rw [hr] at heq hends
    rw [run_outcome_error hr, run_outcome_error heq]
    cases hend : e.isFinal with
    | true =>
      rw [(hfinal e hend).1, (hfinal e hend).2]
      exact thrown hends.1 m' hends.2
    | false => exact herror e (hends.1 hend) hend m' hends.2

end Agree

def agreeing (Q : Func → Prop) : Simulation Q Unit where
  Rel _ _ V x y := Agree Q V x y
  After _ _ := True
  Inside _ _ := True
  Effects _ := True
  Reads _ := True
  faults := plainFaults Q
  thrown he := Agree.thrown fun _ => he
  compositional _ := ⟨Agree.pure, Agree.bind⟩
  quiet hx := Agree.steady (hx.steady (P := Any))
  steady _ hx _ := Agree.steady hx
  prompt _ := Agree.steady Steady.prompt
  later _ hx := hx
  checkpoint hx := Agree.checkpoint (hx () trivial)
  nested hx := Agree.nested (hx () trivial)
  outcome hx hok herror hfinal := Agree.outcome hx hok herror hfinal
  loop {_ _ _ V f g _ _} hf0 hg0 hf hg hstep s m := by
    refine loops_related (R := Agree Q V) (f := f) (g := g) (fun s => ?_) hf hg
      (fun x y hxy => hstep () (Or.inl rfl) x y fun _ _ => hxy) _ s m
    rw [hf0, hg0]
    exact Agree.thrown Bool.noConfusion

theorem agreeing_runsTimers (Q : Func → Prop) : (agreeing Q).RunsTimers where
  waiting _ hm := ⟨rfl, trivial, hm⟩
  next _ := Agree.steady Steady.nextTimer?

theorem keepsJumps_of_holds {f : Value} (hf : f.Holds fun f => KeepsJumps (.func f)) : f.keepsJumps = true := by
  cases f with
  | function f identity =>
    cases f with
    | closure f scope => exact hf f (.itself _)
    | classDef c scope => exact List.all_eq_true.mpr fun f hmem => hf f hmem f (.itself _)
    | _ => rfl
  | _ => rfl

theorem Agree.enter {α : Type} {V : α → Prop} {f : Value} (hf : f.Holds fun f => KeepsJumps (.func f))
    {call : Unit → Run α} {y : Run α} (h : Agree (fun f => KeepsJumps (.func f)) V (call ()) y) :
    Agree (fun f => KeepsJumps (.func f)) V (CallRule.keepingJumps.enter () f call) y := by
  unfold CallRule.enter CallRule.keepingJumps
  rw [keepsJumps_of_holds hf]
  exact h

/-- Where all functions in sight keep their jumps, evaluation enters no others. By induction on the depth. -/
theorem evaluatorUnder_agrees (n : Nat) :
    EvaluatorsRelated (agreeing fun f => KeepsJumps (.func f)) () KeepsJumps
      (evaluatorUnder .keepingJumps n ()) (evaluator n) := by
  induction n with
  | zero =>
    exact evaluator_zero_within (Agree.thrown Bool.noConfusion) (fun _ he _ hp => he.part hp) (fun _ hf => hf)
      fun _ hf => hf.part List.mem_cons_self
  | succ n ih =>
    -- The functions that a run holds are those of parts whose functions keep their jumps.
    have hbodies : BodiesRelated (agreeing fun f => KeepsJumps (.func f)) ()
        (evaluatorUnder .keepingJumps n ()) (evaluator n) :=
      ⟨KeepsJumps, ih, fun _ hf _ hp => hf.part hp⟩
    rw [evaluator_succ]
    refine ih.layerWith (fun _ he _ hp => he.part hp) (fun _ hs _ hp => hs.part hp)
      (fun _ _ _ _ => Or.inr trivial) (fun _ he _ hp => he.part hp) (fun _ hf => hf)
      (fun _ hf => hf.part List.mem_cons_self) ?_ ?_
    · intro _ f receiver arguments hf hr ha
      refine Agree.enter hf ?_
      exact EvaluatorsRelated.runCall (C := agreeing _) (i := ()) hf hr ha (fun _ _ _ => trivial)
        (fun _ _ _ => trivial) (fun _ _ _ _ _ => hbodies) fun _ _ _ => ih.call keepsJumps_call
    · intro _ f arguments label hf ha
      refine Agree.enter hf ?_
      exact EvaluatorsRelated.runConstruct (C := agreeing _) (i := ()) hf ha label fun _ _ _ _ _ => hbodies

/-- A run of a script whose functions all keep their jumps enters no others. -/
theorem Job.runUnder_keepingJumps {j : Job} (h : ∀ f, StandsIn j.statements (.func f) → f.keepsJumps = true) :
    j.runUnder .keepingJumps () = j.run := by
  have hagree := (evaluatorUnder_agrees (depthBound (j.checkpoints + 1) j.statements)).programBy
    (agreeing_runsTimers _) keepsJumps_call j.statements fun p hp => ?_
  · exact (hagree (Machine.start j.stdin j.checkpoints) (Machine.holds_start _ _)).1.symm
  · obtain ⟨s, hs, rfl⟩ := List.mem_map.mp hp
    exact fun f hf => h f ⟨s, hs, hf⟩

-- The statements of a script, up to the first one that ends by a jump.

section Statements

variable {ev : Evaluator} {scope : ScopeRef} {m m₁ m₂ : Machine}

def RunsThrough (ev : Evaluator) (scope : ScopeRef) (statements : List Stmt) (m m' : Machine) : Prop :=
  ∀ before s after, statements = before ++ s :: after →
    ∃ m₁ m₂, Run.execEach ev scope before m = .ok .normal m₁ ∧ ev.exec s scope m₁ = .ok .normal m₂ ∧
      Run.execEach ev scope after m₂ = .ok .normal m'

/-- A statement that ends normally is followed by the next one. -/
theorem runsThrough_of_normal {statements : List Stmt} {m' : Machine}
    (h : Run.execEach ev scope statements m = .ok .normal m') : RunsThrough ev scope statements m m' := by
  rintro before s after rfl
  -- By induction on what stands in front; only after a normal end do the statements go on.
  induction before generalizing m with
  | nil =>
    obtain ⟨flow, m₂, hs, hafter⟩ := of_run_bind h
    cases flow with
    | normal => exact ⟨m, m₂, rfl, hs, hafter⟩
    | _ => cases hafter
  | cons first before ih =>
    obtain ⟨flow, m₀, hfirst, hrest⟩ := of_run_bind h
    cases flow with
    | normal =>
      obtain ⟨m₁, m₂, hbefore, hs, hafter⟩ := ih hrest
      exact ⟨m₁, m₂, (run_bind_ok hfirst).trans hbefore, hs, hafter⟩
    | _ => cases hrest

theorem Flow.Within.normal {flow : Flow} {may : Jump → Bool} (h : flow.Within may)
    (hmay : ∀ x, may x = false) : flow = .normal := by
  have hnone (x : Jump) : flow.jump? ≠ some x := fun hx => Bool.noConfusion ((hmay x).symm.trans (h x hx))
  cases flow with
  | normal => rfl
  | _ => exact absurd rfl (hnone _)

/-- A script at whose top no jump is loose has run all of its statements when its timers begin. -/
theorem runsThrough_of_programBy (hev : ev.Jumps) {statements : List Stmt}
    (hnone : ∀ x, anyLeak x statements = false) (h : Run.programBy ev statements m = .ok () m₂) :
    ∃ m₀ m₁, Run.hoist globalScope statements m = .ok () m₀ ∧ RunsThrough ev globalScope statements m₀ m₁ ∧
      (Run.rounds >>= fun n => Run.runTimers ev n) m₁ = .ok () m₂ := by
  obtain ⟨_, m₁, hstatements, htimers⟩ := of_run_bind h
  obtain ⟨flow, m₁', hall, heq⟩ := of_run_bind hstatements
  obtain ⟨-, rfl⟩ := EStateM.Result.ok.inj heq
  obtain ⟨_, m₀, hhoist, heach⟩ := of_run_bind hall
  -- How the statements ended is not looked at, so that it was normally is known from the tree alone.
  have hends := hev.execEach statements globalScope m₀ trivial
  rw [heach] at hends
  obtain rfl := hends.1.normal hnone
  exact ⟨m₀, m₁', hhoist, runsThrough_of_normal heach, htimers⟩

/-- What stands behind a statement that ends by a jump is not run. -/
theorem execEach_jump {before : List Stmt} {s : Stmt} {flow : Flow} (hne : flow ≠ .normal)
    (hbefore : Run.execEach ev scope before m = .ok .normal m₁) (hs : ev.exec s scope m₁ = .ok flow m₂)
    (after : List Stmt) : Run.execEach ev scope (before ++ s :: after) m = .ok flow m₂ := by
  rw [execEach_append hbefore]
  refine (run_bind_ok hs).trans ?_
  cases flow with
  | normal => exact absurd rfl hne
  | _ => rfl

/-- A function in which no break and no continue is loose ends normally or returns. -/
theorem Flow.Within.kept {flow : Flow} {f : Func} {statements : List Stmt} (hbody : f.body = .block statements)
    (hf : f.keepsJumps = true) (h : flow.Within (anyLeak · statements)) :
    flow = .normal ∨ ∃ v, flow = .returned v := by
  unfold Func.keepsJumps at hf
  rw [hbody] at hf
  obtain ⟨hbreaks, hcontinues⟩ := Bool.and_eq_true_iff.mp hf
  rw [Bool.not_eq_true'] at hbreaks hcontinues
  cases flow with
  | normal => exact Or.inl rfl
  | returned v => exact Or.inr ⟨v, rfl⟩
  | broken => exact Bool.noConfusion (hbreaks.symm.trans (h .breaks rfl))
  | continued => exact Bool.noConfusion (hcontinues.symm.trans (h .continues rfl))

end Statements

/-- A break or a continue is read wherever a statement may stand. -/
theorem Parse.statement_jump {word : String} {s : Stmt}
    (hword : (word, s) ∈ [("break", Stmt.breaks), ("continue", Stmt.continues)]) (d : Descent)
    {line size previous : Nat} {noIn : Bool} {rest : List Placed} {left : Input}
    (hends : Parse.endStatement ⟨rest, size, line, noIn⟩ = .ok ((), left)) :
    Parse.statement d ⟨⟨.word word, line⟩ :: rest, size, previous, noIn⟩ = .ok (s, left) := by
  simp only [List.mem_cons, Prod.mk.injEq, List.not_mem_nil, or_false] at hword
  have hend (s : Stmt) : (endStatement >>= fun _ => return s) ⟨rest, size, line, noIn⟩ = .ok (s, left) :=
    (parse_bind () _ hends).trans rfl
  obtain ⟨rfl, rfl⟩ | ⟨rfl, rfl⟩ := hword
  · exact hend .breaks
  · exact hend .continues

/-- What becomes of breaks and continues in a run, of those in particular that are in no loop and no choice of the
function or the script in which they stand. -/
structure LooseJumpsEndSilently (j : Job) : Prop where
  /-- They are read like all others. -/
  read : ∀ word s d line size previous noIn rest left,
    (word, s) ∈ [("break", Stmt.breaks), ("continue", Stmt.continues)] →
    Parse.endStatement ⟨rest, size, line, noIn⟩ = .ok ((), left) →
    Parse.statement d ⟨⟨.word word, line⟩ :: rest, size, previous, noIn⟩ = .ok (s, left)
  /-- Statements end by no jumps but those that are loose in them. -/
  within : ∀ n s scope (m m' : Machine) flow, (evaluator n).exec s scope m = .ok flow m' → flow.Within s.leaks
  /-- If no break and no continue is loose in the functions of the script, no other functions are entered. -/
  entered : (∀ f, StandsIn j.statements (.func f) → f.keepsJumps = true) → j.runUnder .keepingJumps () = j.run
  /-- Such a function ends normally or returns. -/
  kept : ∀ n (f : Func) statements scope (m m' : Machine) flow, f.body = .block statements →
    f.keepsJumps = true → Run.execAll (evaluatorUnder .keepingJumps n ()) statements scope m = .ok flow m' →
    flow = .normal ∨ ∃ v, flow = .returned v
  /-- A break or a continue that comes to the end of a function makes the call undefined. -/
  swallowed : ∀ ev statements scope (m m' : Machine) flow, flow = .broken ∨ flow = .continued →
    Run.execAll ev statements scope m = .ok flow m' →
    Run.runBody ev (.block statements) scope m = .ok .undefined m'
  /-- If no jump is loose at the top of the script, a run without a fault has run all of its statements before
  the timers. -/
  executed : ∀ m, (∀ x, anyLeak x j.statements = false) → j.run = .ok () m →
    let ev := evaluator (depthBound (j.checkpoints + 1) j.statements)
    ∃ m₀ m₁, Run.hoist globalScope j.statements (Machine.start j.stdin j.checkpoints) = .ok () m₀ ∧
      RunsThrough ev globalScope j.statements m₀ m₁ ∧
      (Run.rounds >>= fun n => Run.runTimers ev n) m₁ = .ok () m
  /-- A jump that comes to the top of the script goes on to the timers, and the statements that are left are not
  run. -/
  skipped : ∀ before s after (m₀ m₁ m₂ : Machine) flow, j.statements = before ++ s :: after → flow ≠ .normal →
    let ev := evaluator (depthBound (j.checkpoints + 1) j.statements)
    Run.hoist globalScope j.statements (Machine.start j.stdin j.checkpoints) = .ok () m₀ →
    Run.execEach ev globalScope before m₀ = .ok .normal m₁ → ev.exec s globalScope m₁ = .ok flow m₂ →
    j.run = (Run.rounds >>= fun n => Run.runTimers ev n) m₂

/-- A jump that belongs to no loop ends the script, or the function it stands in, without a fault. -/
theorem loose_jumps_end_silently (j : Job) : LooseJumpsEndSilently j where
  read _ _ d _ _ _ _ _ _ hword hends := Parse.statement_jump hword d hends
  within n s scope m m' flow hok := by
    have hends := evaluator_jumps n s scope m trivial
    rw [hok] at hends
    exact hends.1
  entered h := Job.runUnder_keepingJumps h
  kept n f statements scope m m' flow hbody hf hok := by
    have hends := (evaluatorUnder_jumps .keepingJumps n ()).execAll statements scope m trivial
    rw [hok] at hends
    exact hends.1.kept hbody hf
  swallowed ev statements scope m m' flow hflow hok := by
    refine (run_bind_ok hok).trans ?_
    obtain rfl | rfl := hflow <;> rfl
  executed _ hnone hrun := runsThrough_of_programBy (evaluator_jumps _) hnone hrun
  skipped before s after m₀ m₁ m₂ flow hstatements hne := by
    intro ev hhoist hbefore hs
    have hall : Run.execAll ev j.statements globalScope (Machine.start j.stdin j.checkpoints) = .ok flow m₂ := by
      rw [hstatements] at hhoist ⊢
      exact (run_bind_ok hhoist).trans (execEach_jump hne hbefore hs after)
    change Run.programBy ev j.statements (Machine.start j.stdin j.checkpoints) = _
    exact run_bind_ok (run_bind_ok hall)

/-- The script is read, and ends at the break as if there were nothing behind it. -/
theorem loose_break_ends_script :
    (evaluate "console.log('a'); break; console.log('b');" "" ⟨20000⟩).bind Draft.output = some "a\n" := by
  decide +kernel

end Snippet.Script
