import Snippet.Proofs.Termination

/-!
How deep calls nest. All calls in progress are counted, those of the script's functions and those of
built-in functions and of methods bound to a value. The functions of a script nest to a fixed depth only,
but nothing limits how many other calls are made within one another between two of them: calls nest to a
fixed depth in a class of runs exactly if chains of such calls have a fixed length in it.
-/

namespace Snippet.Script

abbrev CallRule (σ : Type) : Type := σ → Value → Option σ

def CallRule.enter {σ α : Type} (rule : CallRule σ) (s : σ) (f : Value) (call : σ → Run α) : Run α :=
  match rule s f with
  | none => throw .exhausted
  | some s => call s

/-- Evaluation that may go `n` levels deep and enters calls by a rule. -/
def evaluatorUnder {σ : Type} (rule : CallRule σ) : Nat → σ → Evaluator
  | 0, _ => evaluator 0
  | n + 1, s =>
    (evaluatorUnder rule n s).layerWith
      (fun f receiver arguments =>
        rule.enter s f fun s => Run.call (evaluatorUnder rule n s) f receiver arguments)
      fun f arguments label =>
        rule.enter s f fun s => Run.construct (evaluatorUnder rule n s) f arguments label

namespace CallRule

def free : CallRule Unit := fun _ _ => some ()

def everyCall : CallRule Nat
  | 0, _ => none
  | k + 1, _ => some k

def scriptCalls : CallRule Nat := fun k f => if f.isScript then everyCall k f else some k

/-- Functions of the script may always be entered; between two of them all other calls take one of the `l`
that are left after the first one. -/
def chains (l : Nat) : CallRule Nat := fun k f => if f.isScript then some l else everyCall k f

end CallRule

/-- What is left inside of a call under two rules, where `Φ` relates it to how many functions of the script
may still be entered. -/
def StillRelated {σ τ : Type} (Φ : Nat → σ → τ → Prop) (c : Nat) (f : Value) (s : σ) (t : τ) : Prop :=
  (f.isScript = true → ∀ k, c = k + 1 → Φ k s t) ∧ (f.isScript = false → Φ c s t)

/-- The second rule lets be entered whatever the first one does as long as `Φ` relates what is left, and
`Φ` goes on to do so inside. -/
def Follows {σ τ : Type} (rule : CallRule σ) (rule' : CallRule τ) (Φ : Nat → σ → τ → Prop) : Prop :=
  ∀ c s t f, Φ c s t → ∀ s', rule s f = some s' →
    ∃ t', rule' t f = some t' ∧ StillRelated Φ c f s' t'

section Rules

variable {σ τ : Type} {rule : CallRule σ} {rule' : CallRule τ} {Φ : Nat → σ → τ → Prop}

/-- What is refined inside of a call is refined with the entering. -/
theorem enter_refines (h : Follows rule rule' Φ) {c : Nat} {s : σ} {t : τ} (hst : Φ c s t) {α : Type}
    {V : α → Prop} (f : Value) {x : σ → Run α} {y : τ → Run α}
    (hxy : ∀ s' t', StillRelated Φ c f s' t' → Refines c V (x s') (y t')) :
    Refines c V (rule.enter s f x) (rule'.enter t f y) := by
  unfold CallRule.enter
  cases hs : rule s f with
  | none => exact Refines.exhausted _
  | some s' =>
    obtain ⟨t', ht, hinside⟩ := h c s t f hst s' hs
    rw [ht]
    exact hxy s' t' hinside

/-- Evaluation under the rule that is followed refines evaluation under the one that follows it, by
induction on the depth. -/
theorem evaluatorUnder_refines (h : Follows rule rule' Φ) (n : Nat) {c : Nat} {s : σ} {t : τ}
    (hst : Φ c s t) :
    EvaluatorsRelated refining c Any (evaluatorUnder rule n s) (evaluatorUnder rule' n t) := by
  induction n generalizing c s t with
  | zero => exact evaluator_zero_related Refines.exhausted _
  | succ n ih =>
    have hbody {f : Value} {s' : σ} {t' : τ} (hinside : StillRelated Φ c f s' t')
        (hf : f.isScript = true) (j k : Nat) (hj : c = j) (hk : j = k + 1) :
        BodiesRelated refining k (evaluatorUnder rule n s') (evaluatorUnder rule' n t') :=
      ⟨Any, ih (hinside.1 hf k (hj.trans hk)), fun _ _ _ _ => trivial⟩
    have hcallback {f : Value} {s' : σ} {t' : τ} (hinside : StillRelated Φ c f s' t')
        (hf : f.isScript = false) (j : Nat) (hj : c = j) :
        CallersRelated refining j (evaluatorUnder rule n s').call (evaluatorUnder rule' n t').call :=
      hj ▸ (ih (hinside.2 hf)).call trivial
    refine (ih hst).layerWith (fun _ _ _ _ => trivial) (fun _ _ _ _ => trivial)
      (fun _ _ _ _ => Or.inr trivial) (fun _ _ _ _ => trivial) (fun _ _ => trivial) (fun _ _ => trivial) ?_ ?_
    · intro _ f receiver arguments hf hr ha
      refine enter_refines h hst f fun s' t' hinside => ?_
      exact EvaluatorsRelated.runCall (C := refining) hf hr ha (fun _ _ _ => trivial) (fun _ _ _ => trivial)
        (hbody hinside) (hcallback hinside)
    · intro _ f arguments label hf ha
      refine enter_refines h hst f fun s' t' hinside => ?_
      exact EvaluatorsRelated.runConstruct (C := refining) hf ha label (hbody hinside)

end Rules

/-- Where every call may be entered, whatever another rule allows is allowed. -/
theorem follows_free {σ : Type} (rule : CallRule σ) : Follows rule .free fun _ _ _ => True :=
  fun _ _ _ _ _ _ _ => ⟨(), rfl, fun _ _ _ => trivial, fun _ => trivial⟩

theorem evaluatorUnder_free (n : Nat) : evaluatorUnder .free n () = evaluator n := by
  induction n with
  | zero => rfl
  | succ n ih =>
    rw [evaluator_succ, ← ih]
    rfl

structure Job where
  statements : List Stmt
  stdin : String
  checkpoints : Nat

namespace Job

def run (j : Job) : EStateM.Result Fault Machine Unit :=
  Run.program j.statements (Machine.start j.stdin j.checkpoints)

def runUnder {σ : Type} (rule : CallRule σ) (s : σ) (j : Job) : EStateM.Result Fault Machine Unit :=
  Run.programBy (evaluatorUnder rule (depthBound (j.checkpoints + 1) j.statements) s) j.statements
    (Machine.start j.stdin j.checkpoints)

/-- No more than `k` calls are ever in progress at once. -/
def NestsWithin (k : Nat) (j : Job) : Prop := ¬ CutOff (j.runUnder .everyCall k)

/-- No more than `k` calls of functions of the script are ever in progress at once. -/
def ScriptNestsWithin (k : Nat) (j : Job) : Prop := ¬ CutOff (j.runUnder .scriptCalls k)

/-- No more than `l` calls of other functions are ever in progress inside of each other without a function
of the script between them. -/
def ChainsWithin (l : Nat) (j : Job) : Prop := ¬ CutOff (j.runUnder (.chains l) l)

variable {σ τ : Type} {rule : CallRule σ} {rule' : CallRule τ} {Φ : Nat → σ → τ → Prop}
variable {s : σ} {t : τ}

/-- The run under a rule that another one follows is cut off or the same as under the other one. -/
theorem runUnder_refines (h : Follows rule rule' Φ) (hst : Φ maxCallDepth s t) (j : Job) :
    CutOff (j.runUnder rule s) ∨ j.runUnder rule' t = j.runUnder rule s := by
  have hrefines : Refines maxCallDepth Any _ _ :=
    (evaluatorUnder_refines h (depthBound (j.checkpoints + 1) j.statements) hst).programBy
      refining_runsTimers trivial j.statements fun _ _ => trivial
  exact (hrefines (Machine.start j.stdin j.checkpoints) rfl).imp id And.left

theorem runUnder_free (j : Job) : j.runUnder .free () = j.run := by
  unfold runUnder
  rw [evaluatorUnder_free]
  rfl

/-- A rule that does not cut off the run makes no difference to it. -/
theorem runUnder_eq_run {j : Job} (h : ¬ CutOff (j.runUnder rule s)) :
    j.runUnder rule s = j.run := by
  rw [← runUnder_free]
  exact ((runUnder_refines (follows_free rule) trivial j).resolve_left h).symm

/-- A rule that lets the whole run be made is followed by a second one that does not cut it off either. -/
theorem not_cutOff_of_follows (h : Follows rule rule' Φ) (hst : Φ maxCallDepth s t) {j : Job}
    (hj : ¬ CutOff (j.runUnder rule s)) : ¬ CutOff (j.runUnder rule' t) := by
  rw [(runUnder_refines h hst j).resolve_left hj]
  exact hj

end Job

section Bounds

variable {σ τ : Type} {Φ : Nat → σ → τ → Prop} {s : σ} {t : τ} {c : Nat} {f : Value}

theorem stillRelated_script (hf : f.isScript = true) (h : ∀ k, c = k + 1 → Φ k s t) :
    StillRelated Φ c f s t :=
  ⟨fun _ => h, fun hf' => absurd (hf.symm.trans hf') (by decide)⟩

theorem stillRelated_other (hf : f.isScript = false) (h : Φ c s t) : StillRelated Φ c f s t :=
  ⟨fun hf' => absurd (hf.symm.trans hf') (by decide), fun _ => h⟩

theorem everyCall_succ (k : Nat) : CallRule.everyCall (k + 1) f = some k := rfl

theorem scriptCalls_script (hf : f.isScript = true) (k : Nat) :
    CallRule.scriptCalls k f = CallRule.everyCall k f := if_pos hf

theorem scriptCalls_other (hf : f.isScript = false) (k : Nat) : CallRule.scriptCalls k f = some k := by
  unfold CallRule.scriptCalls
  rw [hf]
  rfl

theorem chains_script (hf : f.isScript = true) (l k : Nat) : CallRule.chains l k f = some l :=
  if_pos hf

theorem chains_other (hf : f.isScript = false) (l k : Nat) :
    CallRule.chains l k f = CallRule.everyCall k f := by
  unfold CallRule.chains
  rw [hf]
  rfl

/-- A function of the script that may be entered may be called. -/
theorem scriptCalls_follows_free : Follows .free .scriptCalls fun c _ k => c + 1 ≤ k := by
  intro c _ k f hk s' _
  cases hf : f.isScript with
  | false => exact ⟨k, scriptCalls_other hf k, stillRelated_other hf hk⟩
  | true =>
    -- The call may be entered even if the inside of the function may not be any more.
    obtain ⟨k, rfl⟩ : ∃ i, k = i + 1 := ⟨k - 1, by omega⟩
    refine ⟨k, (scriptCalls_script hf _).trans (everyCall_succ k), stillRelated_script hf ?_⟩
    rintro c rfl
    omega

/-- Chains of `l` calls, one for every function of the script that may still be entered and one before
them, take that many calls and those of the functions. -/
theorem everyCall_follows_chains (l : Nat) :
    Follows (.chains l) .everyCall fun c i k => i + 1 + c * (l + 1) ≤ k := by
  intro c i k f hk s' hs
  obtain ⟨k, rfl⟩ : ∃ i, k = i + 1 := ⟨k - 1, by omega⟩
  refine ⟨k, everyCall_succ k, ?_⟩
  cases hf : f.isScript with
  | false =>
    rw [chains_other hf] at hs
    cases i with
    | zero => cases hs
    | succ i =>
      obtain rfl : i = s' := Option.some.inj hs
      refine stillRelated_other hf ?_
      omega
  | true =>
    -- A new chain begins in the function, and its room was set aside for the functions still to be entered.
    rw [chains_script hf] at hs
    obtain rfl : l = s' := Option.some.inj hs
    refine stillRelated_script hf ?_
    rintro c rfl
    rw [Nat.add_mul] at hk
    omega

/-- A chain of calls is no longer than all calls in progress. -/
theorem chains_follows_everyCall (l : Nat) :
    Follows .everyCall (.chains l) fun _ k i => k ≤ i ∧ k ≤ l := by
  rintro c k i f ⟨hki, hkl⟩ s' hs
  cases k with
  | zero => cases hs
  | succ k =>
    obtain rfl : k = s' := Option.some.inj hs
    cases hf : f.isScript with
    | false =>
      obtain ⟨i, rfl⟩ : ∃ e, i = e + 1 := ⟨i - 1, by omega⟩
      refine ⟨i, (chains_other hf l _).trans (everyCall_succ i), stillRelated_other hf ?_⟩
      omega
    | true =>
      refine ⟨l, chains_script hf l i, stillRelated_script hf fun _ _ => ?_⟩
      omega

end Bounds

-- An array that has its own method for calling a function with each element as its only element:
-- when the method is called with itself, it goes on to do so.

def visitOf (a : ArrayRef) (identity : Nat) : Value :=
  .function (.arrayMethod a (.visit .forEach)) identity

theorem CutOff.bind {α β : Type} {x : Run α} {m : Machine} (h : CutOff (x m)) (f : α → Run β) :
    CutOff ((x >>= f) m) := by
  obtain ⟨m', h⟩ := h
  exact ⟨m', run_bind_error h⟩

/-- However many calls are left, they do not suffice if there are as many checkpoints. By induction on the
calls that are left: a call of the method calls it again with the array as it was. -/
theorem cutOff_visitOf (n k : Nat) {a : ArrayRef} {i : Nat} {m : Machine} (hk : k ≤ m.checkpoints)
    (ha : m.heap.items a = #[visitOf a i]) (identity : Nat) (receiver : Value) (rest : List Value) :
    CutOff ((evaluatorUnder .everyCall n k).call (visitOf a identity) receiver
      (visitOf a i :: rest) m) := by
  induction k generalizing n m identity receiver rest with
  | zero => cases n <;> exact ⟨m, rfl⟩
  | succ k ih =>
    cases n with
    | zero => exact ⟨m, rfl⟩
    | succ n =>
      obtain ⟨c, hc⟩ : ∃ c, m.checkpoints = c + 1 := ⟨m.checkpoints - 1, by omega⟩
      -- The checkpoint passes; then the method calls its argument, itself, with the element, itself.
      have hitems : Run.items a (m.allowing c) = .ok #[visitOf a i] (m.allowing c) := by
        unfold Run.items
        change EStateM.Result.ok (m.heap.items a) _ = _
        rw [ha]
      have hk' : k ≤ (m.allowing c).checkpoints := by
        change k ≤ c
        omega
      have hagain (receiver : Value) (rest : List Value) :=
        ih n hk' (show (m.allowing c).heap.items a = #[visitOf a i] from ha) i receiver rest
      change CutOff ((Run.checkpoint >>= fun _ => _) m)
      rw [run_checkpoint_succ hc]
      change CutOff ((Run.items a >>= fun xs =>
        Run.visit (evaluatorUnder .everyCall n k).call .forEach (visitOf a i) (Run.argument
          (visitOf a i :: rest) 1) (.array a) [] (indexed xs.toList)) (m.allowing c))
      rw [run_bind_ok hitems]
      exact CutOff.bind (hagain _ _) _

def ownElement : Expr := .member (.name "a") (.computed (.string "0")) false

def ownVisit : Expr := .member (.name "a") (.named "forEach") false

/-- The statements `const a = []; a['0'] = a.forEach;`, which make the array. -/
def makingArray : List Stmt :=
  [.decl .constDecl [(.name "a", some (.array []))], .expr (.assign none ownElement ownVisit)]

/-- The statement `a.forEach(a['0']);`. -/
def visitingItself : Stmt := .expr (.call ownVisit [.mk false ownElement] false)

def selfVisiting : List Stmt := makingArray ++ [visitingItself]

theorem execEach_makingArray (n k c : Nat) :
    ∃ m i, Run.execEach (evaluatorUnder .everyCall (n + 6) k) globalScope makingArray
          (Machine.start "" c) = .ok .normal m ∧
      m.heap.lookup? globalScope "a" = some (.array ⟨0⟩) ∧
      m.heap.items ⟨0⟩ = #[visitOf ⟨0⟩ i] ∧ m.checkpoints = c :=
  ⟨_, _, rfl, rfl, rfl, rfl⟩

/-- Statements that end normally are followed by those after them. -/
theorem execEach_append {ev : Evaluator} {scope : ScopeRef} {first : List Stmt} {m m' : Machine}
    (h : Run.execEach ev scope first m = .ok .normal m') (rest : List Stmt) :
    Run.execEach ev scope (first ++ rest) m = Run.execEach ev scope rest m' := by
  induction first generalizing m with
  | nil =>
    obtain ⟨-, rfl⟩ := EStateM.Result.ok.inj h
    rfl
  | cons s first ih =>
    change (ev.exec s scope >>= fun flow => _) m = _ at h
    change (ev.exec s scope >>= fun flow => _) m = _
    cases hs : ev.exec s scope m with
    | error e m₁ =>
      rw [run_bind_error hs] at h
      cases h
    | ok flow m₁ =>
      rw [run_bind_ok hs] at h ⊢
      cases flow with
      | normal => exact ih h
      | _ => cases h

/-- The call in the last statement comes to a call of the method with the element of the array. -/
theorem evalCall_ownVisit {σ : Type} (rule : CallRule σ) (s : σ) (n : Nat) {m : Machine} {a : ArrayRef}
    {v : Value} (hname : m.heap.lookup? globalScope "a" = some (.array a))
    (ha : m.heap.items a = #[v]) :
    Run.evalCall (evaluatorUnder rule (n + 2) s) globalScope ownVisit [.mk false ownElement] false m =
      (evaluatorUnder rule (n + 2) s).call (visitOf a m.identities) (.array a) [v]
        { m with identities := m.identities + 1 } := by
  have heval (m : Machine) (hname : m.heap.lookup? globalScope "a" = some (.array a)) :
      Run.evalName globalScope "a" m = .ok (.array a) m := by
    have hlookup : Run.lookup? globalScope "a" m = .ok (some (.array a)) m := by
      unfold Run.lookup?
      rw [hname]
    exact run_bind_ok hlookup
  have hcallee : Run.evalCallee (evaluatorUnder rule (n + 2) s) globalScope ownVisit m =
      .ok (some (visitOf a m.identities, .array a)) { m with identities := m.identities + 1 } :=
    run_bind_ok (heval m hname)
  have helement (m : Machine) (hname : m.heap.lookup? globalScope "a" = some (.array a))
      (ha : m.heap.items a = #[v]) :
      (evaluatorUnder rule (n + 2) s).eval ownElement globalScope m = .ok v m := by
    refine (run_bind_ok (heval m hname)).trans ?_
    change EStateM.Result.ok ((m.heap.items a).getD 0 Value.undefined) m = _
    rw [ha]
    rfl
  refine (run_bind_ok hcallee).trans ?_
  exact run_bind_ok (run_bind_ok (helement { m with identities := m.identities + 1 } hname ha))

/-- The calls that are left do not suffice for the script if there are as many checkpoints. -/
theorem cutOff_selfVisiting (n : Nat) {k c : Nat} (hk : k ≤ c) :
    CutOff (Run.programBy (evaluatorUnder .everyCall (n + 6) k) selfVisiting
      (Machine.start "" c)) := by
  obtain ⟨m, i, hexec, hname, ha, hc⟩ := execEach_makingArray n k c
  -- The call is in the third statement; what cuts it off cuts off all that is around it.
  have hcall : CutOff (Run.evalCall (evaluatorUnder .everyCall (n + 4) k) globalScope ownVisit
      [.mk false ownElement] false m) := by
    rw [evalCall_ownVisit .everyCall k (n + 2) hname ha]
    exact cutOff_visitOf (m := { m with identities := m.identities + 1 }) (n + 4) k (hc ▸ hk) ha
      m.identities (.array ⟨0⟩) []
  have hlast : CutOff (Run.execEach (evaluatorUnder .everyCall (n + 6) k) globalScope
      [visitingItself] m) :=
    CutOff.bind (CutOff.bind (CutOff.bind hcall _) _) _
  rw [← execEach_append hexec] at hlast
  exact CutOff.bind (CutOff.bind hlast _) _

/-- Functions of the script nest to a fixed depth: where no more of them may be entered, calling one is an
error. Calls of all kinds nest to a fixed depth in a class of runs exactly if the chains of calls of other
functions have a fixed length in it. -/
theorem calls_nest_as_chains_do (jobs : Job → Prop) (j : Job) (l : Nat) :
    ((∃ k, ∀ j, jobs j → j.NestsWithin k) ↔ ∃ l, ∀ j, jobs j → j.ChainsWithin l) ∧
      (j.ChainsWithin l → j.NestsWithin ((maxCallDepth + 1) * (l + 1))) ∧
      j.ScriptNestsWithin (maxCallDepth + 1) ∧
      (∀ ev f scope receiver arguments (m : Machine), maxCallDepth ≤ m.callDepth →
        Run.callClosure ev f scope receiver arguments m = .error (.raised .stackOverflow) m) ∧
      RuntimeError.stackOverflow.report = "RangeError: Maximum call stack size exceeded" := by
  have hnests (l : Nat) (j : Job) (hj : j.ChainsWithin l) :
      j.NestsWithin ((maxCallDepth + 1) * (l + 1)) := by
    refine Job.not_cutOff_of_follows (everyCall_follows_chains l) ?_ hj
    rw [Nat.add_mul]
    omega
  have hchains (k : Nat) (j : Job) (hj : j.NestsWithin k) : j.ChainsWithin k :=
    Job.not_cutOff_of_follows (chains_follows_everyCall k) ⟨Nat.le_refl k, Nat.le_refl k⟩ hj
  refine ⟨⟨?_, ?_⟩, hnests l j, ?_, fun _ _ _ _ _ _ hm => run_nested_full hm, rfl⟩
  · rintro ⟨k, hk⟩
    exact ⟨k, fun j hj => hchains k j (hk j hj)⟩
  · rintro ⟨l, hl⟩
    exact ⟨_, fun j hj => hnests l j (hl j hj)⟩
  · refine Job.not_cutOff_of_follows scriptCalls_follows_free (s := ()) (Nat.le_refl _) ?_
    rw [Job.runUnder_free]
    exact program_not_cutOff j.statements j.stdin j.checkpoints

/-- No number of calls is enough for all runs. -/
theorem calls_nest_without_bound : ¬ ∃ k, ∀ j : Job, j.NestsWithin k := by
  rintro ⟨k, hk⟩
  have hdepth : 6 ≤ depthBound (k + 1) selfVisiting :=
    Nat.mul_le_mul (Nat.le_add_left 2 (k + 1)) (Nat.le_add_left 3 _)
  obtain ⟨n, hn⟩ := Nat.exists_eq_add_of_le' hdepth
  have hcut : CutOff (Run.programBy (evaluatorUnder .everyCall (depthBound (k + 1) selfVisiting) k)
      selfVisiting (Machine.start "" k)) := by
    rw [hn]
    exact cutOff_selfVisiting n (Nat.le_refl k)
  exact hk ⟨selfVisiting, "", k⟩ hcut

end Snippet.Script
