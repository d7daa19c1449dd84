import Snippet.Proofs.CallNesting
import Snippet.Proofs.Timeout

/-!
How many calls are in progress. Whatever evaluation ends in, every call that it has entered is left again, so
it ends with as many calls in progress as it began with and there is as much room for further ones. In
between there are never more of them than may be: evaluation that is cut off wherever anything is begun with
more calls in progress is evaluation itself.
-/

namespace Snippet.Script

def Run.belowLimit {α : Type} (x : Run α) : Run α := fun m =>
  if m.callDepth ≤ maxCallDepth then x m else .error .exhausted m

/-- Evaluation of which all parts are cut off where they are begun with more calls in progress than there
may be. -/
def Evaluator.belowLimit (ev : Evaluator) : Evaluator where
  eval e scope := (ev.eval e scope).belowLimit
  assign target v scope := (ev.assign target v scope).belowLimit
  exec s scope := (ev.exec s scope).belowLimit
  call f receiver arguments := (ev.call f receiver arguments).belowLimit
  construct f arguments label := (ev.construct f arguments label).belowLimit

/-- Evaluation that may go `n` levels deep and is cut off wherever anything is begun on any level with more
calls in progress than there may be. -/
def evaluatorBelowLimit : Nat → Evaluator
  | 0 => evaluator 0
  | n + 1 => (evaluatorBelowLimit n).layer.belowLimit

/-- What a run comes to that is cut off wherever anything is begun with more calls in progress than there
may be. -/
def Job.runBelowLimit (j : Job) : EStateM.Result Fault Machine Unit :=
  Run.programBy (evaluatorBelowLimit (depthBound (j.checkpoints + 1) j.statements)) j.statements
    (Machine.start j.stdin j.checkpoints)

section Limit

variable {c : Nat} {α : Type} {V : α → Prop} {x y : Run α} {m : Machine}

theorem run_belowLimit (h : m.callDepth ≤ maxCallDepth) : x.belowLimit m = x m := if_pos h

theorem Refines.belowLimit (h : Refines c V x y) : Refines c V x y.belowLimit := by
  intro m hm
  rw [run_belowLimit (by omega)]
  exact h m hm

/-- What refines evaluation does so below the limit as well. -/
theorem EvaluatorsRelated.belowLimit {W : Part → Prop} {ev ev' : Evaluator}
    (h : EvaluatorsRelated refining c W ev ev') : EvaluatorsRelated refining c W ev ev'.belowLimit where
  eval e scope he := Refines.belowLimit (h.eval e scope he)
  assign e v scope he ht hv := Refines.belowLimit (h.assign e v scope he ht hv)
  exec s scope hs := Refines.belowLimit (h.exec s scope hs)
  call hc f receiver arguments hf hr ha := Refines.belowLimit (h.call hc f receiver arguments hf hr ha)
  construct hc f arguments label hf ha := Refines.belowLimit (h.construct hc f arguments label hf ha)
  parts := h.parts
  functions := h.functions
  declared := h.declared

/-- Evaluation that is cut off beyond the limit refines evaluation, by induction on the depth. -/
theorem evaluatorBelowLimit_refines (n : Nat) :
    EvaluatorsRelated refining c Any (evaluator n) (evaluatorBelowLimit n) := by
  induction n generalizing c with
  | zero => exact evaluator_zero_related Refines.exhausted _
  | succ n ih =>
    rw [evaluator_succ]
    refine EvaluatorsRelated.belowLimit ?_
    exact ih.layer (fun _ _ _ _ => trivial) (fun _ _ _ _ => trivial)
      (fun _ _ _ _ => Or.inr trivial) (fun _ _ _ _ => trivial) (fun _ _ => trivial)
      (fun _ _ => trivial) (fun _ _ => trivial) (fun _ _ => trivial)
      (fun _ _ _ _ _ => ⟨Any, ih, fun _ _ _ _ => trivial⟩) fun _ _ _ => ih.call trivial

/-- The inside of a call is never begun beyond the limit. -/
theorem nested_belowLimit (x : Run α) : Run.nested x.belowLimit = Run.nested x := by
  funext m
  by_cases hfull : maxCallDepth ≤ m.callDepth
  · rw [run_nested_full hfull, run_nested_full hfull]
  · have hinside : (m.atDepth (m.callDepth + 1)).callDepth ≤ maxCallDepth := Nat.lt_of_not_le hfull
    rw [run_nested (Nat.lt_of_not_le hfull), run_nested (Nat.lt_of_not_le hfull), run_belowLimit hinside]

end Limit

/-- No run begins anything with more calls in progress than there may be. -/
theorem Job.runBelowLimit_eq_run (j : Job) : j.runBelowLimit = j.run := by
  have hrefines : Refines maxCallDepth Any _ _ :=
    (evaluatorBelowLimit_refines (depthBound (j.checkpoints + 1) j.statements)).programBy
      refining_runsTimers trivial j.statements fun _ _ => trivial
  obtain hcut | ⟨heq, -⟩ := hrefines (Machine.start j.stdin j.checkpoints) rfl
  · exact absurd hcut (program_not_cutOff j.statements j.stdin j.checkpoints)
  · exact heq

/-- The inside of `k` calls within one another. -/
def Run.nestedTimes {α : Type} : Nat → Run α → Run α
  | 0, x => x
  | k + 1, x => nested (nestedTimes k x)

section Room

variable {α : Type} {m : Machine}

/-- Within the limit the inside is run with `k` calls more in progress, all of which are left. -/
theorem run_nestedTimes (x : Run α) {k : Nat} (h : m.callDepth + k ≤ maxCallDepth) :
    Run.nestedTimes k x m =
      onState (fun m' => m'.atDepth (m'.callDepth - k)) (x (m.atDepth (m.callDepth + k))) := by
  induction k generalizing m with
  | zero =>
    change x m = onState _ (x m)
    cases x m <;> rfl
  | succ k ih =>
    have hinside : (m.atDepth (m.callDepth + 1)).callDepth + k ≤ maxCallDepth := by
      change m.callDepth + 1 + k ≤ maxCallDepth
      omega
    have hdepth : (m.atDepth (m.callDepth + 1)).callDepth + k = m.callDepth + (k + 1) := by
      change m.callDepth + 1 + k = m.callDepth + (k + 1)
      omega
    change Run.nested (Run.nestedTimes k x) m = _
    rw [run_nested (by omega), ih hinside, hdepth]
    change onState _ (onState _ (x (m.atDepth (m.callDepth + (k + 1))))) = _
    cases x (m.atDepth (m.callDepth + (k + 1))) <;> rfl

/-- Beyond the limit there is an error, and all calls that were entered are left. -/
theorem run_nestedTimes_full (x : Run α) {k : Nat} (hk : 0 < k) (h : maxCallDepth < m.callDepth + k) :
    Run.nestedTimes k x m = .error (.raised .stackOverflow) m := by
  induction k generalizing m with
  | zero => exact absurd hk (Nat.lt_irrefl 0)
  | succ k ih =>
    change Run.nested (Run.nestedTimes k x) m = _
    by_cases hfull : maxCallDepth ≤ m.callDepth
    · exact run_nested_full hfull
    · have hover : maxCallDepth < (m.atDepth (m.callDepth + 1)).callDepth + k := by
        change maxCallDepth < m.callDepth + 1 + k
        omega
      rw [run_nested (Nat.lt_of_not_le hfull), ih (by omega) hover]
      rfl

end Room

/-- There is room for `k` calls more: so many can be entered within one another. -/
def Machine.HasRoomFor (m : Machine) (k : Nat) : Prop :=
  ∃ m', Run.nestedTimes k (pure ()) m = .ok () m'

/-- There is room for some calls if with them there are no more than may be in progress. -/
theorem Machine.hasRoomFor_iff (m : Machine) (k : Nat) :
    m.HasRoomFor k ↔ k = 0 ∨ m.callDepth + k ≤ maxCallDepth := by
  constructor
  · rintro ⟨m', hok⟩
    obtain hzero | hpos := Nat.eq_zero_or_pos k
    · exact Or.inl hzero
    · refine Or.inr (Nat.le_of_not_lt fun hover => ?_)
      rw [run_nestedTimes_full _ hpos hover] at hok
      cases hok
  · rintro (rfl | hroom)
    · exact ⟨m, rfl⟩
    · exact ⟨_, run_nestedTimes (pure ()) hroom⟩

/-- A computation leaves the calls that it enters, and has never more in progress than may be: it is the same
if all its parts are cut off beyond the limit. -/
structure LeavesCalls {α : Type} (x limited : Run α) : Prop where
  /-- As many calls are in progress at the end as at the beginning, whatever that end is. -/
  balanced : ∀ m, (finalState (x m)).callDepth = m.callDepth
  room : ∀ m k, (finalState (x m)).HasRoomFor k ↔ m.HasRoomFor k
  /-- The levels of evaluation may not be enough; that is no end of it. -/
  within : ∀ m, m.callDepth ≤ maxCallDepth → CutOff (x m) ∨ limited m = x m

structure Evaluator.LeavesCalls (ev limited : Evaluator) : Prop where
  eval : ∀ e scope, Script.LeavesCalls (ev.eval e scope) (limited.eval e scope)
  assign : ∀ target v scope, Script.LeavesCalls (ev.assign target v scope) (limited.assign target v scope)
  exec : ∀ s scope, Script.LeavesCalls (ev.exec s scope) (limited.exec s scope)
  call : ∀ f receiver arguments,
    Script.LeavesCalls (ev.call f receiver arguments) (limited.call f receiver arguments)
  construct : ∀ f arguments label,
    Script.LeavesCalls (ev.construct f arguments label) (limited.construct f arguments label)

theorem leavesCalls_of {α : Type} {V W : α → Prop} {x limited : Run α} (hkeeps : Keeps Any V x)
    (hrefines : ∀ c, Refines c W x limited) : LeavesCalls x limited := by
  have hbalanced (m : Machine) : (finalState (x m)).callDepth = m.callDepth := (hkeeps m).final.callDepth
  refine ⟨hbalanced, fun m k => ?_, fun m hm => ?_⟩
  · rw [Machine.hasRoomFor_iff, Machine.hasRoomFor_iff, hbalanced m]
  · obtain hcut | ⟨heq, -⟩ := hrefines (maxCallDepth - m.callDepth) m (by omega)
    · exact Or.inl hcut
    · exact Or.inr heq

/-- By induction on the depth: every call that has been entered is left again, and evaluation below the
limit is the same. -/
theorem evaluator_leavesCalls (n : Nat) : (evaluator n).LeavesCalls (evaluatorBelowLimit n) := by
  have hkeeps := evaluator_keeps Any (fun _ _ => trivial) n
  have hrefines (c : Nat) := evaluatorBelowLimit_refines (c := c) n
  have hfault : (.raised .invalidTarget : Fault).Plain Any := trivial
  have hall (vs : List Value) : AllHold Any vs := fun v _ => v.holds_any
  constructor
  · exact fun e scope =>
      leavesCalls_of (hkeeps.eval e scope trivial) fun c => (hrefines c).eval e scope trivial
  · exact fun target v scope =>
      leavesCalls_of (hkeeps.assign target v scope trivial (Or.inr hfault) v.holds_any) fun c =>
        (hrefines c).assign target v scope trivial (Or.inr hfault) v.holds_any
  · exact fun s scope =>
      leavesCalls_of (hkeeps.exec s scope trivial) fun c => (hrefines c).exec s scope trivial
  · exact fun f receiver arguments =>
      leavesCalls_of (hkeeps.call trivial f receiver arguments f.holds_any receiver.holds_any (hall _))
        fun c => (hrefines c).call trivial f receiver arguments f.holds_any receiver.holds_any (hall _)
  · exact fun f arguments label =>
      leavesCalls_of (hkeeps.construct trivial f arguments label f.holds_any (hall _)) fun c =>
        (hrefines c).construct trivial f arguments label f.holds_any (hall _)

theorem Job.callDepth_final (j : Job) : (finalState j.run).callDepth = 0 :=
  (program_reaches j.statements (Machine.start j.stdin j.checkpoints)).final.callDepth

/-- Every call that is entered is left again. Evaluation ends with as many calls in progress as it began with,
whether it ends in a value, a jump or a fault, and there is then room for exactly as many further calls as
before, however many errors of calls too deep were caught in it. In between there are never more than 500 calls
in progress: not where any part of the script is evaluated, on any level and in any run, nor inside of a call. -/
theorem calls_are_left_again :
    (∀ n, (evaluator n).LeavesCalls (evaluatorBelowLimit n)) ∧
      (∀ j : Job, j.runBelowLimit = j.run ∧ (finalState j.run).callDepth = 0) ∧
      (∀ (α : Type) (x : Run α), Run.nested x.belowLimit = Run.nested x) ∧
      (∀ (m : Machine) (k : Nat), m.HasRoomFor k ↔ k = 0 ∨ m.callDepth + k ≤ 500) ∧
      ∀ ev f scope receiver arguments (m : Machine), ¬ m.HasRoomFor 1 →
        Run.callClosure ev f scope receiver arguments m = .error (.raised .stackOverflow) m := by
  refine ⟨evaluator_leavesCalls, fun j => ⟨j.runBelowLimit_eq_run, j.callDepth_final⟩,
    fun _ => nested_belowLimit, Machine.hasRoomFor_iff, fun ev f scope receiver arguments m hroom => ?_⟩
  have hfull : maxCallDepth ≤ m.callDepth := by
    refine Nat.le_of_not_lt fun hlt => hroom ?_
    exact (m.hasRoomFor_iff 1).mpr (Or.inr hlt)
  exact run_nested_full hfull

end Snippet.Script
