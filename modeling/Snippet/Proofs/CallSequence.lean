import Snippet.Proofs.CallTrace
import Mathlib.Data.List.Basic

/-!
The calls of a run in their order. The run is taken as the parts that follow each other, each of which may be run
with fewer checkpoints than it has: then it comes to its first calls only. What a part does around the store is
what its calls do, one after the other.
-/

namespace Snippet.Script

def Tellable {α : Type} (V : α → Prop) (x : Teller → Run α) : Prop :=
  ∀ tell d, d ≤ 1 → Continues d V (x .naming) (x tell)

def callsWithin {α : Type} (x : Teller → Run α) (m : Machine) (n : Nat) : List FunctionCall :=
  -- The first calls of a computation that do something around the store: those to which it comes
  -- when no, one, two and so on of the checkpoints are left.
  (List.range n).filterMap fun k => callOf? (x .naming (m.allowing k))

def commandsOf (calls : List FunctionCall) : List Command := calls.filterMap FunctionCall.command?

theorem commandsOf_append (calls calls' : List FunctionCall) :
    commandsOf (calls ++ calls') = commandsOf calls ++ commandsOf calls' := List.filterMap_append

/-- A call adds the command that it gives, if it gives one. -/
theorem commandsOf_cons (c : FunctionCall) (calls : List FunctionCall) :
    commandsOf (c :: calls) = c.command?.toList ++ commandsOf calls := by
  unfold commandsOf
  cases hc : c.command? with
  | none => exact List.filterMap_cons_none hc
  | some command => exact List.filterMap_cons_some hc

theorem commandsOf_toList (c? : Option FunctionCall) :
    commandsOf c?.toList = (c?.bind FunctionCall.command?).toList := by
  cases c? with
  | none => rfl
  | some c => exact (commandsOf_cons c []).trans (List.append_nil _)

theorem filterMap_range_succ {α : Type} (f : Nat → Option α) (n : Nat) :
    (List.range (n + 1)).filterMap f = (List.range n).filterMap f ++ (f n).toList := by
  rw [List.range_succ, List.filterMap_append]
  refine congrArg (_ ++ ·) ?_
  cases hn : f n with
  | none => exact List.filterMap_cons_none hn
  | some a => exact List.filterMap_cons_some hn

theorem isCall_of_mem_commandsOf {calls : List FunctionCall} {c : Command} (h : c ∈ commandsOf calls) :
    c.IsCall := by
  obtain ⟨call, -, hcall⟩ := List.mem_filterMap.mp h
  exact FunctionCall.isCall_of_command? hcall

namespace Tellable

variable {α : Type} {V : α → Prop} {x : Teller → Run α} {m m' : Machine} {a : α} {e : Fault} {k : Nat}
variable (hx : Tellable V x) (hends : ∀ k ≤ m.checkpoints, ¬ CutOff (x .plain (m.allowing k)))
include hx

/-- The same computation with the same checkpoints. -/
theorem same (tell : Teller) (m : Machine) : Next 0 (x .naming m) (x tell m) :=
  (hx tell 0 (Nat.zero_le 1)).next m

/-- The same computation with one checkpoint more. -/
theorem more (m : Machine) (k : Nat) : Next 1 (x .naming (m.allowing k)) (x .naming (m.allowing (k + 1))) :=
  (hx .naming 1 (Nat.le_refl 1)).next (m.allowing k)

theorem not_cutOff_naming (hcut : ¬ CutOff (x .plain m)) : ¬ CutOff (x .naming m) := by
  rintro ⟨m', hr⟩
  have h := hx.same .plain m
  rw [hr] at h
  exact hcut (h rfl)

theorem ok_of_naming (h : x .naming m = .ok a m') (tell : Teller) : x tell m = .ok a m' := by
  have hsame := hx.same tell m
  rwa [h] at hsame

/-- What a computation comes to does not depend on how calls are told, if it ends without a fault. -/
theorem naming_of_ok (hcut : ¬ CutOff (x .plain m)) (h : x .plain m = .ok a m') :
    x .naming m = .ok a m' := by
  have hsame := hx.same .plain m
  have hnaming := hx.not_cutOff_naming hcut
  cases hr : x .naming m with
  | ok b m'' =>
    rw [hr, h] at hsame
    exact hsame.symm
  | error e m'' =>
    rw [hr, h] at hsame
    cases e with
    | timeout s => exact absurd hsame.2.beyond (Nat.not_lt_zero _)
    | exhausted => exact absurd ⟨m'', hr⟩ hnaming
    | _ => exact nomatch hsame

theorem outside_plain (hcut : ¬ CutOff (x .plain m)) :
    (finalState (x .plain m)).outside = (finalState (x .naming m)).outside := by
  have hsame := hx.same .plain m
  have hnaming := hx.not_cutOff_naming hcut
  cases hr : x .naming m with
  | ok b m'' =>
    rw [hr] at hsame
    rw [show x .plain m = _ from hsame]
    rfl
  | error e m'' =>
    rw [hr] at hsame
    cases e with
    | timeout s =>
      have ho := hsame.2.outside
      rw [List.take_zero] at ho
      exact ho
    | exhausted => exact absurd ⟨m'', hr⟩ hnaming
    | _ =>
      rw [show x .plain m = _ from hsame]
      rfl

theorem checkpoints_le (h : x .naming m = .ok a m') : m'.checkpoints ≤ m.checkpoints := by
  have hlater := ((hx .naming 0 (Nat.zero_le 1)).left m).final.checkpoints
  rwa [h] at hlater

/-- A computation that has ended does so with more checkpoints, of which the others are left. -/
theorem ok_plus (h : x .naming (m.allowing k) = .ok a m') (i : Nat) :
    x .naming (m.allowing (k + i)) = .ok a (m'.plus i) := by
  induction i with
  | zero => exact h
  | succ i ih =>
    have hmore := hx.more m (k + i)
    rw [ih] at hmore
    exact hmore

include hends

/-- Up to a checkpoint a computation does around the store what the calls before it do, by induction on the
checkpoints. -/
theorem outside_naming (hk : k ≤ m.checkpoints) :
    (finalState (x .naming (m.allowing k))).outside = m.outside.run (commandsOf (callsWithin x m k)) := by
  -- With one checkpoint more, the run either makes the call at which it stopped or had ended before.
  induction k with
  | zero => exact ((hx .naming 0 (Nat.zero_le 1)).left (m.allowing 0)).final.outside rfl
  | succ k ih =>
    have ih := ih (Nat.le_of_succ_le hk)
    have hmore := hx.more m k
    have hcut := hx.not_cutOff_naming (hends k (Nat.le_of_succ_le hk))
    have hcommands : commandsOf (callsWithin x m (k + 1)) =
        commandsOf (callsWithin x m k) ++
          ((callOf? (x .naming (m.allowing k))).bind FunctionCall.command?).toList := by
      unfold callsWithin
      rw [filterMap_range_succ, commandsOf_append, commandsOf_toList]
    rw [hcommands, Outside.run_append, ← ih]
    cases hr : x .naming (m.allowing k) with
    | ok b m'' =>
      -- The run had ended, so there is no such call.
      rw [hr] at hmore
      rw [show x .naming (m.allowing (k + 1)) = _ from hmore]
      rfl
    | error e m'' =>
      rw [hr] at hmore
      cases e with
      | timeout s =>
        -- It stopped at a call, whose command is the one that is carried out then.
        have hone (c : Option Command) : c.toList.take 1 = c.toList := by cases c <;> rfl
        have ho := hmore.2.outside
        rw [hone] at ho
        exact ho
      | exhausted => exact absurd ⟨m'', hr⟩ hcut
      | _ =>
        rw [show x .naming (m.allowing (k + 1)) = _ from hmore]
        rfl

/-- A computation that ends without a fault has not ended before it has passed its last checkpoint. -/
theorem not_ok_before (h : x .plain m = .ok a m') (hk : k < m.checkpoints - m'.checkpoints) {b : α}
    {m'' : Machine} : x .naming (m.allowing k) ≠ .ok b m'' := by
  intro hr
  have hnaming := hx.naming_of_ok (hends _ (Nat.le_refl _)) h
  have hplus := hx.ok_plus hr (m.checkpoints - k)
  rw [Nat.add_sub_cancel' (by omega)] at hplus
  obtain ⟨-, rfl⟩ := EStateM.Result.ok.inj (hnaming.symm.trans hplus)
  change k < m.checkpoints - (m''.checkpoints + (m.checkpoints - k)) at hk
  omega

omit hends in
/-- Nor has one that comes to a fault. -/
theorem not_ok_of_error (h : x .plain m = .error e m') (hk : k ≤ m.checkpoints) {b : α} {m'' : Machine} :
    x .naming (m.allowing k) ≠ .ok b m'' := by
  intro hr
  have hplus := hx.ok_plus hr (m.checkpoints - k)
  rw [Nat.add_sub_cancel' hk] at hplus
  exact nomatch h.symm.trans (hx.ok_of_naming hplus .plain)

/-- A computation that ends without a fault needs only the checkpoints that it passes. -/
theorem ok_within (h : x .plain m = .ok a m') (tell : Teller) (hk : k ≤ m'.checkpoints) :
    x tell (m.allowing (m.checkpoints - m'.checkpoints + k)) = .ok a (m'.allowing k) := by
  have hnaming := hx.naming_of_ok (hends _ (Nat.le_refl _)) h
  have hle : m'.checkpoints ≤ m.checkpoints := hx.checkpoints_le (m := m) hnaming
  -- By induction on the checkpoints that are taken away.
  have hless (i : Nat) (hi : i ≤ m'.checkpoints) :
      x .naming (m.allowing (m.checkpoints - i)) = .ok a (m'.allowing (m'.checkpoints - i)) := by
    induction i with
    | zero => exact hnaming
    | succ i ih =>
      have ih := ih (Nat.le_of_succ_le hi)
      have hmore := hx.more m (m.checkpoints - (i + 1))
      have hcut := hx.not_cutOff_naming (hends (m.checkpoints - (i + 1)) (Nat.sub_le _ _))
      rw [show m.checkpoints - (i + 1) + 1 = m.checkpoints - i by omega, ih] at hmore
      cases hr : x .naming (m.allowing (m.checkpoints - (i + 1))) with
      | ok b m'' =>
        rw [hr] at hmore
        obtain ⟨rfl, hm''⟩ := EStateM.Result.ok.inj hmore
        have hcheckpoints : m'.checkpoints - i = m''.checkpoints + 1 :=
          congrArg Machine.checkpoints hm''
        have hstate : m'' = m'.allowing (m'.checkpoints - (i + 1)) := by
          have hback := congrArg (fun m : Machine => m.allowing (m'.checkpoints - (i + 1))) hm''
          rw [show m'.checkpoints - (i + 1) = m''.checkpoints by omega] at hback ⊢
          exact hback.symm
        rw [hstate]
      | error e m'' =>
        rw [hr] at hmore
        cases e with
        | timeout s =>
          have hbeyond : m'.checkpoints - i < 1 := hmore.2.beyond
          omega
        | exhausted => exact absurd ⟨m'', hr⟩ hcut
        | _ => exact nomatch hmore
  have hwithin := hless (m'.checkpoints - k) (Nat.sub_le _ _)
  rw [show m.checkpoints - (m'.checkpoints - k) = m.checkpoints - m'.checkpoints + k by omega,
    show m'.checkpoints - (m'.checkpoints - k) = k by omega] at hwithin
  exact hx.ok_of_naming hwithin tell

end Tellable

namespace Job

def runTelling (tell : Teller) (j : Job) (n : Nat) : EStateM.Result Fault Machine Unit :=
  Run.programBy (tellingEvaluator tell (depthBound (j.checkpoints + 1) j.statements)) j.statements
    (Machine.start j.stdin n)

def callAt? (j : Job) (n : Nat) : Option FunctionCall := callOf? (j.runTelling .naming n)

def callsBefore (j : Job) (n : Nat) : List FunctionCall := (List.range n).filterMap j.callAt?

/-- Where timeouts are not told the run is what it is with so many checkpoints. -/
theorem runTelling_plain {j : Job} {n : Nat} (hn : n ≤ j.checkpoints) :
    j.runTelling .plain n = Run.program j.statements (Machine.start j.stdin n) := by
  have hdeeper := (program_returns j.statements j.stdin n).2
    ((j.checkpoints - n) * (statementsHeight j.statements + 3))
  rw [← depthBound_add, show n + 1 + (j.checkpoints - n) = j.checkpoints + 1 by omega] at hdeeper
  rw [← hdeeper, ← tellingEvaluator_plain]
  rfl

theorem runTelling_not_cutOff {j : Job} {n : Nat} (hn : n ≤ j.checkpoints) :
    ¬ CutOff (j.runTelling .plain n) := by
  rw [runTelling_plain hn]
  exact program_not_cutOff j.statements j.stdin n

/-- The run comes to a state after `b` checkpoints, from which it goes on in a way. -/
structure Passes (j : Job) (b : Nat) (m : Machine) (rest : Teller → Nat → Run Unit) : Prop where
  bound : b + m.checkpoints ≤ j.checkpoints
  goesOn : ∀ tell k, k ≤ m.checkpoints → j.runTelling tell (b + k) = rest tell k (m.allowing k)

def TellsState (j : Job) (n : Nat) (m : Machine) : Prop :=
  ∀ c, j.callAt? n = some c → c.state.outside = m.outside ∧ c.callee.hasEffect = true

namespace Passes

variable {α : Type} {V : α → Prop} {x : Teller → Run α} {rest : Teller → Nat → Run Unit}
variable {j : Job} {b n : Nat} {m m' : Machine} {a : α} {e : Fault}

section

variable (h : j.Passes b m fun tell k => x tell >>= fun _ => rest tell k)
include h

/-- A part of a run is not cut off. -/
theorem not_cutOff (k : Nat) (hk : k ≤ m.checkpoints) : ¬ CutOff (x .plain (m.allowing k)) := by
  rintro ⟨m', hr⟩
  have hrun := h.goesOn .plain k hk
  rw [run_bind_error hr] at hrun
  have hbound := h.bound
  exact runTelling_not_cutOff (by omega) ⟨m', hrun⟩

/-- As long as a part has not ended, its calls are those of the run. -/
theorem callsBefore_add (hn : n ≤ m.checkpoints)
    (hends : ∀ k < n, ∀ a m', x .naming (m.allowing k) ≠ .ok a m') :
    j.callsBefore (b + n) = j.callsBefore b ++ callsWithin x m n := by
  unfold callsBefore callsWithin
  rw [List.range_add, List.filterMap_append, List.filterMap_map]
  refine congrArg (_ ++ ·) (List.filterMap_congr fun k hk => ?_)
  have hk := List.mem_range.mp hk
  have hrun := h.goesOn .naming k (by omega)
  change callOf? (j.runTelling .naming (b + k)) = _
  cases hr : x .naming (m.allowing k) with
  | ok a m' => exact absurd hr (hends k hk a m')
  | error e m' =>
    rw [hrun, run_bind_error hr]
    exact callOf?_error e m'

variable (hx : Tellable V x)
include hx

/-- A part that comes to a fault is the last one. -/
theorem fails (hr : x .plain m = .error e m') :
    j.runTelling .plain (b + m.checkpoints) = .error e m' ∧
      j.TellsState (b + m.checkpoints) m' ∧
      ∃ calls, j.callsBefore (b + m.checkpoints) = j.callsBefore b ++ calls ∧
        m'.outside = m.outside.run (commandsOf calls) := by
  have hself : m.allowing m.checkpoints = m := rfl
  have hle := Nat.le_refl m.checkpoints
  have hcut := h.not_cutOff m.checkpoints hle
  have hcalls := hx.outside_naming h.not_cutOff hle
  have hrun (tell : Teller) : j.runTelling tell (b + m.checkpoints) = _ := h.goesOn tell _ hle
  rw [hself] at hcut hcalls hrun
  have hout := hx.outside_plain hcut
  have hsame := hx.same .plain m
  have hplain : j.runTelling .plain (b + m.checkpoints) = .error e m' :=
    (hrun .plain).trans (run_bind_error hr)
  rw [hr] at hout
  refine ⟨hplain, fun c hc => ?_, callsWithin x m m.checkpoints, ?_, hout.trans hcalls⟩
  · -- If the run stopped at a call, the state is the one in which that call was made.
    change callOf? (j.runTelling .naming (b + m.checkpoints)) = some c at hc
    cases hr' : x .naming m with
    | ok a m'' => exact nomatch hr.symm.trans (hx.ok_of_naming hr' .plain)
    | error e' m'' =>
      have hnaming : j.runTelling .naming (b + m.checkpoints) = .error e' m'' :=
        (hrun .naming).trans (run_bind_error hr')
      rw [hnaming] at hc
      rw [hr'] at hout hsame
      cases e' with
      | timeout s =>
        obtain ⟨ho, heffect⟩ := hsame.1 c hc
        exact ⟨ho.trans hout.symm, heffect⟩
      | _ => exact nomatch hc
  · exact h.callsBefore_add hle fun k hk _ _ => hx.not_ok_of_error hr (Nat.le_of_lt hk)

/-- After a part that ends the run goes on with the checkpoints that are left. -/
theorem next (hr : x .plain m = .ok a m') :
    ∃ n, n + m'.checkpoints = m.checkpoints ∧
      j.Passes (b + n) m' (fun tell k => rest tell (n + k)) ∧
      ∃ calls, j.callsBefore (b + n) = j.callsBefore b ++ calls ∧
        m'.outside = m.outside.run (commandsOf calls) := by
  have hwithin (tell : Teller) (k : Nat) (hk : k ≤ m'.checkpoints) :=
    hx.ok_within h.not_cutOff hr tell hk
  have hnaming := hx.naming_of_ok (h.not_cutOff _ (Nat.le_refl _)) hr
  have hle : m'.checkpoints ≤ m.checkpoints := hx.checkpoints_le (m := m) hnaming
  have hn : m.checkpoints - m'.checkpoints ≤ m.checkpoints := Nat.sub_le _ _
  have hbound := h.bound
  refine ⟨m.checkpoints - m'.checkpoints, Nat.sub_add_cancel hle, ⟨by omega, fun tell k hk => ?_⟩,
    callsWithin x m (m.checkpoints - m'.checkpoints), ?_, ?_⟩
  · rw [Nat.add_assoc, h.goesOn tell _ (by omega), run_bind_ok (hwithin tell k hk)]
  · exact h.callsBefore_add hn fun k hk _ _ => hx.not_ok_before h.not_cutOff hr hk
  · rw [← hx.outside_naming h.not_cutOff hn]
    have hends := hwithin .naming 0 (Nat.zero_le _)
    rw [Nat.add_zero] at hends
    rw [hends]
    rfl

end

end Passes

end Job

end Snippet.Script
