import Snippet.Proofs.Timeout

/-!
How the run of a source ends. The text is rejected, or a fault ends the run, or the script comes to its
end; what is reported of the run depends on nothing else.
-/

namespace Snippet

structure Draft.Tells (d : Draft) (failed : Prop) : Prop where
  failure : failed → d.status = some Status.codeError ∧ d.exitCode = some 1
  success : ¬ failed →
    (d.status = some Status.success ∨ d.status = some Status.simulated) ∧ d.exitCode = some 0

/-- The status of a draft says whether it tells of a failure. -/
theorem Draft.Tells.status_iff {d : Draft} {failed : Prop} (h : d.Tells failed) :
    d.status = some Status.codeError ↔ failed := by
  refine ⟨fun hstatus => Classical.byContradiction fun hfailed => ?_,
    fun hfailed => (h.failure hfailed).1⟩
  obtain ⟨hs | hs, -⟩ := h.success hfailed
  · rw [hs] at hstatus
    exact absurd hstatus (by decide)
  · rw [hs] at hstatus
    exact absurd hstatus (by decide)

namespace Script

inductive Ending where
  /-- The source is no script. -/
  | rejected (fault : SyntaxFault)
  /-- A fault that nothing caught. -/
  | failed (e : Fault) (m : Machine)
  | finished (m : Machine)

namespace Ending

def ofResult : EStateM.Result Fault Machine Unit → Ending
  | .ok () m => .finished m
  | .error e m => .failed e m

def within (source stdin : String) (allowance : Nat) : Ending :=
  match parseProgram source with
  | .error fault => .rejected fault
  | .ok statements => ofResult (Run.program statements (Machine.start stdin allowance))

def of (source stdin : String) (budget : Budget) : Ending := within source stdin budget.checkpoints

inductive IsFault : Ending → Prop
  | rejected (fault : SyntaxFault) : IsFault (.rejected fault)
  | failed (e : Fault) (m : Machine) : IsFault (.failed e m)

/-- Whether a run comes to a conversion that does not end: while it goes on, or of the thrown value that
it ends with. -/
def IsEndless : Ending → Prop
  | .failed .endless _ => True
  | .failed (.thrown v) m => (m.heap.uncaught v).toOption = none
  | _ => False

def draft? (source timeout : String) : Ending → Option Draft
  | .rejected fault => some (((Machine.start "" 0).draft source).fail fault.report)
  | .failed e m => (e.report? timeout m.heap).map fun text => (m.draft source).fail text
  | .finished m => some (m.draft source)

variable (source stdin : String) (allowance : Nat)

theorem within_rejected {source : String} {fault : SyntaxFault}
    (hp : parseProgram source = .error fault) : within source stdin allowance = .rejected fault := by
  unfold within
  rw [hp]

theorem within_parsed {source : String} {statements : List Stmt}
    (hp : parseProgram source = .ok statements) :
    within source stdin allowance =
      ofResult (Run.program statements (Machine.start stdin allowance)) := by
  unfold within
  rw [hp]

/-- A run is never cut off. -/
theorem within_ne_exhausted (m : Machine) :
    within source stdin allowance ≠ .failed .exhausted m := by
  intro h
  cases hp : parseProgram source with
  | error fault =>
    rw [within_rejected stdin allowance hp] at h
    cases h
  | ok statements =>
    have hreturns := program_not_cutOff statements stdin allowance
    rw [within_parsed stdin allowance hp] at h
    cases hr : Run.program statements (Machine.start stdin allowance) with
    | ok a m' =>
      rw [hr] at h
      cases h
    | error e m' =>
      rw [hr] at h hreturns
      obtain ⟨rfl, rfl⟩ := failed.inj h
      exact hreturns ⟨m', rfl⟩

end Ending

/-- What is reported of a source is told by how its run ends. -/
theorem evaluateWithin_eq_draft? (source stdin : String) (allowance : Nat) (timeout : String) :
    evaluateWithin source stdin allowance timeout =
      (Ending.within source stdin allowance).draft? source timeout := by
  cases hp : parseProgram source with
  | error fault =>
    rw [Ending.within_rejected stdin allowance hp]
    unfold evaluateWithin
    rw [hp]
    rfl
  | ok statements =>
    rw [Ending.within_parsed stdin allowance hp]
    cases hr : Run.program statements (Machine.start stdin allowance) with
    | ok a m => exact evaluateWithin_of_ok timeout hp hr
    | error e m => exact evaluateWithin_of_error timeout hp hr

theorem evaluate_eq_draft? (source stdin : String) (budget : Budget) :
    evaluate source stdin budget =
      (Ending.of source stdin budget).draft? source budget.timeoutMessage :=
  evaluateWithin_eq_draft? source stdin budget.checkpoints budget.timeoutMessage

/-- There is no report exactly where a conversion does not end. -/
theorem evaluateWithin_eq_none_iff (source stdin : String) (allowance : Nat) (timeout : String) :
    evaluateWithin source stdin allowance timeout = none ↔
      (Ending.within source stdin allowance).IsEndless := by
  have hcut := Ending.within_ne_exhausted source stdin allowance
  rw [evaluateWithin_eq_draft?]
  cases h : Ending.within source stdin allowance with
  | rejected fault => exact ⟨nofun, False.elim⟩
  | finished m => exact ⟨nofun, False.elim⟩
  | failed e m =>
    cases e with
    | exhausted => exact absurd h (hcut m)
    | endless => exact ⟨fun _ => trivial, fun _ => rfl⟩
    | thrown v => exact Option.map_eq_none_iff
    | _ => exact ⟨nofun, False.elim⟩

/-- A draft tells of a failure if the run ends with a fault. -/
theorem evaluateWithin_tells {source stdin : String} {allowance : Nat} {timeout : String}
    {draft : Draft} (h : evaluateWithin source stdin allowance timeout = some draft) :
    draft.Tells (Ending.within source stdin allowance).IsFault := by
  rw [evaluateWithin_eq_draft?] at h
  cases hend : Ending.within source stdin allowance with
  | finished m =>
    rw [hend] at h
    obtain rfl := Option.some.inj h
    exact ⟨nofun, fun _ => ⟨Or.inl rfl, rfl⟩⟩
  | rejected fault =>
    rw [hend] at h
    obtain rfl := Option.some.inj h
    exact ⟨fun _ => ⟨rfl, rfl⟩, fun hno => absurd (.rejected fault) hno⟩
  | failed e m =>
    rw [hend] at h
    obtain ⟨text, -, rfl⟩ := Option.map_eq_some_iff.mp h
    exact ⟨fun _ => ⟨rfl, rfl⟩, fun hno => absurd (.failed e m) hno⟩

end Script

end Snippet
