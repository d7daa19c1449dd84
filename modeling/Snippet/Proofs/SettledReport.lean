import Snippet.Proofs.WholePart
import Snippet.Report

/-!
The reports that drafts come to. They are those with every field admissible, and such a report is what its own
fields come to when they are all set in a draft. What a draft has set is kept as far as it is admissible, and
what is not is filled in from the other fields.
-/

namespace Snippet

namespace Clock

open Float.Model UnpackedFloat

theorem IsTime.isNegative_eq_false {x : Float} (h : IsTime x) : Number.isNegative x = false := by
  have hle : bitsOf x ≤ 2047 * 2 ^ 52 := h
  change (bitsOf x / 2 ^ 63 == 1) = false
  exact beq_eq_false_iff_ne.mpr (by omega)

theorem IsTime.beq_self {x : Float} (h : IsTime x) : (x == x) = true := by
  change (x.toModel.unpack.compare x.toModel.unpack == some .eq) = true
  rw [h.compare_eq h, Nat.compare_eq_eq.mpr rfl]
  rfl

theorem le_of_zero_lt {x : Float} (h : 0.0 < x) : 0.0 ≤ x := by
  have htime := isTime_of_zero_lt h
  rw [isTime_zero.lt_iff htime] at h
  exact (isTime_zero.le_iff htime).mpr (Nat.le_of_lt h)

/-- There are two zeros, and they are not below each other. -/
theorem zero_lt_or_eq {x : Float} (h : 0.0 ≤ x) : 0.0 < x ∨ x = 0.0 ∨ x = -0.0 := by
  obtain ⟨s, rest, hbits, -, hcases⟩ := Clock.unpack_cases x
  rw [le_iff_compare, unpack_zero] at h
  rw [lt_iff_compare, unpack_zero]
  obtain ⟨-, hu⟩ | ⟨-, hu⟩ | ⟨rfl, -⟩ | ⟨power, mantissa, hc, -, -, hu⟩ := hcases
  · rw [hu] at h
    cases h
  · cases s with
    | positive => exact Or.inl (hu ▸ rfl)
    | negative =>
      rw [hu] at h
      cases h
  · right
    cases s with
    | positive => exact Or.inl (bitsOf_injective (hbits.trans bitsOf_zero.symm))
    | negative => exact Or.inr (bitsOf_injective (hbits.trans (by decide +kernel)))
  · cases s with
    | positive => exact Or.inl (hu ▸ rfl)
    | negative =>
      rw [hu] at h
      cases h

end Clock

open Clock

structure Report.WellFormed (r : Report) : Prop where
  known : r.status.id = 3 ∨ r.status.id = 4
  finite : r.time.isFinite = true
  nonneg : 0.0 ≤ r.time
  /-- Of the two zeros a report has the one without a sign. -/
  unsigned : Number.isNegative r.time = false

def Report.toDraft (r : Report) : Draft where
  output := some r.output
  error := some r.error
  exitCode := some r.exitCode
  time := some r.time
  memory := some r.memory
  status := some r.status

structure Report.Keeps (r : Report) (d : Draft) : Prop where
  output : ∀ text ∈ d.output, r.output = text
  error : ∀ text ∈ d.error, r.error = text
  exitCode : ∀ code ∈ d.exitCode, r.exitCode = code
  memory : ∀ size ∈ d.memory, r.memory = size
  /-- Only a sign in front of zero is lost. -/
  time : ∀ t ∈ d.time, t.isFinite = true → 0.0 ≤ t →
    (r.time == t) = true ∧ (Number.isNegative t = false → r.time = t)
  status : ∀ s ∈ d.status, s.id = 3 ∨ s.id = 4 → r.status = s

structure Report.Fills (r : Report) (d : Draft) : Prop where
  output : d.output = none → r.output = ""
  error : d.error = none → r.error = ""
  exitCode : d.exitCode = none → r.exitCode = if r.status.id = 4 then 1 else 0
  memory : d.memory = none → r.memory = 0
  time : (∀ t ∈ d.time, ¬ (t.isFinite = true ∧ 0.0 ≤ t)) → r.time = 0.0
  unset : d.status = none → r.status = ⟨3, "Success"⟩
  unknown : ∀ s ∈ d.status, s.id ≠ 3 → s.id ≠ 4 →
    r.status = if r.error = "" then ⟨3, "Success"⟩ else ⟨4, "Code Error"⟩

namespace Status

theorem isKnown_iff (s : Status) : s.isKnown = true ↔ s.id = 3 ∨ s.id = 4 := by
  unfold isKnown successId errorId
  rw [Bool.or_eq_true, beq_iff_eq, beq_iff_eq]

end Status

namespace Draft

variable (d : Draft)

/-- The time of a report is the one of its draft, or zero. -/
theorem time_normalize_cases :
    (∃ t ∈ d.time, t.isFinite = true ∧ 0.0 < t ∧ d.normalize.time = t) ∨
      ((∀ t ∈ d.time, ¬ (t.isFinite = true ∧ 0.0 < t)) ∧ d.normalize.time = 0.0) := by
  obtain ⟨output, error, exitCode, time, memory, status⟩ := d
  cases time with
  | none => exact Or.inr ⟨fun t ht => (Option.not_mem_none t ht).elim, rfl⟩
  | some t =>
    by_cases ht : t.isFinite = true ∧ 0.0 < t
    · refine Or.inl ⟨t, rfl, ht.1, ht.2, ?_⟩
      have hkept : (some t).filter (fun t => t.isFinite && decide (0.0 < t)) = some t := by
        rw [Option.filter_some, ht.1, decide_eq_true ht.2]
        rfl
      exact congrArg (Option.getD · 0.0) hkept
    · refine Or.inr ⟨fun t' ht' => Option.mem_some.mp ht' ▸ ht, ?_⟩
      have hdropped : (some t).filter (fun t => t.isFinite && decide (0.0 < t)) = none := by
        rw [Option.filter_some, if_neg]
        rwa [Bool.and_eq_true, decide_eq_true_iff]
      exact congrArg (Option.getD · 0.0) hdropped

theorem settledStatus_of_known {s : Status} (hs : d.status = some s) (hknown : s.id = 3 ∨ s.id = 4) :
    d.settledStatus = s := by
  unfold settledStatus
  rw [hs]
  exact if_pos (s.isKnown_iff.mpr hknown)

theorem settledStatus_of_unknown {s : Status} (hs : d.status = some s) (hunknown : ¬ (s.id = 3 ∨ s.id = 4)) :
    d.settledStatus = if d.normalize.error = "" then ⟨3, "Success"⟩ else ⟨4, "Code Error"⟩ := by
  unfold settledStatus
  rw [hs]
  refine (if_neg (mt s.isKnown_iff.mp hunknown)).trans ?_
  exact if_congr String.isEmpty_iff rfl rfl

theorem settledStatus_known : d.settledStatus.id = 3 ∨ d.settledStatus.id = 4 := by
  cases hs : d.status with
  | none =>
    unfold settledStatus
    rw [hs]
    exact Or.inl rfl
  | some s =>
    by_cases hknown : s.id = 3 ∨ s.id = 4
    · rw [d.settledStatus_of_known hs hknown]
      exact hknown
    · rw [d.settledStatus_of_unknown hs hknown]
      split
      · exact Or.inl rfl
      · exact Or.inr rfl

/-- Settling a draft gives a report in which every field is admissible. -/
theorem normalize_wellFormed : d.normalize.WellFormed := by
  have htime : d.normalize.time.isFinite = true ∧ 0.0 ≤ d.normalize.time ∧
      Number.isNegative d.normalize.time = false := by
    obtain ⟨t, -, hfinite, hpos, ht⟩ | ⟨-, ht⟩ := d.time_normalize_cases
    · rw [ht]
      exact ⟨hfinite, le_of_zero_lt hpos, (isTime_of_zero_lt hpos).isNegative_eq_false⟩
    · rw [ht]
      exact ⟨by decide +kernel, by decide +kernel, isTime_zero.isNegative_eq_false⟩
  exact ⟨d.settledStatus_known, htime.1, htime.2.1, htime.2.2⟩

/-- Settling keeps what has been set as far as it is admissible. -/
theorem normalize_keeps : d.normalize.Keeps d where
  output text h := congrArg (Option.getD · _) h
  error text h := congrArg (Option.getD · _) h
  exitCode code h := congrArg (Option.getD · _) h
  memory size h := congrArg (Option.getD · _) h
  time t h hfinite hnonneg := by
    obtain ⟨t', ht', -, hpos, htime⟩ | ⟨hnone, htime⟩ := d.time_normalize_cases
    · obtain rfl := Option.mem_unique h ht'
      rw [htime]
      exact ⟨(isTime_of_zero_lt hpos).beq_self, fun _ => rfl⟩
    · rw [htime]
      obtain hpos | rfl | rfl := zero_lt_or_eq hnonneg
      · exact absurd ⟨hfinite, hpos⟩ (hnone t h)
      · exact ⟨isTime_zero.beq_self, fun _ => rfl⟩
      · exact ⟨by decide +kernel, fun hsign => absurd hsign (by decide +kernel)⟩
  status s h hknown := d.settledStatus_of_known h hknown

/-- Settling fills in from the other fields what has not been set. -/
theorem normalize_fills : d.normalize.Fills d where
  output h := congrArg (Option.getD · _) h
  error h := congrArg (Option.getD · _) h
  exitCode h := (congrArg (Option.getD · _) h).trans (if_congr beq_iff_eq rfl rfl)
  memory h := congrArg (Option.getD · _) h
  time h := by
    obtain ⟨t, ht, hfinite, hpos, -⟩ | ⟨-, htime⟩ := d.time_normalize_cases
    · exact absurd ⟨hfinite, le_of_zero_lt hpos⟩ (h t ht)
    · exact htime
  unset h := by
    unfold normalize settledStatus
    rw [h]
    rfl
  unknown s h h3 h4 := d.settledStatus_of_unknown h (not_or.mpr ⟨h3, h4⟩)

/-- What a failure sets does not depend on what the other fields are. -/
theorem normalize_fail (message : String) :
    (d.fail message).normalize =
      { d.normalize with error := message, exitCode := 1, status := ⟨4, "Code Error"⟩ } := rfl

end Draft

/-- A report with every field admissible is what its own fields come to. -/
theorem Report.WellFormed.normalize_toDraft {r : Report} (h : r.WellFormed) : r.toDraft.normalize = r := by
  have hkeeps := r.toDraft.normalize_keeps
  have htime : r.toDraft.normalize.time = r.time :=
    (hkeeps.time r.time rfl h.finite h.nonneg).2 h.unsigned
  have hstatus : r.toDraft.normalize.status = r.status := hkeeps.status r.status rfl h.known
  exact congrArg₂ (fun time status => { r with time, status }) htime hstatus

/-- Filling in a draft is a projection onto the reports with every field admissible: these are what drafts come
to, and each of them is what a draft with its fields comes to. What a draft has set is kept where it is
admissible, the rest follows from the other fields, and a failed draft comes to the same as it would otherwise
but for the error, the exit code and the status. -/
theorem drafts_are_projected_onto_reports :
    (∀ r : Report, r.WellFormed ↔ ∃ d : Draft, d.normalize = r) ∧
      ∀ d : Draft, d.normalize.toDraft.normalize = d.normalize ∧ d.normalize.Keeps d ∧ d.normalize.Fills d ∧
        ∀ message, (d.fail message).normalize =
          { d.normalize with error := message, exitCode := 1, status := ⟨4, "Code Error"⟩ } := by
  refine ⟨fun r => ⟨fun h => ⟨r.toDraft, h.normalize_toDraft⟩, ?_⟩, fun d => ?_⟩
  · rintro ⟨d, rfl⟩
    exact d.normalize_wellFormed
  · exact ⟨d.normalize_wellFormed.normalize_toDraft, d.normalize_keeps, d.normalize_fills, d.normalize_fail⟩

end Snippet
