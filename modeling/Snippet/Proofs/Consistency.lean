import Mathlib.Data.List.DropRight
import Snippet.Engine
import Snippet.Proofs.ErrorText

/-!
How the fields of a report go together. Every interpreter hands back either the draft of a run that ended
well or that of a failed one, and whether it failed shows in the same way for all of them.
-/

namespace Snippet

structure Report.Consistent (r : Report) : Prop where
  known : r.status.id = 3 ∨ r.status.id = 4
  exitCode_zero : r.exitCode = 0 ↔ r.status.id = 3
  exitCode_one : r.exitCode = 1 ↔ r.status.id = 4

theorem Report.Consistent.ofSuccess {r : Report} (hs : r.status.id = 3) (he : r.exitCode = 0) :
    r.Consistent := by
  refine ⟨Or.inl hs, ⟨fun _ => hs, fun _ => he⟩, ⟨fun h => ?_, fun h => ?_⟩⟩
  · rw [he] at h
    exact absurd h (by decide)
  · rw [hs] at h
    exact absurd h (by decide)

theorem Report.Consistent.ofFailure {r : Report} (hs : r.status.id = 4) (he : r.exitCode = 1) :
    r.Consistent := by
  refine ⟨Or.inr hs, ⟨fun h => ?_, fun h => ?_⟩, ⟨fun _ => hs, fun _ => he⟩⟩
  · rw [he] at h
    exact absurd h (by decide)
  · rw [hs] at h
    exact absurd h (by decide)

structure Report.Tells (r : Report) (failed : Prop) : Prop extends r.Consistent where
  id_error : r.status.id = 4 ↔ failed
  hasCode : r.status.description ≠ "No Code"

/-- Filling the gaps of a draft keeps what it tells. -/
theorem Draft.Tells.normalize {d : Draft} {failed : Prop} (h : d.Tells failed) :
    d.normalize.Tells failed := by
  by_cases hf : failed
  · obtain ⟨hstatus, hexit⟩ := h.failure hf
    have hs : d.normalize.status = Status.codeError := by
      unfold Draft.normalize settledStatus
      rw [hstatus]
      rfl
    have he : d.normalize.exitCode = 1 := by
      unfold Draft.normalize
      rw [hexit]
      rfl
    have hid : d.normalize.status.id = 4 := congrArg Status.id hs
    exact ⟨.ofFailure hid he, ⟨fun _ => hf, fun _ => hid⟩, by rw [hs]; decide⟩
  · obtain ⟨hstatus, hexit⟩ := h.success hf
    have hs : d.normalize.status = Status.success ∨ d.normalize.status = Status.simulated := by
      unfold Draft.normalize settledStatus
      exact hstatus.imp (fun hs => by rw [hs]; rfl) fun hs => by rw [hs]; rfl
    have he : d.normalize.exitCode = 0 := by
      unfold Draft.normalize
      rw [hexit]
      rfl
    have hid : d.normalize.status.id = 3 :=
      hs.elim (fun hs => congrArg Status.id hs) fun hs => congrArg Status.id hs
    refine ⟨.ofSuccess hid he, ⟨fun herror => ?_, fun hfailed => absurd hfailed hf⟩, ?_⟩
    · rw [hid] at herror
      exact absurd herror (by decide)
    · obtain hs | hs := hs
      · rw [hs]
        decide
      · rw [hs]
        decide

/-- The idioms of printing are never held against a source. -/
theorem Idiom.simulate_tells (language source stdin : String) :
    (Idiom.simulate language source stdin).Tells False :=
  ⟨False.elim, fun _ => ⟨Or.inr rfl, rfl⟩⟩

/-- Scanning fails if there are more lines than can be scanned before the time is up. -/
theorem Scan.scanWithin_tells (g : Grammar) (source stdin : String) (allowance : Nat)
    (timeout : String) :
    (Scan.scanWithin g source stdin allowance timeout).Tells
      (allowance < (Text.lines source.toList).length) := by
  unfold Scan.scanWithin
  dsimp only
  constructor
  · intro htime
    rw [if_pos htime]
    split
    · exact ⟨rfl, rfl⟩
    · exact ⟨rfl, rfl⟩
  · intro htime
    rw [if_neg htime]
    exact ⟨Or.inl rfl, rfl⟩

/-- A text is blank if nothing is left of it when blanks are removed. -/
theorem Text.isBlankText_iff (s : List Char) : Text.isBlankText s = true ↔ Text.trim s = [] := by
  have htrim : Text.trim s = [] ↔ ∀ c ∈ Text.trimStart s, Text.isBlank c = true :=
    List.rdropWhile_eq_nil_iff
  unfold Text.isBlankText
  rw [List.all_eq_true, htrim, ← List.dropWhile_eq_nil_iff, ← List.dropWhile_eq_nil_iff]
  unfold Text.trimStart
  rw [List.dropWhile_idempotent]

namespace Engine

def languageOf (request : Request) : String := displayLanguage (request.language.getD "")

/-- How a report goes with the request it answers: what its status says of the source, for each route that
the source can take. -/
structure Answers (allowance : Nat) (request : Request) (r : Report) : Prop
    extends r.Consistent where
  noCode : r.status.description = "No Code" ↔ Text.trim (request.source.getD "").toList = []
  idioms : routeOf (languageOf request) = .idioms → r.status.id = 3
  scan : ∀ language, routeOf (languageOf request) = .scan language →
    Text.trim (request.source.getD "").toList ≠ [] →
    (r.status.id = 4 ↔ allowance < (Text.lines (request.source.getD "").toList).length)
  evaluate : routeOf (languageOf request) = .evaluate →
    Text.trim (request.source.getD "").toList ≠ [] →
    (r.status.id = 4 ↔
      (Script.Ending.within (request.source.getD "") (request.stdin.getD "") allowance).IsFault)

structure ConvertsForEver (allowance : Nat) (request : Request) : Prop where
  code : Text.trim (request.source.getD "").toList ≠ []
  route : routeOf (languageOf request) = .evaluate
  endless :
    (Script.Ending.within (request.source.getD "") (request.stdin.getD "") allowance).IsEndless

variable {allowance : Nat} {timeout : String} {request : Request}

theorem runWithin_of_blank (h : Text.trim (request.source.getD "").toList = []) :
    runWithin allowance timeout request = some Report.noCode := by
  unfold runWithin executeWithin
  rw [if_pos ((Text.isBlankText_iff _).mpr h)]

theorem runWithin_of_code (h : Text.trim (request.source.getD "").toList ≠ []) :
    runWithin allowance timeout request =
      (draftWithin? allowance timeout (routeOf (languageOf request)) (languageOf request)
        (request.source.getD "") (request.stdin.getD "")).map Draft.normalize := by
  unfold runWithin executeWithin
  rw [if_neg fun hblank => h ((Text.isBlankText_iff _).mp hblank)]
  rfl

/-- There is no report exactly where a conversion does not end. -/
theorem runWithin_eq_none_iff :
    runWithin allowance timeout request = none ↔ ConvertsForEver allowance request := by
  by_cases hcode : Text.trim (request.source.getD "").toList = []
  · rw [runWithin_of_blank hcode]
    exact ⟨nofun, fun h => absurd hcode h.code⟩
  · rw [runWithin_of_code hcode, Option.map_eq_none_iff]
    cases hroute : routeOf (languageOf request) with
    | idioms => exact ⟨nofun, fun h => nomatch hroute.symm.trans h.route⟩
    | scan scanned => exact ⟨nofun, fun h => nomatch hroute.symm.trans h.route⟩
    | evaluate =>
      have hnone := Script.evaluateWithin_eq_none_iff (request.source.getD "")
        (request.stdin.getD "") allowance timeout
      exact ⟨fun h => ⟨hcode, hroute, hnone.mp h⟩, fun h => hnone.mpr h.endless⟩

/-- A report that comes from a draft. -/
theorem Answers.of_tells {r : Report} {failed : Prop} (hr : r.Tells failed)
    (hcode : Text.trim (request.source.getD "").toList ≠ [])
    (hidioms : routeOf (languageOf request) = .idioms → ¬ failed)
    (hscan : ∀ language, routeOf (languageOf request) = .scan language →
      (failed ↔ allowance < (Text.lines (request.source.getD "").toList).length))
    (hevaluate : routeOf (languageOf request) = .evaluate →
      (failed ↔
        (Script.Ending.within (request.source.getD "") (request.stdin.getD "")
          allowance).IsFault)) :
    Answers allowance request r where
  toConsistent := hr.toConsistent
  noCode := ⟨fun hnone => absurd hnone hr.hasCode, fun hblank => absurd hblank hcode⟩
  idioms hroute := hr.known.resolve_right fun hid => hidioms hroute (hr.id_error.mp hid)
  scan language hroute _ := hr.id_error.trans (hscan language hroute)
  evaluate hroute _ := hr.id_error.trans (hevaluate hroute)

theorem answers_of_blank (h : Text.trim (request.source.getD "").toList = []) :
    Answers allowance request Report.noCode where
  toConsistent := .ofSuccess rfl rfl
  noCode := ⟨fun _ => h, fun _ => rfl⟩
  idioms _ := rfl
  scan _ _ hne := absurd h hne
  evaluate _ hne := absurd h hne

/-- Each route makes its report in its own way, and each report says what the route has found. -/
theorem answers_of_runWithin {r : Report} (h : runWithin allowance timeout request = some r) :
    Answers allowance request r := by
  by_cases hcode : Text.trim (request.source.getD "").toList = []
  · rw [runWithin_of_blank hcode] at h
    obtain rfl := Option.some.inj h
    exact answers_of_blank hcode
  · rw [runWithin_of_code hcode] at h
    obtain ⟨draft, hdraft, rfl⟩ := Option.map_eq_some_iff.mp h
    cases hroute : routeOf (languageOf request) with
    | idioms =>
      rw [hroute] at hdraft
      obtain rfl := Option.some.inj hdraft
      refine .of_tells (Idiom.simulate_tells _ _ _).normalize hcode (fun _ => id) ?_ ?_
      · exact fun language hscan => nomatch hroute.symm.trans hscan
      · exact fun hevaluate => nomatch hroute.symm.trans hevaluate
    | scan scanned =>
      rw [hroute] at hdraft
      obtain rfl := Option.some.inj hdraft
      refine .of_tells (Scan.scanWithin_tells _ _ _ _ _).normalize hcode ?_ (fun _ _ => Iff.rfl) ?_
      · exact fun hidioms => nomatch hroute.symm.trans hidioms
      · exact fun hevaluate => nomatch hroute.symm.trans hevaluate
    | evaluate =>
      rw [hroute] at hdraft
      refine .of_tells (Script.evaluateWithin_tells hdraft).normalize hcode ?_ ?_ fun _ => Iff.rfl
      · exact fun hidioms => nomatch hroute.symm.trans hidioms
      · exact fun language hscan => nomatch hroute.symm.trans hscan

/-- A request is answered by a report, whichever checkpoint is the first to fail, unless its script comes to a
conversion that does not end. The report is consistent, and its status says of the source what the
interpreter on its route has found. A language that is left out or blank is the default one. -/
theorem report_goes_with_request (allowance : Nat) (timeout : String) (request : Request) :
    (runWithin allowance timeout request = none ↔ ConvertsForEver allowance request) ∧
      (∀ r, runWithin allowance timeout request = some r → Answers allowance request r) ∧
      (Text.trim (request.language.getD "").toList = [] →
        runWithin allowance timeout request =
          runWithin allowance timeout { request with language := some "javascript" }) := by
  refine ⟨runWithin_eq_none_iff, fun r h => answers_of_runWithin h, fun hblank => ?_⟩
  have hlanguage : displayLanguage (request.language.getD "") = displayLanguage "javascript" := by
    unfold displayLanguage
    rw [hblank]
    decide
  change executeWithin _ _ _ (request.language.getD "") _ = executeWithin _ _ _ "javascript" _
  unfold executeWithin
  dsimp only
  rw [hlanguage]

/-- The request to run a script that asks for the number of a ring of arrays has no answer. -/
theorem ring_has_no_report : ∃ allowance timeout request,
    runWithin allowance timeout request = none ∧ ConvertsForEver allowance request := by
  have hnone : (runWithin 20000 "" { source := some "const a = []; a.push(a); +a;" }).isNone =
      true := by
    decide +kernel
  have hrun := Option.isNone_iff_eq_none.mp hnone
  exact ⟨_, _, _, hrun, runWithin_eq_none_iff.mp hrun⟩

end Engine

end Snippet
