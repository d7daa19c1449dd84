import Snippet.Proofs.Requests
import Snippet.Proofs.ScanTranscript
import Snippet.Proofs.TimerRun

/-!
Who gets which line. The calls of a script that print or ask for a line are the turns of a dialogue over the standard
input, and so are the prints and the slots that the statements of a source come to. Each call that asks gets the answer
of the dialogue, and so does each slot, in the order in which the calls are made and the slots stand in the statements.
-/

namespace Snippet

namespace Script

/-- Commands other than those of calls show nothing and ask for nothing. -/
theorem flatMap_turns_filter (history : List Command) :
    (history.filter Command.IsCall).flatMap Command.turns = history.flatMap Command.turns := by
  induction history with
  | nil => rfl
  | cons c history ih =>
    by_cases hcall : c.IsCall
    · simp [hcall, ih]
    · have hfire : c.turns = [] := by
        cases c with
        | fire => rfl
        | _ => exact absurd trivial hcall
      simp [hcall, hfire, ih]

namespace FunctionCall

/-- The call that asks for a line is told by its function alone. -/
theorem command?_of_isPrompt {c : FunctionCall} (h : c.callee.isPrompt = true) : c.command? = some .prompt := by
  obtain ⟨callee, arguments, m⟩ := c
  obtain ⟨identity, rfl⟩ := Value.exists_prompt h
  rfl

/-- Only a call that asks for a line does so. -/
theorem isPrompt_of_command? {c : FunctionCall} (h : c.command? = some .prompt) : c.callee.isPrompt = true := by
  obtain ⟨b, identity, hcallee, rfl⟩ := builtin_of_command? h
  rw [hcallee]
  rfl

end FunctionCall

/-- In a dialogue of calls as many questions are answered as calls ask for a line. -/
theorem length_answers (calls : List FunctionCall) (d : Dialogue) :
    (d.run ((commandsOf calls).flatMap Command.turns)).answers.length =
      d.answers.length + calls.countP fun c => c.callee.isPrompt := by
  induction calls generalizing d with
  | nil => rfl
  | cons c calls ih =>
    rw [commandsOf_cons, List.flatMap_append, Dialogue.run_append, ih, List.countP_cons]
    cases hprompt : c.callee.isPrompt with
    | true =>
      rw [FunctionCall.command?_of_isPrompt hprompt, if_pos rfl]
      change (d.after (.asks "")).answers.length + _ = _
      cases hq : d.queue with
      | nil =>
        rw [Dialogue.after_asks_nil hq, List.length_append, List.length_singleton]
        omega
      | cons line rest =>
        rw [Dialogue.after_asks_cons hq, List.length_append, List.length_singleton]
        omega
    | false =>
      rw [if_neg Bool.false_ne_true, Nat.add_zero]
      refine congrArg (· + _) ?_
      cases hc : c.command? with
      | none => rfl
      | some command =>
        cases command with
        | prompt => exact Bool.noConfusion (hprompt.symm.trans (FunctionCall.isPrompt_of_command? hc))
        | _ => rfl

namespace Job

def turnsBefore (j : Job) (n : Nat) : List Turn := (commandsOf (j.callsBefore n)).flatMap Command.turns

theorem turnsBefore_succ {j : Job} {n : Nat} {c : FunctionCall} {command : Command} (hc : j.callAt? n = some c)
    (hcommand : c.command? = some command) : j.turnsBefore (n + 1) = j.turnsBefore n ++ command.turns := by
  have hnext : commandsOf (j.callsBefore (n + 1)) = commandsOf (j.callsBefore n) ++ [command] := by
    unfold callsBefore
    rw [filterMap_range_succ, commandsOf_append, hc, commandsOf_toList, Option.bind_some, hcommand]
    rfl
  unfold turnsBefore
  rw [hnext, List.flatMap_append, List.flatMap_singleton]

/-- The run goes with the dialogue of its calls, as does the state in which it makes the next one. -/
theorem matches_dialogue {j : Job} {n : Nat} (hn : n ≤ j.checkpoints) :
    (finalState (Run.program j.statements (Machine.start j.stdin n))).outside.Matches
        (Dialogue.run ⟨inputLines j.stdin, [], []⟩ (j.turnsBefore n)) ∧
      ∀ c, j.callAt? n = some c →
        c.state.outside.Matches (Dialogue.run ⟨inputLines j.stdin, [], []⟩ (j.turnsBefore n)) := by
  obtain ⟨history, hplays, hhistory, htells⟩ := Job.plays hn
  have hturns : history.flatMap Command.turns = j.turnsBefore n := by
    rw [← flatMap_turns_filter, hhistory]
    rfl
  have hmatches := (Script.start_matches j.stdin n).run history
  rw [← hplays.outside, hturns] at hmatches
  exact ⟨hmatches, fun c hc => (htells c hc).1 ▸ hmatches⟩

end Job

/-- A call that asks for a line gets the first one that is left, as long as it finds a checkpoint. -/
theorem call_answers {c : FunctionCall} {d : Dialogue} (hmatches : c.state.outside.Matches d)
    (hprompt : c.callee.isPrompt = true) (ev : Evaluator) (receiver : Value) (n : Nat) :
    match d.queue.head? with
    | none =>
      Run.call ev c.callee receiver c.arguments (c.state.allowing (n + 1)) = .ok .null (c.state.allowing n)
    | some line => ∃ m, m.outside.Matches (d.after (.asks "")) ∧
        Run.call ev c.callee receiver c.arguments (c.state.allowing (n + 1)) =
          if maxStringSize < line.utf8ByteSize then .error (.raised .stringLength) m
          else .ok (.string line) m := by
  have hcall : Run.call ev c.callee receiver c.arguments (c.state.allowing (n + 1)) =
      Run.prompt (c.state.allowing n) := by
    rw [run_call_prompt ev hprompt]
    exact run_checkpoint_succ rfl
  have hmatches : (c.state.allowing n).outside.Matches d := hmatches
  have hanswer := prompt_answers hmatches
  rw [hcall]
  cases hq : d.queue with
  | nil =>
    rw [hq] at hanswer
    exact hanswer
  | cons line rest =>
    rw [hq] at hanswer
    exact hanswer

end Script

namespace Scan

def Event.turn : Event → Turn
  | .print text => .shows (String.ofList text)
  | .slot before _ => .asks (String.ofList before)

def Event.answer? : Event → Option (Option String)
  | .print _ => none
  | .slot _ answer? => some answer?

/-- A scene after some events goes with a dialogue: its lines are left, the slots have got the answers, and what has
been shown makes the records. -/
structure Scene.Matches (s : Scene) (events : List Event) (d : Dialogue) : Prop where
  queue : s.queue = d.queue
  answers : events.filterMap Event.answer? = d.answers
  records : (events.filterMap Event.entry?).map Entry.record = d.shown.map fun text => Text.asRecord text.toList

namespace Scene.Matches

variable {g : Grammar} {s s' : Scene} {events more : List Event} {d : Dialogue}

theorem start (lines : List String) : Scene.Matches ⟨[], lines⟩ [] ⟨lines, [], []⟩ := ⟨rfl, rfl, rfl⟩

theorem store (h : s.Matches events d) (store : Store) : Scene.Matches ⟨store, s.queue⟩ (events ++ []) d := by
  rw [List.append_nil]
  exact ⟨h.queue, h.answers, h.records⟩

/-- A course goes with a dialogue if each thing on it does. -/
theorem course {α : Type} {R : Scene → α → List Event → Scene → Prop}
    (hR : ∀ {s s' a events more d}, s.Matches events d → R s a more s' →
      s'.Matches (events ++ more) (d.run (more.map Event.turn)))
    {items : List α} (h : s.Matches events d) (hcourse : Course R s items more s') :
    s'.Matches (events ++ more) (d.run (more.map Event.turn)) := by
  induction hcourse generalizing events d with
  | nil _ => exact h.store _
  | cons hhead _ ih =>
    rw [List.map_append, Dialogue.run_append, ← List.append_assoc]
    exact ih (hR h hhead)

/-- A slot asks for a line and shows it; without one only its prompt is shown, unless that is empty. -/
theorem reads {slot : Slot} (h : s.Matches events d) (hreads : Reads g s slot more s') :
    s'.Matches (events ++ more) (d.run (more.map Event.turn)) := by
  cases hreads with
  | line =>
    have hprompt : String.ofList (promptText g s.store slot) = "" ↔ promptText g s.store slot = [] := by
      rw [← String.toList_inj, String.toList_ofList, String.toList_empty]
    change Scene.Matches _ _ (d.after (.asks (String.ofList (promptText g s.store slot))))
    cases hq : s.queue with
    | nil =>
      rw [Dialogue.after_asks_nil (h.queue.symm.trans hq)]
      refine ⟨rfl, ?_, ?_⟩
      · rw [List.filterMap_append, h.answers]
        rfl
      · rw [List.filterMap_append, List.map_append, h.records, List.map_append]
        refine congrArg (_ ++ ·) ?_
        by_cases hempty : promptText g s.store slot = []
        · simp [Event.entry?, hempty]
        · simp [Event.entry?, hempty, Entry.record, Entry.shown]
    | cons line rest =>
      rw [Dialogue.after_asks_cons (h.queue.symm.trans hq)]
      refine ⟨rfl, ?_, ?_⟩
      · rw [List.filterMap_append, h.answers]
        rfl
      · rw [List.filterMap_append, List.map_append, h.records, List.map_append]
        refine congrArg (_ ++ ·) ?_
        simp [Event.entry?, Entry.record, Entry.shown]

/-- What is printed is a turn that shows it; a statement that reads goes through its slots. -/
theorem does {statement : List Char} (h : s.Matches events d) (hdoes : Does g s statement more s') :
    s'.Matches (events ++ more) (d.run (more.map Event.turn)) := by
  cases hdoes with
  | print =>
    refine ⟨h.queue, ?_, ?_⟩
    · rw [List.filterMap_append, h.answers]
      exact List.append_nil _
    · rw [List.filterMap_append, List.map_append, h.records]
      simp [Event.entry?, Event.turn, Entry.record, Entry.shown, Dialogue.run, Dialogue.after]
  | read _ _ _ _ hslots => exact h.course (R := Reads g) (fun h hreads => h.reads hreads) hslots
  | _ => exact h.store _

end Scene.Matches

end Scan

open Script Scan in
/-- Standard input is read once and in order. In a dialogue over its lines the lines handed out and those
left are all lines after any turns, the `k`-th question is answered by the `k`-th line as long as there is
one, and the line is shown behind its prompt before anything that is shown later. A run of a script is at every
moment at the dialogue of the calls that it has made, of which those that ask for a line are the questions; the
call that it makes next gets the answer of the dialogue if it asks for a line, as a string, or a range error if
the line is too long. A scan of a source is at the dialogue of the one course over its statements, of which the
slots of the statements that read are the questions; a slot gets its answer, or the empty text, as the text that
it reads its value from. -/
theorem input_is_read_in_order (stdin : String) :
    let lines := inputLines stdin
    let dialogue := Dialogue.run ⟨lines, [], []⟩
    (∀ turns,
      (dialogue turns).answers.reduceOption ++ (dialogue turns).queue = lines ∧
      (dialogue turns).answers = (List.range (dialogue turns).answers.length).map (lines[·]?) ∧
      (∀ prompt, (dialogue (turns ++ [.asks prompt])).shown = (dialogue turns).shown ++
        match lines[(dialogue turns).answers.length]? with
        | some line => [prompt ++ line]
        | none => if prompt = "" then [] else [prompt]) ∧
      ∀ later, (dialogue turns).shown <+: (dialogue (turns ++ later)).shown) ∧
    (∀ statements checkpoints n, n ≤ checkpoints →
      let j : Job := ⟨statements, stdin, checkpoints⟩
      let d := dialogue (j.turnsBefore n)
      d.answers.length = (j.callsBefore n).countP (fun c => c.callee.isPrompt) ∧
      (finalState (Run.program statements (Machine.start stdin n))).outside.Matches d ∧
      ∀ c, j.callAt? n = some c → c.state.outside.Matches d ∧
        (c.callee.isPrompt = true → dialogue (j.turnsBefore (n + 1)) = d.after (.asks "") ∧
          ∀ ev receiver k,
            let result := Run.call ev c.callee receiver c.arguments (c.state.allowing (k + 1))
            match lines[d.answers.length]? with
            | none => result = .ok .null (c.state.allowing k)
            | some line => ∃ m, m.outside.Matches (d.after (.asks "")) ∧
                result = if 2 ^ 24 < line.utf8ByteSize then .error (.raised .stringLength) m
                  else .ok (.string line) m)) ∧
    RuntimeError.stringLength.report = "RangeError: Invalid string length" ∧
    ∀ language source n,
      let g := grammarOf language
      let st := (State.start stdin).lines g ((Text.lines source).take n)
      let statements := statementsOfLines g ((Text.lines source).take n)
      ∃ events s, Course (Does g) ⟨[], lines⟩ statements events s ∧
        (∀ events' s', Course (Does g) ⟨[], lines⟩ statements events' s' → events' = events ∧ s' = s) ∧
        let d := dialogue (events.map Event.turn)
        st.store = s.store ∧ st.stdin.lines = d.queue ∧ events.filterMap Event.answer? = d.answers ∧
          st.records = (d.shown.map fun text => Text.asRecord text.toList).reverse := by
  intro lines dialogue
  have hfollows (turns : List Turn) : Dialogue.Follows lines (dialogue turns) :=
    (Dialogue.follows_start lines).run turns
  have hsnoc (turns : List Turn) (prompt : String) :
      dialogue (turns ++ [.asks prompt]) = (dialogue turns).after (.asks prompt) :=
    Dialogue.run_append _ _ _
  refine ⟨fun turns => ⟨(hfollows turns).reduceOption_append, (hfollows turns).answered, ?_, ?_⟩, ?_, rfl, ?_⟩
  · intro prompt
    rw [hsnoc]
    exact (hfollows turns).shown_asks prompt
  · intro later
    rw [show dialogue (turns ++ later) = (dialogue turns).run later from Dialogue.run_append _ _ _]
    exact Dialogue.shown_run _ later
  · intro statements checkpoints n hn j d
    obtain ⟨hrun, hcalls⟩ := Job.matches_dialogue (j := j) hn
    refine ⟨?_, hrun, fun c hc => ⟨hcalls c hc, fun hprompt => ⟨?_, fun ev receiver k => ?_⟩⟩⟩
    · have hlength := length_answers (j.callsBefore n) ⟨lines, [], []⟩
      rwa [List.length_nil, Nat.zero_add] at hlength
    · rw [Job.turnsBefore_succ hc (FunctionCall.command?_of_isPrompt hprompt)]
      exact hsnoc _ ""
    · dsimp only
      rw [← (hfollows (j.turnsBefore n)).head?]
      exact call_answers (hcalls c hc) hprompt ev receiver k
  · intro language source n g st statements
    -- The course is unique, so what holds of it holds of every course of the source.
    obtain ⟨events, s, hcourse⟩ := exists_course g stdin ((Text.lines source).take n)
    have hshows := shows_of_course hcourse
    have hmatches := (Scene.Matches.start lines).course (R := Does g) (fun h hdoes => h.does hdoes) hcourse
    refine ⟨events, s, hcourse, fun events' s' h => course_unique h hcourse, hshows.store, ?_, ?_, ?_⟩
    · exact hshows.queue.trans hmatches.queue
    · exact hmatches.answers
    · rw [hshows.records]
      exact congrArg List.reverse hmatches.records

end Snippet
