import Mathlib.Algebra.Ring.Nat
import Mathlib.Data.List.DropRight
import Mathlib.Data.List.ReduceOption
import Snippet.Proofs.Timeout
import Snippet.Scan.Scanner

/-!
Standard input is read once and in order. What a run shows and what it asks for are the turns of a dialogue:
when a line is asked for, the first line that is left is handed out and shown behind its prompt. Whatever
turns are taken, no line is lost, repeated or moved.
-/

namespace Snippet

/-- The lines of a text: the parts between its newlines, without the carriage returns at their ends. A last
part that is empty is no line. -/
def inputLines (text : String) : List String :=
  let parts := text.toList.splitOn '\n'
  let parts := if parts.getLast? = some [] then parts.dropLast else parts
  parts.map fun part => String.ofList (part.rdropWhile (· == '\r'))

namespace Text

/-- Cutting a text at its newlines from left to right is splitting it there. -/
theorem splitNewlinesAfter_eq (done : List (List Char)) (current s : List Char) :
    splitNewlinesAfter done current s =
      done.reverse ++ s.splitOnPPrepend (· == '\n') current := by
  induction s generalizing done current with
  | nil => simp [splitNewlinesAfter]
  | cons c s ih =>
    by_cases hc : c = '\n'
    · subst hc
      rw [splitNewlinesAfter, ih, List.splitOnPPrepend_cons_pos (by rfl), List.reverse_cons,
        List.append_assoc]
      rfl
    · have hsplit : splitNewlinesAfter done current (c :: s) = splitNewlinesAfter done (c :: current) s := by
        rw [splitNewlinesAfter]
        exact hc
      rw [hsplit, ih, List.splitOnPPrepend_cons_neg (by simpa using hc)]

theorem splitNewlines_eq (s : List Char) : splitNewlines s = s.splitOn '\n' :=
  splitNewlinesAfter_eq [] [] s

end Text

namespace Stdin

/-- The one carriage return that belongs to the end of a line is one of those that are removed. -/
theorem cleanLine_dropCarriageReturn (line : List Char) :
    cleanLine (Text.dropCarriageReturn line) = cleanLine line := by
  unfold Text.dropCarriageReturn
  split
  · rename_i rest hrest
    unfold cleanLine Text.dropEndWhile
    rw [hrest, List.reverse_reverse]
    rfl
  · rfl

/-- Only the last part may be no line, and the carriage returns at the ends are gone either way. -/
theorem cleanLine_linesOfParts (parts : List (List Char)) :
    (Text.linesOfParts parts).map cleanLine =
      (if parts.getLast? = some [] then parts.dropLast else parts).map cleanLine := by
  induction parts with
  | nil => rfl
  | cons part rest ih =>
    cases rest with
    | nil =>
      cases part with
      | nil => rfl
      | cons c part => rfl
    | cons next rest =>
      -- Only the last part may be left out, which is none with another one behind it.
      rw [Text.linesOfParts, List.map_cons, ih, cleanLine_dropCarriageReturn, List.getLast?_cons_cons]
      · split <;> rfl
      · simp

/-- The lines of the standard input are the lines of its text. -/
theorem ofText_lines (text : String) : (ofText text).lines = inputLines text := by
  change (Text.linesOfParts (Text.splitNewlines text.toList)).map cleanLine = _
  rw [cleanLine_linesOfParts, Text.splitNewlines_eq]
  rfl

end Stdin

inductive Turn where
  | shows (text : String)
  | asks (prompt : String)

/-- A dialogue over some lines: the lines that are left, what has been answered, and what has been shown. -/
structure Dialogue where
  queue : List String
  answers : List (Option String) := []
  shown : List String := []

namespace Dialogue

/-- The dialogue after a turn. A prompt that is not answered is shown unless it is empty. -/
def after (d : Dialogue) : Turn → Dialogue
  | .shows text => { d with shown := d.shown ++ [text] }
  | .asks prompt =>
    match d.queue with
    | line :: rest => ⟨rest, d.answers ++ [some line], d.shown ++ [prompt ++ line]⟩
    | [] => ⟨[], d.answers ++ [none], d.shown ++ if prompt = "" then [] else [prompt]⟩

theorem after_asks_cons {d : Dialogue} {line : String} {rest : List String}
    (h : d.queue = line :: rest) (prompt : String) :
    d.after (.asks prompt) = ⟨rest, d.answers ++ [some line], d.shown ++ [prompt ++ line]⟩ := by
  unfold after
  rw [h]

theorem after_asks_nil {d : Dialogue} (h : d.queue = []) (prompt : String) :
    d.after (.asks prompt) =
      ⟨[], d.answers ++ [none], d.shown ++ if prompt = "" then [] else [prompt]⟩ := by
  unfold after
  rw [h]

def run (d : Dialogue) (turns : List Turn) : Dialogue := turns.foldl after d

theorem run_append (d : Dialogue) (turns turns' : List Turn) :
    d.run (turns ++ turns') = (d.run turns).run turns' :=
  List.foldl_append

variable {lines : List String} {d : Dialogue}

structure Follows (lines : List String) (d : Dialogue) : Prop where
  -- As many questions have been answered as there are answers: in order, as long as lines were
  -- left.
  left : d.queue = lines.drop d.answers.length
  answered : d.answers = (List.range d.answers.length).map (lines[·]?)

theorem follows_start (lines : List String) : Follows lines ⟨lines, [], []⟩ := ⟨rfl, rfl⟩

/-- What is answered to the next question. -/
theorem Follows.head? (h : Follows lines d) : d.queue.head? = lines[d.answers.length]? := by
  rw [h.left, List.head?_drop]

/-- A turn that asks is answered by the line at the place of the question, if there is one. -/
theorem Follows.after (h : Follows lines d) (turn : Turn) : Follows lines (d.after turn) := by
  cases turn with
  | shows text => exact ⟨h.left, h.answered⟩
  | asks prompt =>
    have hhead := h.head?
    have hleft := h.left
    -- The next answer is the first line that is left, or none, and so is the line at its place.
    have hrange : (List.range (d.answers.length + 1)).map (lines[·]?) =
        d.answers ++ [lines[d.answers.length]?] := by
      rw [List.range_succ, List.map_append, ← h.answered]
      rfl
    have hdrop : lines.drop (d.answers.length + 1) = d.queue.tail := by
      rw [h.left, List.tail_drop]
    cases hq : d.queue with
    | nil =>
      rw [hq] at hhead hdrop
      rw [after_asks_nil hq]
      constructor
      · simpa using hdrop
      · simpa [← hhead] using hrange.symm
    | cons line rest =>
      rw [hq] at hhead hdrop
      rw [after_asks_cons hq]
      constructor
      · simpa using hdrop.symm
      · simpa [← hhead] using hrange.symm

/-- The order of the lines is kept through any turns. -/
theorem Follows.run (h : Follows lines d) (turns : List Turn) : Follows lines (d.run turns) := by
  induction turns generalizing d with
  | nil => exact h
  | cons turn turns ih => exact ih (h.after turn)

/-- The lines handed out, and then those that are left, are all lines. -/
theorem Follows.reduceOption_append (h : Follows lines d) :
    d.answers.reduceOption ++ d.queue = lines := by
  have htaken (k : Nat) : ((List.range k).map (lines[·]?)).reduceOption = lines.take k := by
    induction k with
    | zero => rfl
    | succ k ih =>
      rw [List.range_succ, List.map_append, List.reduceOption_append, ih, List.take_add_one]
      cases hk : lines[k]? <;> simp [List.reduceOption, hk]
  rw [h.answered, htaken, h.left, List.take_append_drop]

theorem shown_after (d : Dialogue) (turn : Turn) : d.shown <+: (d.after turn).shown := by
  unfold after
  split
  · exact List.prefix_append _ _
  · split <;> exact List.prefix_append _ _

/-- What has been shown stays in front of what is shown later. -/
theorem shown_run (d : Dialogue) (turns : List Turn) : d.shown <+: (d.run turns).shown := by
  induction turns generalizing d with
  | nil => exact List.prefix_rfl
  | cons turn turns ih => exact (d.shown_after turn).trans (ih (d.after turn))

/-- A line that is handed out is shown at once, behind its prompt. -/
theorem Follows.shown_asks (h : Follows lines d) (prompt : String) :
    (d.after (.asks prompt)).shown = d.shown ++
      match lines[d.answers.length]? with
      | some line => [prompt ++ line]
      | none => if prompt = "" then [] else [prompt] := by
  rw [← h.head?]
  cases hq : d.queue with
  | nil =>
    rw [after_asks_nil hq]
    rfl
  | cons line rest =>
    rw [after_asks_cons hq]
    rfl

end Dialogue

namespace Script

/-- The turns that a command comes to. The prompts of a script are empty. -/
def Command.turns : Command → List Turn
  | .print _ line => [.shows line]
  | .prompt => [.asks ""]
  | _ => []

namespace Outside

/-- What is around a store goes with a dialogue: its lines are left, and the transcript was made of what it
has shown. -/
structure Matches (o : Outside) (d : Dialogue) : Prop where
  stdin : o.stdin.lines = d.queue
  transcript : o.transcript = d.shown.foldl Transcript.pushLine {}

/-- A command does to the state what its turns do to the dialogue. -/
theorem Matches.after {o : Outside} {d : Dialogue} (h : o.Matches d) (c : Command) :
    (o.after c).Matches (d.run c.turns) := by
  cases c with
  | print channel line =>
    refine ⟨h.stdin, ?_⟩
    change o.transcript.pushLine line = (d.shown ++ [line]).foldl Transcript.pushLine {}
    rw [List.foldl_append, ← h.transcript]
    rfl
  | prompt =>
    change o.afterPrompt.Matches (d.after (.asks ""))
    cases hlines : o.stdin.lines with
    | nil =>
      rw [afterPrompt_nil hlines, Dialogue.after_asks_nil (h.stdin.symm.trans hlines)]
      refine ⟨hlines, ?_⟩
      rw [if_pos rfl, List.append_nil]
      exact h.transcript
    | cons line rest =>
      rw [afterPrompt_cons hlines, Dialogue.after_asks_cons (h.stdin.symm.trans hlines)]
      refine ⟨rfl, ?_⟩
      change o.transcript.pushLine line = (d.shown ++ ["" ++ line]).foldl Transcript.pushLine {}
      rw [List.foldl_append, ← h.transcript, String.empty_append]
      rfl
  | _ => exact ⟨h.stdin, h.transcript⟩

theorem Matches.run {o : Outside} {d : Dialogue} (h : o.Matches d) (history : List Command) :
    (o.run history).Matches (d.run (history.flatMap Command.turns)) := by
  induction history generalizing o d with
  | nil => exact h
  | cons c history ih =>
    rw [List.flatMap_cons, Dialogue.run_append]
    exact ih (h.after c)

end Outside

theorem start_matches (stdin : String) (n : Nat) :
    (Machine.start stdin n).outside.Matches ⟨inputLines stdin, [], []⟩ :=
  ⟨Stdin.ofText_lines stdin, rfl⟩

/-- A script that asks for a line gets the first one that is left, unless it is too long for a string. -/
theorem prompt_answers {m : Machine} {d : Dialogue} (h : m.outside.Matches d) :
    match d.queue with
    | [] => Run.prompt m = .ok .null m
    | line :: _ => ∃ m', m'.outside.Matches (d.after (.asks "")) ∧
        Run.prompt m =
          if maxStringSize < line.utf8ByteSize then .error (.raised .stringLength) m'
          else .ok (.string line) m' := by
  have hlines : m.stdin.lines = d.queue := h.stdin
  cases hq : d.queue with
  | nil => exact run_prompt_nil (hlines.trans hq)
  | cons line rest =>
    have hmatches : m.prompted.outside.Matches (d.after (.asks "")) := h.after .prompt
    have hprompt := run_prompt_cons (hlines.trans hq)
    by_cases hlong : maxStringSize < line.utf8ByteSize
    · refine ⟨m.prompted, hmatches, ?_⟩
      rw [hprompt, if_pos hlong]
      unfold Run.makeString
      rw [if_pos hlong]
      rfl
    · refine ⟨{ m.prompted with charged := m.prompted.charged + line.utf8ByteSize }, hmatches, ?_⟩
      rw [hprompt, if_neg hlong]
      unfold Run.makeString
      rw [if_neg hlong]
      rfl

end Script

namespace Scan.State

def asked (st : State) (prompt : List Char) : State :=
  match st.stdin.lines with
  | line :: rest => ({ st with stdin := ⟨rest⟩ } : State).emit (prompt ++ line.toList)
  | [] => if prompt.isEmpty then st else st.emit prompt

/-- A slot asks for its line, and its variable gets what the answer is read as. -/
theorem fill_eq (st : State) (g : Grammar) (slot : Slot) :
    st.fill g slot =
      { st.asked (promptText g st.store slot) with
        store :=
          match slot.name with
          | some name =>
            st.store.put name (convert g.style (st.stdin.lines.head?.getD "").toList slot.conversion)
          | none => st.store } := by
  obtain ⟨name, prompt, conversion⟩ := slot
  unfold State.fill asked Stdin.pop
  cases st.stdin.lines with
  | nil =>
    -- An empty prompt is not shown, whether or not there is a variable.
    cases name with
    | none =>
      dsimp only
      split <;> rfl
    | some name =>
      dsimp only
      split <;> rfl
  | cons line rest => cases name <;> rfl

end Scan.State

end Snippet
