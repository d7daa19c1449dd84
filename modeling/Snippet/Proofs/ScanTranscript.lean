import Snippet.Proofs.InputLines

/-!
The transcript of a scan. A scan is described as a course over the statements of its lines that knows nothing of a
transcript: each statement makes some entries, which depend on what is known of the variables and on the input that is
left. The transcript is made of one record for each entry, in their order, and a scan that runs out of time shows what
the scan of the lines before shows.
-/

namespace Snippet

namespace Text

theorem lines_append {x : List Char} (hx : '\n' ∉ x) (y : List Char) :
    lines (x ++ '\n' :: y) = dropCarriageReturn x :: lines y := by
  unfold lines
  rw [splitNewlines_eq, splitNewlines_eq, List.splitOn_append_cons_self_of_not_mem hx]
  obtain ⟨part, parts, hparts⟩ := List.exists_cons_of_ne_nil (List.splitOn_ne_nil '\n' y)
  rw [hparts, linesOfParts]
  exact List.cons_ne_nil _ _

theorem length_lines_le {x : List Char} (hx : '\n' ∉ x) : (lines x).length ≤ 1 := by
  unfold lines
  rw [splitNewlines_eq, List.splitOn_eq_singleton hx, linesOfParts]
  split <;> simp

/-- The first lines of a text are the lines of a text that it begins with. -/
theorem exists_prefix_lines (x : List Char) (n : Nat) : ∃ front, front <+: x ∧ lines front = (lines x).take n := by
  induction n generalizing x with
  | zero => exact ⟨[], List.nil_prefix, rfl⟩
  | succ n ih =>
    by_cases hnewline : '\n' ∈ x
    · obtain ⟨line, rest, rfl, hline⟩ := List.eq_append_cons_of_mem hnewline
      obtain ⟨front, hfront, hlines⟩ := ih rest
      refine ⟨line ++ '\n' :: front, ?_, ?_⟩
      · exact (List.prefix_append_right_inj line).mpr (List.cons_prefix_cons.mpr ⟨rfl, hfront⟩)
      · rw [lines_append hline, lines_append hline, List.take_succ_cons, hlines]
    · refine ⟨x, List.prefix_rfl, (List.take_of_length_le ?_).symm⟩
      exact (length_lines_le hnewline).trans (Nat.le_add_left 1 n)

end Text

namespace Scan

inductive Entry where
  /-- A print whose arguments are known. -/
  | print (text : List Char)
  /-- A line of the input, behind its prompt. -/
  | line (before text : List Char)
  /-- A prompt with no line left. -/
  | prompt (text : List Char)
deriving DecidableEq

def Entry.shown : Entry → List Char
  | .print text => text
  | .line before text => before ++ text
  | .prompt text => text

def Entry.record (e : Entry) : List Char := Text.asRecord e.shown

/-- What a statement does in turn: it prints what is known, or asks for a line behind a prompt and gets one if one is
left. -/
inductive Event where
  | print (text : List Char)
  | slot (before : List Char) (answer? : Option String)

/-- What an event puts into the transcript. A prompt that is not answered is shown unless it is empty. -/
def Event.entry? : Event → Option Entry
  | .print text => some (.print text)
  | .slot before (some line) => some (.line before line.toList)
  | .slot before none => if before = [] then none else some (.prompt before)

/-- What the statements of a scan depend on: the variables that are known and the input that is left. -/
structure Scene where
  store : Store
  queue : List String

inductive Course {α : Type} (R : Scene → α → List Event → Scene → Prop) : Scene → List α → List Event → Scene → Prop
  | nil (s : Scene) : Course R s [] [] s
  | cons {s s' s'' : Scene} {a : α} {items : List α} {events more : List Event} (hhead : R s a events s')
      (htail : Course R s' items more s'') : Course R s (a :: items) (events ++ more) s''

def filled (g : Grammar) (store : Store) (slot : Slot) (line : String) : Store :=
  match slot.name with
  | some name => store.put name (convert g.style line.toList slot.conversion)
  | none => store

inductive Reads (g : Grammar) : Scene → Slot → List Event → Scene → Prop
  -- What a slot does: it asks for a line behind its prompt, takes the first one that is left, and
  -- gets the empty text if there is none.
  | line (s : Scene) (slot : Slot) :
      Reads g s slot [.slot (promptText g s.store slot) s.queue.head?]
        ⟨filled g s.store slot (s.queue.head?.getD ""), s.queue.tail⟩

def Grammar.Heeds (g : Grammar) (statement : List Char) : Prop :=
  statement ≠ [] ∧ ¬ g.skip.occursIn statement = true

def assigned? (g : Grammar) (store : Store) (statement : List Char) : Option Store :=
  (g.assignment.search? statement).bind fun m =>
    (resolve? g.style store ((m.get? "value").getD [])).map fun value =>
      store.put ((m.get? "name").getD []) (typed g (m.get? "type") value)

def forgotten (g : Grammar) (store : Store) (statement : List Char) : Store :=
  match g.assignment.search? statement with
  | some m => store.forget ((m.get? "name").getD [])
  | none => store

/-- What a statement does: a print that is known is shown, an assignment gives a variable its value if that is known,
and a statement that reads fills its slots. -/
inductive Does (g : Grammar) : Scene → List Char → List Event → Scene → Prop
  | nothing {s : Scene} {statement : List Char} (h : ¬ g.Heeds statement) : Does g s statement [] s
  | print {s : Scene} {statement text : List Char} {rule : PrintRule} {m : Pattern.Match} (h : g.Heeds statement)
      (hrule : firstPrint? statement g.prints = some (rule, m)) (htext : printed? g s.store rule m = some text) :
      Does g s statement [.print text] s
  | unknown {s : Scene} {statement : List Char} {rule : PrintRule} {m : Pattern.Match} (h : g.Heeds statement)
      (hrule : firstPrint? statement g.prints = some (rule, m)) (htext : printed? g s.store rule m = none) :
      Does g s statement [] s
  | assign {s : Scene} {statement : List Char} {store : Store} (h : g.Heeds statement)
      (hprint : firstPrint? statement g.prints = none) (hstore : assigned? g s.store statement = some store) :
      Does g s statement [] ⟨store, s.queue⟩
  | read {s s' : Scene} {statement : List Char} {rule : InputRule} {m : Pattern.Match} {events : List Event}
      (h : g.Heeds statement) (hprint : firstPrint? statement g.prints = none)
      (hstore : assigned? g s.store statement = none) (hrule : firstInput? statement g.inputs = some (rule, m))
      (hslots : Course (Reads g) s (rule.slots m) events s') : Does g s statement events s'
  | other {s : Scene} {statement : List Char} (h : g.Heeds statement)
      (hprint : firstPrint? statement g.prints = none) (hstore : assigned? g s.store statement = none)
      (hrule : firstInput? statement g.inputs = none) :
      Does g s statement [] ⟨forgotten g s.store statement, s.queue⟩

section Courses

variable {α : Type} {R : Scene → α → List Event → Scene → Prop} {s s' s'' : Scene} {items items' : List α}
  {events events' : List Event}

namespace Course

theorem append (h : Course R s items events s') (h' : Course R s' items' events' s'') :
    Course R s (items ++ items') (events ++ events') s'' := by
  induction h with
  | nil _ => exact h'
  | cons hhead _ ih =>
    rw [List.append_assoc]
    exact .cons hhead (ih h')

theorem exists_course (hR : ∀ s a, ∃ events s', R s a events s') (s : Scene) (items : List α) :
    ∃ events s', Course R s items events s' := by
  induction items generalizing s with
  | nil => exact ⟨[], s, .nil s⟩
  | cons a items ih =>
    obtain ⟨events, s', hhead⟩ := hR s a
    obtain ⟨more, s'', htail⟩ := ih s'
    exact ⟨events ++ more, s'', .cons hhead htail⟩

/-- Where every thing does one thing only there is one course. -/
theorem unique
    (hR : ∀ {s a events events' s' s''}, R s a events s' → R s a events' s'' → events = events' ∧ s' = s'')
    (h : Course R s items events s') (h' : Course R s items events' s'') : events = events' ∧ s' = s'' := by
  induction h generalizing events' with
  | nil _ =>
    cases h'
    exact ⟨rfl, rfl⟩
  | cons hhead _ ih =>
    cases h' with
    | cons hhead' htail' =>
      obtain ⟨rfl, rfl⟩ := hR hhead hhead'
      obtain ⟨rfl, rfl⟩ := ih htail'
      exact ⟨rfl, rfl⟩

end Course

end Courses

section Statements

variable {g : Grammar} {s s' s'' : Scene} {slot : Slot} {statement : List Char} {events events' : List Event}

theorem exists_reads (g : Grammar) (s : Scene) (slot : Slot) : ∃ events s', Reads g s slot events s' :=
  ⟨_, _, .line s slot⟩

theorem Reads.unique (h : Reads g s slot events s') (h' : Reads g s slot events' s'') :
    events = events' ∧ s' = s'' := by
  cases h
  cases h'
  exact ⟨rfl, rfl⟩

/-- For every statement there is a course: what it tells and what it leaves known. -/
theorem exists_does (g : Grammar) (s : Scene) (statement : List Char) :
    ∃ events s', Does g s statement events s' := by
  by_cases h : g.Heeds statement
  · cases hprint : firstPrint? statement g.prints with
    | some found =>
      cases htext : printed? g s.store found.1 found.2 with
      | some text => exact ⟨_, _, .print h hprint htext⟩
      | none => exact ⟨_, _, .unknown h hprint htext⟩
    | none =>
      cases hstore : assigned? g s.store statement with
      | some store => exact ⟨_, _, .assign h hprint hstore⟩
      | none =>
        cases hrule : firstInput? statement g.inputs with
        | some found =>
          obtain ⟨events, s', hslots⟩ := Course.exists_course (exists_reads g) s (found.1.slots found.2)
          exact ⟨events, s', .read h hprint hstore hrule hslots⟩
        | none => exact ⟨_, _, .other h hprint hstore hrule⟩
  · exact ⟨_, _, .nothing h⟩

/-- No two rules apply to one statement. -/
theorem Does.unique (h : Does g s statement events s') (h' : Does g s statement events' s'') :
    events = events' ∧ s' = s'' := by
  cases h with
  | nothing h =>
    cases h' with
    | nothing => exact ⟨rfl, rfl⟩
    | _ => contradiction
  | read h hprint hstore hrule hslots =>
    cases h' with
    | read _ _ _ hrule' hslots' =>
      rw [hrule] at hrule'
      cases hrule'
      exact Course.unique (R := Reads g) Reads.unique hslots hslots'
    | _ => simp_all
  -- Any other two rules ask for different outcomes of one and the same search.
  | _ => cases h' <;> simp_all

end Statements

structure State.Shows (st : State) (s : Scene) (events : List Event) : Prop where
  store : st.store = s.store
  queue : st.stdin.lines = s.queue
  records : st.records = ((events.filterMap Event.entry?).map Entry.record).reverse

namespace State.Shows

variable {g : Grammar} {st : State} {s s' : Scene} {events more : List Event}

theorem emit (h : st.Shows s events) (event : Event) {e : Entry} (he : event.entry? = some e) :
    (st.emit e.shown).Shows s (events ++ [event]) where
  store := h.store
  queue := h.queue
  records := by
    rw [List.filterMap_append, List.filterMap_cons_some he, List.map_append, List.reverse_append, ← h.records]
    rfl

theorem silent (h : st.Shows s events) (event : Event) (he : event.entry? = none) :
    st.Shows s (events ++ [event]) where
  store := h.store
  queue := h.queue
  records := by
    rw [List.filterMap_append, List.filterMap_cons_none he, List.filterMap_nil, List.append_nil]
    exact h.records

/-- What a step shows is shown by all steps one after the other. -/
theorem course {α : Type} {R : Scene → α → List Event → Scene → Prop} {f : State → α → State}
    (hf : ∀ {st : State} {s s' : Scene} {a : α} {events more : List Event}, st.Shows s events → R s a more s' →
      (f st a).Shows s' (events ++ more))
    {items : List α} (h : st.Shows s events) (hcourse : Course R s items more s') :
    (items.foldl f st).Shows s' (events ++ more) := by
  induction hcourse generalizing st events with
  | nil _ =>
    rw [List.append_nil]
    exact h
  | cons hhead _ ih =>
    rw [← List.append_assoc]
    exact ih (hf h hhead)

/-- A slot that is filled shows what the course has for it, behind all that was shown before. -/
theorem fill {slot : Slot} (h : st.Shows s events) (hreads : Reads g s slot more s') :
    (st.fill g slot).Shows s' (events ++ more) := by
  have hqueue := h.queue
  rw [State.fill_eq, State.asked, h.store]
  cases hreads with
  | line =>
    cases hq : s.queue with
    | cons line rest =>
      have hemit := (h.emit (.slot (promptText g s.store slot) (some line)) rfl).records
      rw [hqueue, hq]
      exact ⟨rfl, rfl, hemit⟩
    | nil =>
      rw [hqueue, hq]
      dsimp only
      by_cases hprompt : promptText g s.store slot = []
      · have hsilent := (h.silent (.slot (promptText g s.store slot) none) (if_pos hprompt)).records
        rw [if_pos (List.isEmpty_iff.mpr hprompt)]
        exact ⟨rfl, hqueue.trans hq, hsilent⟩
      · have hemit := (h.emit (.slot (promptText g s.store slot) none) (if_neg hprompt)).records
        rw [if_neg fun hempty => hprompt (List.isEmpty_iff.mp hempty)]
        exact ⟨rfl, hqueue.trans hq, hemit⟩

theorem assign?_eq (g : Grammar) (st : State) (statement : List Char) :
    assign? g st statement = (assigned? g st.store statement).map fun store => { st with store } := by
  unfold assign? assigned?
  cases g.assignment.search? statement with
  | none => rfl
  | some m =>
    rw [Option.bind_some, Option.bind_some, Option.map_map]
    rfl

theorem passOver_eq (g : Grammar) (st : State) (statement : List Char) :
    st.passOver g statement = { st with store := forgotten g st.store statement } := by
  unfold State.passOver forgotten
  cases g.assignment.search? statement <;> rfl

/-- Scanning a statement shows what its course tells, behind all that was shown before. -/
theorem statement {statement : List Char} (h : st.Shows s events) (hdoes : Does g s statement more s') :
    (State.statement g st statement).Shows s' (events ++ more) := by
  have hheeds : g.Heeds statement ↔ ¬ (statement.isEmpty || g.skip.occursIn statement) = true := by
    rw [Bool.or_eq_true, not_or, List.isEmpty_iff]
    rfl
  unfold State.statement
  -- The kinds of a statement are tried in the order of the scanner.
  cases hdoes with
  | nothing hnot =>
    rw [if_pos (not_not.mp fun hgoes => hnot (hheeds.mpr hgoes)), List.append_nil]
    exact h
  | @print _ text _ _ hgoes hrule htext =>
    rw [if_neg (hheeds.mp hgoes), print?, hrule, Option.map_some, h.store]
    dsimp only
    rw [htext]
    exact h.emit (.print text) rfl
  | unknown hgoes hrule htext =>
    rw [if_neg (hheeds.mp hgoes), print?, hrule, Option.map_some, h.store]
    dsimp only
    rw [htext, List.append_nil]
    exact h
  | assign hgoes hprint hstore =>
    rw [if_neg (hheeds.mp hgoes), print?, hprint, assign?_eq, h.store, hstore, List.append_nil]
    exact ⟨rfl, h.queue, h.records⟩
  | read hgoes hprint hstore hrule hslots =>
    rw [if_neg (hheeds.mp hgoes), print?, hprint, assign?_eq, h.store, hstore, input?, hrule]
    exact h.course (R := Reads g) (fun h hreads => h.fill hreads) hslots
  | other hgoes hprint hstore hrule =>
    rw [if_neg (hheeds.mp hgoes), print?, hprint, assign?_eq, h.store, hstore, input?, hrule, passOver_eq, h.store,
      List.append_nil]
    exact ⟨rfl, h.queue, h.records⟩

theorem start (stdin : String) : (State.start stdin).Shows ⟨[], inputLines stdin⟩ [] :=
  ⟨rfl, Stdin.ofText_lines stdin, rfl⟩

theorem transcript_eq (h : st.Shows s events) :
    st.transcript = (events.filterMap Event.entry?).flatMap Entry.record := by
  rw [State.transcript, h.records, List.reverse_reverse, List.flatMap_def]

end State.Shows

def statementsOfLines (g : Grammar) (lines : List (List Char)) : List (List Char) := lines.flatMap (statementsOf g)

def Makes (g : Grammar) (stdin : String) (lines : List (List Char)) (entries : List Entry) : Prop :=
  ∃ events s, Course (Does g) ⟨[], inputLines stdin⟩ (statementsOfLines g lines) events s ∧
    events.filterMap Event.entry? = entries

section Lines

variable {g : Grammar} {stdin : String} {lines more : List (List Char)} {entries entries' : List Entry}
variable {events events' : List Event} {s s' : Scene}

theorem exists_course (g : Grammar) (stdin : String) (lines : List (List Char)) :
    ∃ events s, Course (Does g) ⟨[], inputLines stdin⟩ (statementsOfLines g lines) events s :=
  Course.exists_course (exists_does g) _ _

/-- A scan takes one course only. -/
theorem course_unique {start : Scene} {statements : List (List Char)}
    (h : Course (Does g) start statements events s) (h' : Course (Does g) start statements events' s') :
    events = events' ∧ s = s' :=
  Course.unique (R := Does g) Does.unique h h'

/-- The records of a scan are those of the entries on its course. -/
theorem shows_of_course (h : Course (Does g) ⟨[], inputLines stdin⟩ (statementsOfLines g lines) events s) :
    ((State.start stdin).lines g lines).Shows s events := by
  have hstatements : (State.start stdin).lines g lines =
      (statementsOfLines g lines).foldl (State.statement g) (State.start stdin) := by
    unfold statementsOfLines
    rw [List.foldl_flatMap]
    rfl
  rw [hstatements]
  exact (State.Shows.start stdin).course (R := Does g) (fun h hdoes => h.statement hdoes) h

theorem exists_makes (g : Grammar) (stdin : String) (lines : List (List Char)) :
    ∃ entries, Makes g stdin lines entries := by
  obtain ⟨events, s, hcourse⟩ := exists_course g stdin lines
  exact ⟨_, events, s, hcourse, rfl⟩

theorem Makes.unique (h : Makes g stdin lines entries) (h' : Makes g stdin lines entries') : entries = entries' := by
  obtain ⟨events, s, hcourse, rfl⟩ := h
  obtain ⟨events', s', hcourse', rfl⟩ := h'
  rw [(course_unique hcourse hcourse').1]

/-- What the first lines make comes first in what all lines make. -/
theorem Makes.isPrefix (h : Makes g stdin lines entries) (h' : Makes g stdin (lines ++ more) entries') :
    entries <+: entries' := by
  obtain ⟨events, s, hcourse, rfl⟩ := h
  obtain ⟨later, s', hlater⟩ := Course.exists_course (exists_does g) s (statementsOfLines g more)
  have hboth : Makes g stdin (lines ++ more) ((events ++ later).filterMap Event.entry?) := by
    refine ⟨events ++ later, s', ?_, rfl⟩
    unfold statementsOfLines
    rw [List.flatMap_append]
    exact hcourse.append hlater
  rw [h'.unique hboth, List.filterMap_append]
  exact List.prefix_append _ _

/-- The records of a scan are those of the entries that its lines make. -/
theorem Makes.shows (h : Makes g stdin lines entries) :
    ∃ events s, ((State.start stdin).lines g lines).Shows s events ∧ events.filterMap Event.entry? = entries := by
  obtain ⟨events, s, hcourse, hentries⟩ := h
  exact ⟨events, s, shows_of_course hcourse, hentries⟩

end Lines

/-- Every record has a newline at its end, so there is no transcript exactly if there is no entry. -/
theorem transcript_eq_nil_iff (entries : List Entry) : entries.flatMap Entry.record = [] ↔ entries = [] := by
  constructor
  · intro h
    cases entries with
    | nil => rfl
    | cons e entries =>
      rw [List.flatMap_cons] at h
      exact absurd (List.append_eq_nil_iff.mp h).1 (List.append_ne_nil_of_right_ne_nil _ (List.cons_ne_nil _ _))
  · rintro rfl
    rfl

/-- The warning of a source is that of the entry point of its language if this occurs nowhere. -/
theorem warning?_eq (g : Grammar) (text : List Char) :
    warning? g text = (g.entryPoint.filter fun e => !e.pattern.occursIn text).map fun e => e.warning := by
  unfold warning?
  cases g.entryPoint with
  | none => rfl
  | some e =>
    rw [Option.bind_some, Option.filter_some]
    cases e.pattern.occursIn text <;> rfl

section Draft

variable {g : Grammar} {source stdin : String} {allowance : Nat} {entries : List Entry}
  (h : Makes g stdin ((Text.lines source.toList).take allowance) entries) (timeout : String)

include h

/-- A scan that comes to its end puts out its transcript, or that there is no output. -/
theorem Makes.draft_of_le (htime : (Text.lines source.toList).length ≤ allowance) :
    (scanWithin g source stdin allowance timeout).output =
        some (if entries = [] then noOutput g source.toList else String.ofList (entries.flatMap Entry.record)) ∧
      (scanWithin g source stdin allowance timeout).error = warning? g source.toList ∧
      (scanWithin g source stdin allowance timeout).status = some Status.success := by
  obtain ⟨events, s, hshows, rfl⟩ := h.shows
  have hempty : ((State.start stdin).lines g ((Text.lines source.toList).take allowance)).records.isEmpty = true ↔
      events.filterMap Event.entry? = [] := by
    rw [hshows.records, List.isEmpty_iff, List.reverse_eq_nil_iff, List.map_eq_nil_iff]
  have hend : ¬ allowance < (Text.lines source.toList).length := Nat.not_lt.mpr htime
  unfold scanWithin
  dsimp only
  rw [hshows.transcript_eq, if_neg (by simpa using hend)]
  simp [hend, hempty]

/-- A scan that runs out of time puts out its transcript, whether there is one or not. -/
theorem Makes.draft_of_lt (htime : allowance < (Text.lines source.toList).length) :
    (scanWithin g source stdin allowance timeout).output = some (String.ofList (entries.flatMap Entry.record)) ∧
      (scanWithin g source stdin allowance timeout).status = some Status.codeError ∧
      (scanWithin g source stdin allowance timeout).error = some
        (match g.entryPoint.filter fun e => !e.pattern.occursIn source.toList with
        | some e => e.warning ++ "\n" ++ timeout
        | none => timeout) := by
  obtain ⟨events, s, hshows, rfl⟩ := h.shows
  unfold scanWithin
  dsimp only
  rw [hshows.transcript_eq, warning?_eq]
  simp only [htime, decide_true, if_true, Bool.not_true, Bool.and_false]
  cases g.entryPoint.filter fun e => !e.pattern.occursIn source.toList <;> simp [Draft.fail]

/-- The entries of the lines that a scan comes to are what a source shows that consists of these lines only. -/
theorem Makes.exists_front :
    ∃ front, front <+: source.toList ∧ Text.lines front = (Text.lines source.toList).take allowance ∧
      ∀ longer, allowance ≤ longer → (scanWithin g (String.ofList front) stdin longer timeout).output =
        some (if entries = [] then noOutput g front else String.ofList (entries.flatMap Entry.record)) := by
  obtain ⟨front, hfront, hlines⟩ := Text.exists_prefix_lines source.toList allowance
  refine ⟨front, hfront, hlines, fun longer hlonger => ?_⟩
  have hlength : (Text.lines (String.ofList front).toList).length ≤ longer := by
    rw [String.toList_ofList, hlines, List.length_take]
    exact (Nat.min_le_left _ _).trans hlonger
  have hsame : Makes g stdin ((Text.lines (String.ofList front).toList).take longer) entries := by
    rw [List.take_of_length_le hlength, String.toList_ofList, hlines]
    exact h
  have hscan := (hsame.draft_of_le timeout hlength).1
  rwa [String.toList_ofList] at hscan

end Draft

/-- The transcript of a scan consists of one record for each entry that its statements make, in their order, and each
record ends in a newline. If there is time for all lines the scan puts out the transcript, or that there is no output if
and only if the transcript is empty. If the time is up before a line, the scan puts out the transcript of the lines
before, which is that of a text with these lines only, and reports the timeout, behind the warning that the entry point
is missing if it is missing in the whole source. -/
theorem scan_shows_entries (g : Grammar) (source stdin : String) (allowance : Nat) (timeout : String) :
    let text := source.toList
    let lines := Text.lines text
    let draft := scanWithin g source stdin allowance timeout
    ∃ entries, Makes g stdin (lines.take allowance) entries ∧
      (∀ others, Makes g stdin (lines.take allowance) others → others = entries) ∧
      (∀ all, Makes g stdin lines all → entries <+: all) ∧
      let transcript := entries.flatMap Entry.record
      (∀ e ∈ entries, ∃ x, e.record = x ++ ['\n']) ∧ (transcript = [] ↔ entries = []) ∧
      (lines.length ≤ allowance →
        draft.output = some (if transcript = [] then noOutput g text else String.ofList transcript) ∧
          draft.error = warning? g text ∧ draft.status = some ⟨3, "Success"⟩) ∧
      (allowance < lines.length →
        draft.output = some (String.ofList transcript) ∧ draft.status = some ⟨4, "Code Error"⟩ ∧
          draft.error = some
            (match g.entryPoint.filter fun e => !e.pattern.occursIn text with
            | some e => e.warning ++ "\n" ++ timeout
            | none => timeout) ∧
          ∃ front, front <+: text ∧ Text.lines front = lines.take allowance ∧
            ∀ longer, allowance ≤ longer →
              (scanWithin g (String.ofList front) stdin longer timeout).output =
                some (if transcript = [] then noOutput g front else String.ofList transcript)) := by
  intro text lines draft
  obtain ⟨entries, hmakes⟩ := exists_makes g stdin (lines.take allowance)
  -- The entries of all lines begin with those of the lines that the allowance lets pass.
  have hprefix (all : List Entry) (hall : Makes g stdin lines all) : entries <+: all := by
    rw [← List.take_append_drop allowance lines] at hall
    exact hmakes.isPrefix hall
  refine ⟨entries, hmakes, fun others hothers => hothers.unique hmakes, hprefix, fun e _ => ⟨_, rfl⟩,
    transcript_eq_nil_iff entries, fun htime => ?_, fun htime => ?_⟩
  · simp only [transcript_eq_nil_iff]
    exact hmakes.draft_of_le timeout htime
  · obtain ⟨houtput, hstatus, herror⟩ := hmakes.draft_of_lt timeout htime
    simp only [transcript_eq_nil_iff]
    exact ⟨houtput, hstatus, herror, hmakes.exists_front timeout⟩

end Scan

end Snippet
