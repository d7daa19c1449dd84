import Mathlib.Logic.Function.Basic
import Snippet.Proofs.VariableAssignment

/-!
A scanned program as a store of texts. A literal stores its text, a variable stores what is known of it, any
other value makes the variable unknown, and a print of a variable prints its text if that is known. Scanning a
program of such statements comes to the same as running them one after the other on a store.
-/

namespace Snippet.Scan

namespace Store

variable (store : Store) (name : List Char)

/-- Forgetting a name makes it unknown and leaves all others. -/
theorem get?_forget : (store.forget name).get? = Function.update store.get? name none := by
  funext other
  rw [Function.update_apply]
  unfold get? forget
  induction store with
  | nil => exact (ite_self none).symm
  | cons entry store ih =>
    obtain ⟨key, value⟩ := entry
    by_cases hkey : key = name
    · rw [List.filter_cons_of_neg (by simp [hkey]), ih]
      by_cases hother : other = name
      · rw [if_pos hother, if_pos hother]
      · have hne : (other == key) = false := beq_eq_false_iff_ne.mpr fun h => hother (h.trans hkey)
        rw [if_neg hother, if_neg hother, List.lookup_cons, hne]
    · rw [List.filter_cons_of_pos (by simp [hkey]), List.lookup_cons, List.lookup_cons, ih]
      cases hfound : other == key with
      | false => rfl
      | true =>
        have hother : other ≠ name := fun h => hkey ((eq_of_beq hfound).symm.trans h)
        exact (if_neg hother).symm

/-- Putting a value makes it known under its name and leaves all others. -/
theorem get?_put (value : Literal) :
    (store.put name value).get? = Function.update store.get? name (some value) := by
  funext other
  change List.lookup other ((name, value) :: store.forget name) = _
  rw [List.lookup_cons, Function.update_apply]
  cases hfound : other == name with
  | true => rw [if_pos (eq_of_beq hfound)]
  | false =>
    have hother : other ≠ name := beq_eq_false_iff_ne.mp hfound
    have hforget := congrFun (get?_forget store name) other
    rw [Function.update_of_ne hother] at hforget
    rw [if_neg hother]
    exact hforget

end Store

inductive Statement (l : Scanned) where
  /-- Assigns a literal with the given text. -/
  | literal (x : Variable l) (t : List Char)
  /-- Assigns the value of another variable. -/
  | copy (x y : Variable l)
  /-- Assigns what a function gives that the scanner knows nothing of. -/
  | compute (x : Variable l)
  /-- Prints a variable. -/
  | print (x : Variable l)

structure Memory where
  known : List Char → Option (List Char)
  printed : List (List Char)

namespace Statement

variable {l : Scanned}

def text : Statement l → List Char
  | .literal x t => assignText x.name (literalOf t)
  | .copy x y => assignText x.name y.name
  | .compute x => assignText x.name computeCall
  | .print x => printText l x.name

def run (m : Memory) : Statement l → Memory
  | .literal x t => { m with known := Function.update m.known x.name (some t) }
  | .copy x y => { m with known := Function.update m.known x.name (m.known y.name) }
  | .compute x => { m with known := Function.update m.known x.name none }
  | .print x =>
    match m.known x.name with
    | some t => { m with printed := m.printed ++ [t] }
    | none => m

theorem isStatement_text (s : Statement l) : IsStatement s.text := by
  cases s with
  | literal x t => exact isStatement_assignText x (isValue_literalOf t)
  | copy x y => exact isStatement_assignText x y.isValue_name
  | compute x => exact isStatement_assignText x isValue_computeCall
  | print x => exact isStatement_printText l x.isTerm_name

end Statement

structure State.StandsFor (st : State) (m : Memory) : Prop where
  -- A scanner's state stands for a memory: it knows the same texts and has the records of the same
  -- prints.
  store : st.store.get? = Option.map .text ∘ m.known
  records : st.records.reverse = m.printed.map Text.asRecord

namespace State.StandsFor

variable {l : Scanned} {st : State} {m : Memory}

theorem get? (h : st.StandsFor m) (name : List Char) : st.store.get? name = (m.known name).map .text :=
  congrFun h.store name

/-- Giving a variable a text, or none, does the same to the store and to what is known. -/
theorem assign (h : st.StandsFor m) (x : Variable l) {value : List Char} (hv : IsValue value)
    {t : Option (List Char)} (hvalue : resolve? (grammarOf l).style st.store value = t.map .text)
    (hreads : t = none → ReadsNothing value) :
    (State.statement (grammarOf l) st (assignText x.name value)).StandsFor
      { m with known := Function.update m.known x.name t } := by
  have hupdate : Function.update st.store.get? x.name (t.map .text) =
      Option.map .text ∘ Function.update m.known x.name t := by
    rw [h.store, Function.comp_update]
  cases t with
  | some t =>
    rw [statement_assign_known x hv st hvalue]
    exact ⟨(Store.get?_put st.store x.name (.text t)).trans hupdate, h.records⟩
  | none =>
    rw [statement_assign_unknown x hv (hreads rfl) st hvalue]
    exact ⟨(Store.get?_forget st.store x.name).trans hupdate, h.records⟩

/-- Scanning a statement does to the state what the statement does to the memory. -/
theorem statement (h : st.StandsFor m) (s : Statement l) :
    (State.statement (grammarOf l) st s.text).StandsFor (s.run m) := by
  cases s with
  | literal x t => exact h.assign x (isValue_literalOf t) (resolve?_literalOf _ _ t) (by rintro ⟨⟩)
  | copy x y =>
    have hvalue : resolve? (grammarOf l).style st.store y.name = (m.known y.name).map .text := by
      rw [y.resolve?_name, h.get?]
    exact h.assign x y.isValue_name hvalue fun _ => y.readsNothing_name
  | compute x =>
    exact h.assign x isValue_computeCall (resolve?_computeCall l _) fun _ => readsNothing_computeCall
  | print x =>
    have hshown : renderArguments? (grammarOf l).style st.store x.name = m.known x.name := by
      rw [x.renderArguments?_name, h.get?]
      cases m.known x.name <;> rfl
    have hprint := statement_print (l := l) x.isTerm_name st
    rw [hshown] at hprint
    unfold Statement.text Statement.run
    dsimp only
    rw [hprint]
    cases m.known x.name with
    | none => exact h
    | some t =>
      refine ⟨h.store, ?_⟩
      change (Text.asRecord t :: st.records).reverse = (m.printed ++ [t]).map Text.asRecord
      rw [List.reverse_cons, h.records, List.map_append]
      rfl

theorem foldl (h : st.StandsFor m) (statements : List (Statement l)) :
    ((statements.map Statement.text).foldl (State.statement (grammarOf l)) st).StandsFor
      (statements.foldl Statement.run m) := by
  induction statements generalizing st m with
  | nil => exact h
  | cons s statements ih => exact ih (h.statement s)

end State.StandsFor

structure Program (l : Scanned) where
  lines : List (List (Nat × Statement l))
  fits : ∀ line ∈ lines, l = .python → line.length ≤ 1

namespace Program

variable {l : Scanned} (p : Program l)

def texts (line : List (Nat × Statement l)) : List (Nat × List Char) := line.map fun s => (s.1, s.2.text)

def source : List Char := List.intercalate ['\n'] (p.lines.map fun line => lineOf l (texts line))

def runLines (m : Memory) (lines : List (List (Nat × Statement l))) : Memory :=
  (lines.flatten.map Prod.snd).foldl Statement.run m

def result : Memory := runLines ⟨fun _ => none, []⟩ p.lines

theorem isStatement_texts (line : List (Nat × Statement l)) : ∀ s ∈ texts line, IsStatement s.2 := by
  intro s hs
  obtain ⟨s, -, rfl⟩ := List.mem_map.mp hs
  exact s.2.isStatement_text

/-- Scanning a line does to the state what running its statements does to the memory. -/
theorem line_standsFor {st : State} {m : Memory} (h : st.StandsFor m) {line : List (Nat × Statement l)}
    (hfits : l = .python → line.length ≤ 1) :
    (State.line (grammarOf l) st (lineOf l (texts line))).StandsFor
      ((line.map Prod.snd).foldl Statement.run m) := by
  have htexts : (texts line).map Prod.snd = (line.map Prod.snd).map Statement.text := by
    unfold texts
    rw [List.map_map, List.map_map]
    rfl
  have hlength : Fits l (texts line) := by
    intro hl
    rw [texts, List.length_map]
    exact hfits hl
  rw [line_lineOf (isStatement_texts line) hlength, htexts]
  exact h.foldl (line.map Prod.snd)

/-- What the scanner knows and has printed after some lines is what running them comes to. -/
theorem lines_standFor {st : State} {m : Memory} (h : st.StandsFor m)
    {lines : List (List (Nat × Statement l))} (hfits : ∀ line ∈ lines, l = .python → line.length ≤ 1) :
    (st.lines (grammarOf l) (lines.map fun line => lineOf l (texts line))).StandsFor (runLines m lines) := by
  induction lines generalizing st m with
  | nil => exact h
  | cons line lines ih =>
    obtain ⟨hline, hlines⟩ := List.forall_mem_cons.mp hfits
    have hrest := ih (line_standsFor h hline) hlines
    unfold runLines at hrest ⊢
    rw [List.flatten_cons, List.map_append, List.foldl_append]
    exact hrest

/-- At the start nothing is known and nothing has been printed. -/
theorem start_standsFor (stdin : String) : (State.start stdin).StandsFor ⟨fun _ => none, []⟩ :=
  ⟨rfl, rfl⟩

/-- Scanning a program puts out the texts that its run on a store prints, each with a newline behind it unless
it ends in one; if none is printed, it puts out the language's report on that. -/
theorem scan_refines_store (stdin : String) (budget : Budget) (htime : p.lines.length ≤ budget.checkpoints) :
    (scan l (String.ofList p.source) stdin budget).output =
      some (match p.result.printed with
        | [] => noOutput (grammarOf l) p.source
        | texts =>
          String.ofList (texts.flatMap fun t => if t.getLast? = some '\n' then t else t ++ ['\n'])) := by
  have hend := lines_standFor (start_standsFor stdin) p.fits
  have hlines : ∀ x ∈ p.lines.map fun line => lineOf l (texts line), '\n' ∉ x ∧ x.getLast? ≠ some '\r' := by
    intro x hx
    obtain ⟨line, -, rfl⟩ := List.mem_map.mp hx
    exact lineOf_oneLine (isStatement_texts line)
  have hcount : (p.lines.map fun line => lineOf l (texts line)).length ≤ budget.checkpoints := by
    rw [List.length_map]
    exact htime
  have hrecords := hend.records
  rw [source, scan_output hlines l stdin hcount]
  generalize (State.start stdin).lines (grammarOf l) (p.lines.map fun line => lineOf l (texts line)) = st
    at hrecords
  change st.records.reverse = p.result.printed.map Text.asRecord at hrecords
  have htranscript : st.transcript =
      p.result.printed.flatMap fun t => if t.getLast? = some '\n' then t else t ++ ['\n'] := by
    rw [State.transcript, hrecords, ← List.flatMap_def]
    exact congrArg (p.result.printed.flatMap ·) (funext asRecord_eq)
  have hempty : st.records.isEmpty = p.result.printed.isEmpty := by
    rw [← List.isEmpty_reverse, hrecords, List.isEmpty_map]
  rw [htranscript, hempty]
  cases p.result.printed with
  | nil => rfl
  | cons t printed => rfl

def copyThenCompute : Program .java :=
  let a : Variable .java := ⟨'a', [], by decide, List.forall_mem_nil _, by decide⟩
  let b : Variable .java := ⟨'b', ['_', '2'], by decide, by simp [isNameChar], by decide⟩
  { lines :=
      [[(0, .literal a "x;\n".toList), (1, .copy b a)], [],
        [(2, .compute a), (1, .print a), (1, .print b)]]
    fits := by rintro line - ⟨⟩ }

theorem copyThenCompute_output :
    copyThenCompute.lines.length ≤ (Budget.ofMilliseconds 5000).checkpoints ∧
      (scan .java (String.ofList copyThenCompute.source) "" (Budget.ofMilliseconds 5000)).output =
        some "x;\n" := by
  have htime : copyThenCompute.lines.length ≤ (Budget.ofMilliseconds 5000).checkpoints := by decide
  have hprinted : copyThenCompute.result.printed = ["x;\n".toList] := rfl
  have houtput := copyThenCompute.scan_refines_store "" (Budget.ofMilliseconds 5000) htime
  rw [hprinted] at houtput
  exact ⟨htime, houtput⟩

example : String.ofList copyThenCompute.source =
    "a = \"x;\\n\"; b_2 = a;\n\n  a = compute(); System.out.println(a); System.out.println(b_2);" := by
  decide

end Program

end Snippet.Scan
