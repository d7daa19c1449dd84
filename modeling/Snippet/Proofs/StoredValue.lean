import Snippet.Proofs.VariableStore

/-!
What a scan stores. The moments of a scan lie between its statements and, within a statement that reads, between its
slots. What is stored at such a moment has been assigned or read before: by one step of the scan, which gives one
name its value.
-/

namespace Snippet.Scan

open Pattern

def statementsIn (g : Grammar) (source : String) : List (List Char) :=
  (Text.lines source.toList).flatMap (statementsOf g)

inductive Gives (g : Grammar) (st : State) : List Char → Literal → Prop where
  -- What one step of a scan gives a name in a state: an assignment the value of its term, as a
  -- variable of the declared type holds it, and a slot what its line is read as.
  | assigned {statement : List Char} {m : Match} {v : Literal}
    (hsearch : g.assignment.search? statement = some m)
    (hvalue : resolve? g.style st.store ((m.get? "value").getD []) = some v) :
    Gives g st ((m.get? "name").getD []) (typed g (m.get? "type") v)
  | read {statement name : List Char} {rule : InputRule} {m : Match} {slot : Slot}
    (hrule : firstInput? statement g.inputs = some (rule, m)) (hslot : slot ∈ rule.slots m)
    (hname : slot.name = some name) :
    Gives g st name (convert g.style (st.stdin.lines.head?.getD "").toList slot.conversion)

/-- A state at some moment of a scan: some statements have been scanned, and some slots of the next one filled if it
is one that reads. -/
inductive AtMoment (g : Grammar) (source stdin : String) : State → Prop where
  | between {done rest : List (List Char)} (h : statementsIn g source = done ++ rest) :
    AtMoment g source stdin (done.foldl (State.statement g) (State.start stdin))
  | reading {done rest : List (List Char)} {statement : List Char} {rule : InputRule} {m : Match}
    {filled left : List Slot} (h : statementsIn g source = done ++ statement :: rest)
    (hrule : firstInput? statement g.inputs = some (rule, m)) (hslots : rule.slots m = filled ++ left)
    (hreads : input? g (done.foldl (State.statement g) (State.start stdin)) statement =
      some (State.statement g (done.foldl (State.statement g) (State.start stdin)) statement)) :
    AtMoment g source stdin
      (filled.foldl (State.fill g) (done.foldl (State.statement g) (State.start stdin)))

section Steps

variable {g : Grammar} {motive : Store → Prop}
  (hforget : ∀ store name, motive store → motive (store.forget name))
  (hput : ∀ (st : State) name v, motive st.store → Gives g st name v → motive (st.store.put name v))

include hput

/-- A slot gives one name its value, or none. -/
theorem motive_fill {statement : List Char} {rule : InputRule} {m : Match}
    (hrule : firstInput? statement g.inputs = some (rule, m)) {slots : List Slot}
    (hslots : ∀ slot ∈ slots, slot ∈ rule.slots m) {st : State} (h : motive st.store) :
    motive (slots.foldl (State.fill g) st).store := by
  induction slots generalizing st with
  | nil => exact h
  | cons slot slots ih =>
    obtain ⟨hslot, hslots⟩ := List.forall_mem_cons.mp hslots
    apply ih hslots
    rw [State.fill_eq]
    cases hname : slot.name with
    | none => exact h
    | some name => exact hput st name _ h (.read hrule hslot hname)

include hforget

/-- A statement gives names their values, one after the other, or makes a name unknown. -/
theorem motive_statement (st : State) (statement : List Char) (h : motive st.store) :
    motive (State.statement g st statement).store := by
  unfold State.statement
  split
  · exact h
  split
  · -- A print changes nothing that is stored.
    next st' hprint =>
    obtain ⟨⟨rule, m⟩, -, rfl⟩ := Option.map_eq_some_iff.mp hprint
    dsimp only
    split <;> exact h
  split
  · next st' hassign =>
    obtain ⟨m, hsearch, hm⟩ := Option.bind_eq_some_iff.mp hassign
    obtain ⟨v, hv, rfl⟩ := Option.map_eq_some_iff.mp hm
    exact hput st _ _ h (.assigned hsearch hv)
  split
  · next st' hinput =>
    obtain ⟨⟨rule, m⟩, hrule, rfl⟩ := Option.map_eq_some_iff.mp hinput
    exact motive_fill hput hrule (fun _ hslot => hslot) h
  · unfold State.passOver
    split
    · exact hforget _ _ h
    · exact h

/-- What holds of the empty store, and still holds when a name is made unknown or a step of the scan gives it a value,
holds of the store at every moment; by induction on the steps. -/
theorem AtMoment.store_induction (hnil : motive []) {source stdin : String} {st : State}
    (h : AtMoment g source stdin st) : motive st.store := by
  have hstatements (done : List (List Char)) :
      motive (done.foldl (State.statement g) (State.start stdin)).store := by
    induction done using List.reverseRecOn with
    | nil => exact hnil
    | append_singleton done statement ih =>
      rw [List.foldl_append]
      exact motive_statement hforget hput _ statement ih
  cases h with
  | between _ => exact hstatements _
  | reading _ hrule hslots _ =>
    refine motive_fill hput hrule (fun slot hslot => ?_) (hstatements _)
    rw [hslots]
    exact List.mem_append_left _ hslot

end Steps

/-- What holds of every value that a step of the scan gives a name, if it holds of all that are stored before, holds of
every value that is stored. -/
theorem AtMoment.forall_stored {g : Grammar} {P : List Char → Literal → Prop}
    (hgives : ∀ {st name v}, (∀ other w, st.store.get? other = some w → P other w) → Gives g st name v → P name v)
    {source stdin : String} {st : State} (h : AtMoment g source stdin st) {name : List Char} {v : Literal}
    (hstored : st.store.get? name = some v) : P name v := by
  refine h.store_induction (motive := fun store => ∀ name v, store.get? name = some v → P name v) ?_ ?_ ?_ name v hstored
  · intro store name hstore other w hw
    rw [Store.get?_forget, Function.update_apply] at hw
    split at hw
    · cases hw
    · exact hstore other w hw
  · intro st name v hstore hstep other w hw
    rw [Store.get?_put, Function.update_apply] at hw
    split at hw
    · next hsame =>
      obtain rfl := Option.some.inj hw
      exact hsame ▸ hgives hstore hstep
    · exact hstore other w hw
  · rintro name v ⟨⟩

/-- The state in which a scan of some first lines ends is one of its moments. -/
theorem atMoment_lines (g : Grammar) (source stdin : String) (allowance : Nat) :
    AtMoment g source stdin ((State.start stdin).lines g ((Text.lines source.toList).take allowance)) := by
  have hlines (lines : List (List Char)) (st : State) :
      st.lines g lines = (lines.flatMap (statementsOf g)).foldl (State.statement g) st := by
    unfold State.lines
    rw [List.foldl_flatMap]
    rfl
  have hsplit : statementsIn g source = ((Text.lines source.toList).take allowance).flatMap (statementsOf g) ++
      ((Text.lines source.toList).drop allowance).flatMap (statementsOf g) := by
    rw [← List.flatMap_append, List.take_append_drop]
    rfl
  rw [hlines]
  exact .between hsplit

end Snippet.Scan
