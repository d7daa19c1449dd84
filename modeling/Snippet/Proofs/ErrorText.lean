import Snippet.Proofs.Ending

/-!
What is reported when a script fails. Every fault has a text, and only one kind of fault can have an empty
one: a thrown error object whose name and message say nothing.
-/

namespace Snippet.Script

section Same

variable {ε α β : Type} {e : ε}

/-- What follows two outcomes of which the second is the first one, unless that one is a given failure. -/
theorem bind_error_or_eq {x y : Except ε α} {f g : α → Except ε β} (h : x = .error e ∨ y = x)
    (hf : ∀ a, f a = .error e ∨ g a = f a) :
    (x >>= f) = .error e ∨ (y >>= g) = (x >>= f) := by
  obtain rfl | rfl := h
  · exact Or.inl rfl
  · cases y with
    | ok a => exact hf a
    | error e => exact Or.inr rfl

theorem mapM_error_or_eq {f g : α → Except ε β} {xs : List α}
    (hf : ∀ a ∈ xs, f a = .error e ∨ g a = f a) :
    xs.mapM f = .error e ∨ xs.mapM g = xs.mapM f := by
  induction xs with
  | nil => exact Or.inr rfl
  | cons a rest ih =>
    rw [List.mapM_cons, List.mapM_cons]
    refine bind_error_or_eq (hf a List.mem_cons_self) fun b => ?_
    exact bind_error_or_eq (ih fun a ha => hf a (List.mem_cons_of_mem _ ha)) fun _ => Or.inr rfl

end Same

def GoesOn {α : Type} (x y : Except TextFault α) : Prop := x = .error .endless ∨ y = x

namespace GoesOn

variable {α β : Type} {x y : Except TextFault α}

theorem refl (x : Except TextFault α) : GoesOn x x := Or.inr rfl

theorem eq_ok (h : GoesOn x y) {a : α} (hx : x = .ok a) : y = .ok a := by
  obtain hcut | hsame := h
  · rw [hx] at hcut
    cases hcut
  · rw [hsame, hx]

theorem bind (h : GoesOn x y) {f g : α → Except TextFault β} (hf : ∀ a, GoesOn (f a) (g a)) :
    GoesOn (x >>= f) (y >>= g) :=
  bind_error_or_eq h hf

theorem mapM {f g : α → Except TextFault β} (hf : ∀ a, GoesOn (f a) (g a)) (xs : List α) :
    GoesOn (xs.mapM f) (xs.mapM g) :=
  mapM_error_or_eq fun a _ => hf a

end GoesOn

namespace Heap

variable (h : Heap)

/-- The text of a member of an object in at most `n` steps; that of a missing one is empty. -/
def memberTextWithin (n : Nat) (o : ObjectRef) (key : String) : Except TextFault String :=
  match (h.object o).get? key with
  | some v => h.textWithin n v
  | none => .ok ""

def memberText (o : ObjectRef) (key : String) : Except TextFault String :=
  h.memberTextWithin h.textFuel o key

/-- The text of an error object comes from its name and its message. -/
theorem textWithin_error {o : ObjectRef} (ho : (h.object o).isError = true) (n : Nat) :
    h.textWithin (n + 1) (.object o) = (do
      return Script.errorText (← h.memberTextWithin n o "name")
        (← h.memberTextWithin n o "message")) := by
  unfold textWithin
  dsimp only
  rw [if_pos ho]
  rfl

theorem memberTextWithin_goesOn {n : Nat}
    (htext : ∀ v, GoesOn (h.textWithin n v) (h.textWithin (n + 1) v)) (o : ObjectRef) (key : String) :
    GoesOn (h.memberTextWithin n o key) (h.memberTextWithin (n + 1) o key) := by
  unfold memberTextWithin
  split
  · exact htext _
  · exact GoesOn.refl _

/-- A conversion that ends comes to the same text with a step more, by induction on the steps. -/
theorem text_goesOn (n : Nat) :
    (∀ v, GoesOn (h.textWithin n v) (h.textWithin (n + 1) v)) ∧
      ∀ around a, GoesOn (h.joinWithin n around a) (h.joinWithin (n + 1) around a) := by
  induction n with
  | zero =>
    -- Without a step an array and an object have no text yet.
    refine ⟨fun v => ?_, fun around a => Or.inl rfl⟩
    cases v with
    | array a => exact Or.inl rfl
    | object o => exact Or.inl rfl
    | _ => exact GoesOn.refl _
  | succ n ih =>
    obtain ⟨htext, hjoin⟩ := ih
    constructor
    · intro v
      cases v with
      | array a =>
        unfold textWithin
        obtain hcut | hsame := hjoin [] a
        · rw [hcut]
          exact Or.inl rfl
        · rw [hsame]
          exact GoesOn.refl _
      | object o =>
        -- Only errors have parts: other objects have a text without a further step.
        cases ho : (h.object o).isError with
        | true =>
          have hmember := memberTextWithin_goesOn h htext o
          rw [textWithin_error h ho, textWithin_error h ho]
          exact (hmember _).bind fun name => (hmember _).bind fun message => GoesOn.refl _
        | false =>
          unfold textWithin
          dsimp only
          rw [ho]
          exact GoesOn.refl _
      | _ => exact GoesOn.refl _
    · intro around a
      unfold joinWithin
      split
      · exact GoesOn.refl _
      · split
        · exact GoesOn.refl _
        · -- The elements are converted in a step less each, arrays with this one around them.
          refine GoesOn.bind (GoesOn.mapM (fun v => ?_) _) fun parts => GoesOn.refl _
          cases v with
          | undefined => exact GoesOn.refl _
          | null => exact GoesOn.refl _
          | array inner => exact hjoin _ inner
          | _ => exact htext _

def SaysNothing : Value → Prop
  | .object o =>
    (h.object o).isError = true ∧ h.memberText o "name" = .ok "" ∧ h.memberText o "message" = .ok ""
  | _ => False

end Heap

theorem append_ne_empty {s t : String} (ht : t ≠ "") : s ++ t ≠ "" :=
  fun h => ht (String.append_eq_empty_iff.mp h).2

/-- Every kind of error says something. -/
theorem RuntimeError.report_ne_empty (e : RuntimeError) : e.report ≠ "" := by
  have hlabel (text : String) : e.kind.name ++ ": " ++ text ≠ "" := by
    intro h
    obtain ⟨hl, -⟩ := String.append_eq_empty_iff.mp h
    exact append_ne_empty (by decide) hl
  cases e with
  | invalidTarget => exact append_ne_empty (by decide)
  | _ => exact hlabel _

theorem SyntaxFault.report_ne_empty (fault : SyntaxFault) : fault.report ≠ "" :=
  append_ne_empty (by decide)

theorem timeoutMessage_ne_empty (budget : Budget) : budget.timeoutMessage ≠ "" :=
  append_ne_empty (by decide)

/-- The text of an error is empty exactly if both of its parts are. -/
theorem errorText_eq_empty_iff (name message : String) :
    errorText name message = "" ↔ name = "" ∧ message = "" := by
  unfold errorText
  by_cases h : message.isEmpty = true
  · rw [if_pos h]
    have hmessage : message = "" := String.isEmpty_iff.mp h
    exact ⟨fun hname => ⟨hname, hmessage⟩, fun hboth => hboth.1⟩
  · rw [if_neg h]
    have hmessage : message ≠ "" := fun hempty => h (String.isEmpty_iff.mpr hempty)
    exact ⟨fun htext => absurd htext (append_ne_empty hmessage),
      fun hboth => absurd hboth.2 hmessage⟩

/-- The text of an error object that has one is empty only if the object says nothing. -/
theorem Heap.text_error_eq_empty_iff {h : Heap} {o : ObjectRef} {t : String}
    (ho : (h.object o).isError = true) (ht : h.text (.object o) = .ok t) :
    t = "" ↔ h.SaysNothing (.object o) := by
  obtain ⟨n, hn⟩ : ∃ n, h.textFuel = n + 1 := by
    refine ⟨h.textFuel - 1, ?_⟩
    have hpositive : 0 < h.textFuel := Nat.mul_pos (Nat.succ_pos _) (Nat.succ_pos _)
    omega
  -- The members are converted in a step less than the object, which makes no difference to their texts.
  have hmember (key : String) : GoesOn (h.memberTextWithin n o key) (h.memberText o key) := by
    unfold memberText
    rw [hn]
    exact h.memberTextWithin_goesOn (h.text_goesOn n).1 o key
  unfold Heap.text at ht
  rw [hn, textWithin_error h ho] at ht
  cases hname : h.memberTextWithin n o "name" with
  | error e =>
    rw [hname] at ht
    cases ht
  | ok name =>
    cases hmessage : h.memberTextWithin n o "message" with
    | error e =>
      rw [hname, hmessage] at ht
      cases ht
    | ok message =>
      rw [hname, hmessage] at ht
      obtain rfl : Script.errorText name message = t := Except.ok.inj ht
      rw [errorText_eq_empty_iff]
      have hn := (hmember "name").eq_ok hname
      have hm := (hmember "message").eq_ok hmessage
      constructor
      · rintro ⟨rfl, rfl⟩
        exact ⟨ho, hn, hm⟩
      · rintro ⟨-, hn', hm'⟩
        exact ⟨Except.ok.inj (hn.symm.trans hn'), Except.ok.inj (hm.symm.trans hm')⟩

/-- The text reported of a thrown value is empty only if the value is an error object that says
nothing. -/
theorem Heap.uncaught_eq_empty_iff {h : Heap} {v : Value} {t : String}
    (ht : h.uncaught v = .ok t) : t = "" ↔ h.SaysNothing v := by
  unfold uncaught at ht
  split at ht
  · rename_i herror
    cases v with
    | object o => exact text_error_eq_empty_iff herror ht
    | _ => exact Bool.noConfusion herror
  · rename_i herror
    constructor
    · intro hempty
      cases hp : h.printedInside v with
      | error e =>
        rw [hp] at ht
        cases ht
      | ok printed =>
        rw [hp] at ht
        obtain rfl := Except.ok.inj ht
        obtain ⟨hlabel, -⟩ := String.append_eq_empty_iff.mp hempty
        exact absurd hlabel (by decide)
    · intro hnothing
      cases v with
      | object o => exact absurd hnothing.1 herror
      | _ => exact hnothing.elim

def Ending.SaysNothing : Ending → Prop
  | .failed (.thrown v) m => m.heap.SaysNothing v
  | _ => False

/-- Only an error object without a name and a message is reported with nothing. -/
theorem Fault.report?_eq_empty_iff {e : Fault} {m : Machine} {budget : Budget} {text : String}
    (h : e.report? budget.timeoutMessage m.heap = some text) : text = "" ↔ (Ending.failed e m).SaysNothing := by
  have hnever {told : String} (htold : told ≠ "") (h : told = text) : text = "" ↔ False := by
    rw [← h]
    exact ⟨htold, False.elim⟩
  cases e with
  | raised e => exact hnever e.report_ne_empty (Option.some.inj h)
  | timeout s => exact hnever (timeoutMessage_ne_empty budget) (Option.some.inj h)
  | endless => cases h
  | exhausted => cases h
  | thrown v =>
    change (m.heap.uncaught v).toOption = some text at h
    cases hv : m.heap.uncaught v with
    | error e =>
      rw [hv] at h
      cases h
    | ok t =>
      rw [hv] at h
      obtain rfl := Option.some.inj h
      exact Heap.uncaught_eq_empty_iff hv

/-- An empty error means that the run has ended well, or with an error object that says nothing. -/
theorem evaluate_error_eq_empty_iff {source stdin : String} {budget : Budget} {draft : Draft}
    (h : evaluate source stdin budget = some draft) :
    draft.error = some "" ↔ ¬ (Ending.of source stdin budget).IsFault ∨
      (Ending.of source stdin budget).SaysNothing := by
  rw [evaluate_eq_draft?] at h
  cases hend : Ending.of source stdin budget with
  | finished m =>
    rw [hend] at h
    obtain rfl := Option.some.inj h
    exact ⟨fun _ => Or.inl nofun, fun _ => rfl⟩
  | rejected fault =>
    rw [hend] at h
    obtain rfl := Option.some.inj h
    constructor
    · exact fun herror => absurd (Option.some.inj herror) fault.report_ne_empty
    · exact fun hor => hor.elim (fun hno => absurd (.rejected fault) hno) False.elim
  | failed e m =>
    rw [hend] at h
    obtain ⟨text, htext, rfl⟩ := Option.map_eq_some_iff.mp h
    have hempty := Fault.report?_eq_empty_iff htext
    constructor
    · exact fun herror => Or.inr (hempty.mp (Option.some.inj herror))
    · exact fun hor => congrArg some (hempty.mpr (hor.resolve_left fun hno => hno (.failed e m)))

/-- A draft has the status of a failure where the run ends with a fault. Its error is empty where the run
does not, and otherwise only where the fault is the throw of an error object that says nothing. There is no
draft where a conversion does not end. -/
theorem evaluate_tells_fault (source stdin : String) (budget : Budget) :
    (evaluate source stdin budget = none ↔ (Ending.of source stdin budget).IsEndless) ∧
      ∀ draft, evaluate source stdin budget = some draft →
        (draft.status = some Status.codeError ↔ (Ending.of source stdin budget).IsFault) ∧
          (draft.error = some "" ↔ ¬ (Ending.of source stdin budget).IsFault ∨
            (Ending.of source stdin budget).SaysNothing) :=
  ⟨evaluateWithin_eq_none_iff source stdin budget.checkpoints budget.timeoutMessage,
    fun _ h => ⟨(evaluateWithin_tells h).status_iff, evaluate_error_eq_empty_iff h⟩⟩

/-- A script that throws an error whose name it has made empty fails without a word. -/
theorem fails_without_error_text : ∃ source stdin budget draft,
    (Ending.of source stdin budget).IsFault ∧ evaluate source stdin budget = some draft ∧
      draft.status = some Status.codeError ∧ draft.error = some "" := by
  have hrun : (evaluate "const e = new Error(''); e.name = ''; throw e;" "" ⟨20000⟩).map
      (fun draft => (draft.status, draft.error)) = some (some Status.codeError, some "") := by
    decide +kernel
  obtain ⟨draft, hdraft, hfields⟩ := Option.map_eq_some_iff.mp hrun
  have hstatus : draft.status = some Status.codeError := congrArg Prod.fst hfields
  have herror : draft.error = some "" := congrArg Prod.snd hfields
  exact ⟨_, _, _, draft, (evaluateWithin_tells hdraft).status_iff.mp hstatus, hdraft, hstatus, herror⟩

end Snippet.Script
