import Mathlib.Data.String.Basic
import Mathlib.Order.Compare
import Mathlib.Order.WithBot
import Snippet.Proofs.MergeSort
import Snippet.Proofs.TextRoutes
import Snippet.Proofs.UpholdingCall

/-!
Sorting an array. What its function does while an array is sorted, to the array or to anything else, does not
matter to what the array holds afterwards: the elements that it had before, each one as often.
-/

namespace Snippet.Script

def Machine.HasArrays (k : Nat) (m : Machine) : Prop := k ≤ m.heap.arrays.size

instance (k : Nat) : ArrayCondition (Machine.HasArrays k) where
  unchanged hm heq := by
    unfold Machine.HasArrays
    rw [heq]
    exact hm
  makeObject _ _ hm := ⟨trivial, hm⟩
  modifyObject _ _ _ _ hm := ⟨trivial, hm⟩
  makeArrayOf xs m hm := by
    refine ⟨trivial, Nat.le_trans hm ?_⟩
    change m.heap.arrays.size ≤ (m.heap.arrays.push xs).size
    rw [Array.size_push]
    exact Nat.le_succ _
  modifyItems a f m hm := by
    refine ⟨trivial, ?_⟩
    change k ≤ (m.heap.arrays.modify a.address f).size
    rwa [Array.size_modify]

instance (k : Nat) : InstanceCondition (Machine.HasArrays k) where
  makeInstance _ _ hm := ⟨trivial, hm⟩

instance (k : Nat) : DeclarationRules (Machine.HasArrays k) Any (fun _ => Any) := by
  refine declarationRules_of_scopeFree fun {m m'} hm harrays _ => ?_
  unfold Machine.HasArrays
  rw [harrays]
  exact hm

theorem evaluator_keepsArrays (k n : Nat) :
    (evaluator n).Sustains (Machine.HasArrays k) Any (fun _ => Any) :=
  evaluator_sustains (fun _ => trivial) n

def Machine.writing (m : Machine) (a : ArrayRef) (xs : List Value) : Machine :=
  { m with heap := m.heap.modifyItems a fun _ => xs.toArray }

theorem Machine.items_writing {m : Machine} {a : ArrayRef} (ha : a.address < m.heap.arrays.size)
    (xs : List Value) : ((m.writing a xs).heap.items a).toList = xs := by
  change ((m.heap.arrays.modify a.address fun _ => xs.toArray).getD a.address #[]).toList = xs
  rw [Array.getD_eq_getD_getElem?, Array.getElem?_modify, if_pos rfl, Array.getElem?_eq_getElem ha]
  rfl

theorem Machine.items_writing_nil (m : Machine) (a : ArrayRef) :
    ((m.writing a []).heap.items a).toList = [] := by
  by_cases ha : a.address < m.heap.arrays.size
  · exact Machine.items_writing ha []
  · change ((m.heap.arrays.modify a.address fun _ => [].toArray).getD a.address #[]).toList = []
    rw [Array.getD_eq_getD_getElem?, Array.getElem?_modify, if_pos rfl,
      Array.getElem?_eq_none (Nat.le_of_not_lt ha)]
    rfl

def orderingOf (x : Float) : Ordering := if 0.0 < x then .gt else if x < 0.0 then .lt else .eq

namespace Run

variable {call : Caller} {f : Value} {m m' : Machine} {xs : List Value} {v w : Value} {b : Bool}

def compared (call : Caller) (f v w : Value) : Run Float := do toNumber (← call f .undefined [v, w])

def callOrder (call : Caller) (f : Value) : SwapTest := functionOrder fun v w => call f .undefined [v, w]

theorem compared_of_callOrder (h : callOrder call f v w m = .ok b m') :
    ∃ x, compared call f v w m = .ok x m' ∧ b = decide (0.0 < x) := by
  obtain ⟨r, m₁, hr, h⟩ := of_run_bind h
  obtain ⟨x, m₂, hx, h⟩ := of_run_bind h
  cases h
  exact ⟨x, (run_bind_ok hr).trans hx, rfl⟩

/-- Whenever a function compares elements of a list while it is sorted, the sign of the result is that of an
order. -/
def SignsFollow (call : Caller) (f : Value) (order : Value → Value → Ordering) (xs : List Value)
    (start : Machine) : Prop :=
  ∀ m, Asks (callOrder call f) xs start m → ∀ v ∈ xs, ∀ w ∈ xs, ∀ x m',
    compared call f v w m = .ok x m' → orderingOf x = order v w

/-- A function whose signs follow an order gives answers that follow it. -/
theorem SignsFollow.follow {order : Value → Value → Ordering} (h : SignsFollow call f order xs m) :
    Follow (Answers (callOrder call f) xs m) order xs := by
  rintro v hv w hw b ⟨m₁, m₂, hasked, hanswer⟩
  obtain ⟨x, hx, rfl⟩ := compared_of_callOrder hanswer
  rw [← h m₁ hasked v hv w hw x m₂ hx, decide_eq_true_iff]
  unfold orderingOf
  split
  · exact ⟨fun _ => rfl, fun _ => ‹_›⟩
  · rename_i hnot
    refine ⟨fun hpos => absurd hpos hnot, fun hgt => ?_⟩
    split at hgt <;> cases hgt

end Run

theorem compareTexts_eq_cmp (s t : String) : Run.compareTexts s t = cmp s t := by
  unfold Run.compareTexts
  obtain hlt | rfl | hgt := lt_trichotomy s t
  · rw [if_pos hlt, (cmp_eq_lt_iff s t).mpr hlt]
  · rw [if_neg (lt_irrefl s), if_pos (beq_self_eq_true s), cmp_self_eq_eq]
  · rw [if_neg hgt.not_gt, (cmp_eq_gt_iff s t).mpr hgt, if_neg]
    exact fun heq => hgt.ne' (LawfulBEq.eq_of_beq heq)

namespace Heap

def textPlace (h : Heap) : Value → WithTop String
  | .undefined => ⊤
  | v => ((h.text v).toOption.getD "" : String)

def textualOrder (h : Heap) (v w : Value) : Ordering := cmp (h.textPlace v) (h.textPlace w)

variable {h : Heap}

theorem textPlace_of_ok {v : Value} (hv : v ≠ .undefined) {s : String} (hs : h.text v = .ok s) :
    h.textPlace v = s := by
  cases v with
  | undefined => exact absurd rfl hv
  | _ =>
    unfold textPlace
    dsimp only
    rw [hs]
    rfl

theorem textPlace_lt_top {v : Value} (hv : v ≠ .undefined) : h.textPlace v < ⊤ := by
  cases v with
  | undefined => exact absurd rfl hv
  | _ => exact WithTop.coe_lt_top _

theorem isLE_textualOrder {v w : Value} :
    (h.textualOrder v w).isLE ↔ h.textPlace v ≤ h.textPlace w := by
  unfold textualOrder
  rw [← Ordering.ne_gt_iff_isLE, cmp_eq_gt_iff, not_lt]

theorem isWeakOrder_textualOrder (h : Heap) (xs : List Value) : IsWeakOrder h.textualOrder xs where
  swap _ _ _ _ := (cmp_swap _ _).symm
  trans _ _ _ _ _ _ huv hvw := isLE_textualOrder.mpr
    (le_trans (isLE_textualOrder.mp huv) (isLE_textualOrder.mp hvw))

end Heap

namespace Run

variable {m m' : Machine} {v w : Value} {b : Bool}

theorem run_toText (v : Value) (m : Machine) : toText v m = ofText (m.heap.text v) m := by
  cases v <;> rfl

/-- Asking for the text of a value changes nothing. -/
theorem text_of_toText {s : String} (h : toText v m = .ok s m') : m' = m ∧ m.heap.text v = .ok s := by
  rw [run_toText] at h
  cases htext : m.heap.text v with
  | ok t =>
    rw [htext] at h
    cases h
    exact ⟨rfl, rfl⟩
  | error e =>
    rw [htext] at h
    cases e <;> cases h

theorem textOrder_of_ne (hv : v ≠ .undefined) (hw : w ≠ .undefined) :
    textOrder v w = do return compareTexts (← toText v) (← toText w) == .gt := by
  unfold textOrder
  split
  · exact absurd rfl hv
  · exact absurd rfl hv
  · exact absurd rfl hw
  · rfl

theorem textOrder_undefined (hw : w ≠ .undefined) : textOrder .undefined w = pure true := by
  cases w with
  | undefined => exact absurd rfl hw
  | _ => rfl

theorem textOrder_to_undefined (v : Value) : textOrder v .undefined = pure false := by
  cases v <;> rfl

/-- The order of texts looks at the state and leaves it as it is. -/
theorem textOrder_ok (h : textOrder v w m = .ok b m') :
    m' = m ∧ (b = true ↔ m.heap.textPlace w < m.heap.textPlace v) := by
  by_cases hw : w = .undefined
  · subst hw
    rw [textOrder_to_undefined] at h
    cases h
    exact ⟨rfl, fun hfalse => absurd hfalse Bool.false_ne_true, fun hlt => absurd hlt not_top_lt⟩
  by_cases hv : v = .undefined
  · subst hv
    rw [textOrder_undefined hw] at h
    cases h
    exact ⟨rfl, fun _ => Heap.textPlace_lt_top hw, fun _ => rfl⟩
  · rw [textOrder_of_ne hv hw] at h
    obtain ⟨s, m₁, hs, hrest⟩ := of_run_bind h
    obtain ⟨t, m₂, ht, hend⟩ := of_run_bind hrest
    obtain ⟨rfl, hs⟩ := text_of_toText hs
    obtain ⟨rfl, ht⟩ := text_of_toText ht
    cases hend
    rw [Heap.textPlace_of_ok hv hs, Heap.textPlace_of_ok hw ht, WithTop.coe_lt_coe, beq_iff_eq,
      compareTexts_eq_cmp, cmp_eq_gt_iff]
    exact ⟨rfl, Iff.rfl⟩

theorem asks_textOrder {xs : List Value} (h : Asks textOrder xs m m') : m' = m := by
  induction h with
  | nothing => rfl
  | question _ _ _ hanswer ih => exact (textOrder_ok hanswer).1.trans ih

theorem follow_textOrder (xs : List Value) (m : Machine) :
    Follow (Answers textOrder xs m) m.heap.textualOrder xs := by
  rintro v _ w _ b ⟨m₁, m₂, hasked, hanswer⟩
  obtain rfl := asks_textOrder hasked
  unfold Heap.textualOrder
  rw [cmp_eq_gt_iff]
  exact (textOrder_ok hanswer).2

/-- Elements that have texts can be compared. -/
theorem textOrder_ne_error {xs : List Value} (htexts : ∀ v ∈ xs, v ≠ .undefined → ∃ s, m.heap.text v = .ok s)
    (hv : v ∈ xs) (hw : w ∈ xs) (e : Fault) : textOrder v w m ≠ .error e m' := by
  intro hfail
  by_cases hmissing : w = .undefined
  · subst hmissing
    rw [textOrder_to_undefined] at hfail
    cases hfail
  by_cases hmissing' : v = .undefined
  · subst hmissing'
    rw [textOrder_undefined hmissing] at hfail
    cases hfail
  · obtain ⟨s, hs⟩ := htexts v hv hmissing'
    obtain ⟨t, ht⟩ := htexts w hw hmissing
    have hstext : toText v m = .ok s m := by
      rw [run_toText, hs]
      rfl
    have httext : toText w m = .ok t m := by
      rw [run_toText, ht]
      rfl
    rw [textOrder_of_ne hmissing' hmissing, run_bind_ok hstext, run_bind_ok httext] at hfail
    cases hfail

def sortTest (call : Caller) (f : Value) : SwapTest := if f.isFunction then callOrder call f else textOrder

/-- Without a function, or with one, there is no fault before the comparisons. -/
theorem sortOrder_eq {call : Caller} {arguments : List Value}
    (hf : argument arguments 0 = .undefined ∨ (argument arguments 0).isFunction = true) :
    sortOrder call arguments = pure (sortTest call (argument arguments 0)) := by
  unfold sortOrder
  obtain hnone | hfunction := hf
  · rw [hnone]
    rfl
  · cases hargument : argument arguments 0 with
    | function f identity => rfl
    | _ =>
      rw [hargument] at hfunction
      cases hfunction

/-- Arrays are sorted by asking for the order of their elements first, and writing them then. -/
theorem run_sort {call : Caller} {arguments : List Value} (a : ArrayRef)
    (hf : argument arguments 0 = .undefined ∨ (argument arguments 0).isFunction = true) (m : Machine) :
    arrayMethod call a .sort arguments m =
      match sort (sortTest call (argument arguments 0)) (m.heap.items a).toList m with
      | .ok ys m' => .ok (.array a) (m'.writing a ys)
      | .error e m' => .error e m' := by
  have horder : sortOrder call arguments m = .ok (sortTest call (argument arguments 0)) m := by
    rw [sortOrder_eq hf]
    rfl
  have hitems : items a m = .ok (m.heap.items a) m := rfl
  refine (run_bind_ok horder).trans ((run_bind_ok hitems).trans ?_)
  cases hsort : sort (sortTest call (argument arguments 0)) (m.heap.items a).toList m with
  | ok ys m' => exact run_bind_ok hsort
  | error e m' => exact run_bind_error hsort

/-- Nothing that is asked takes an array away. -/
theorem hasArrays_of_asks {n k : Nat} {arguments xs : List Value}
    (hf : argument arguments 0 = .undefined ∨ (argument arguments 0).isFunction = true)
    (h : Asks (sortTest (evaluator n).call (argument arguments 0)) xs m m') (hm : m.HasArrays k) :
    m'.HasArrays k := by
  have horder := Upholds.sortOrder (evaluator_keepsArrays k n).call arguments m hm
  rw [sortOrder_eq hf] at horder
  induction h with
  | nothing => exact hm
  | @question m₁ m₂ v w b _ _ _ hanswer ih =>
    have hends := horder.1 v w m₁ ih
    rw [hanswer] at hends
    exact hends.2

/-- A sorted array holds what it has been sorted into, whatever has happened to it meanwhile. -/
theorem items_sorted {n : Nat} {a : ArrayRef} {arguments ys : List Value}
    (hf : argument arguments 0 = .undefined ∨ (argument arguments 0).isFunction = true)
    (h : Asks (sortTest (evaluator n).call (argument arguments 0)) (m.heap.items a).toList m m')
    (hys : ys.Perm (m.heap.items a).toList) : ((m'.writing a ys).heap.items a).toList = ys := by
  by_cases ha : a.address < m.heap.arrays.size
  · have hthere : m'.HasArrays m.heap.arrays.size := hasArrays_of_asks hf h (Nat.le_refl _)
    exact Machine.items_writing (Nat.lt_of_lt_of_le ha hthere) ys
  · -- An array that is not there has no elements, before and afterwards.
    have hnone : (m.heap.items a).toList = [] := by
      unfold Heap.items
      rw [Array.getD_eq_getD_getElem?, Array.getElem?_eq_none (Nat.le_of_not_lt ha)]
      rfl
    rw [hnone] at hys
    obtain rfl := hys.eq_nil
    exact Machine.items_writing_nil m' a

end Run

/-- An array is sorted by asking for the order of its elements, which is that of their texts if no function
is given, and by writing what this leads to at the end.

Where every question is answered the array holds a permutation of the elements that it had before, even if
the function has changed it. If the signs of the answers are those of an order, then the elements are in this
order, and equal ones as they were; elements without a function are ordered by their texts, with the missing
ones last. Where a question fails, this is how the sort fails, in the state that the question has left. -/
theorem array_is_sorted (n : Nat) (m : Machine) (a : ArrayRef) (arguments : List Value)
    (hf : Run.argument arguments 0 = .undefined ∨ (Run.argument arguments 0).isFunction = true) :
    let f := Run.argument arguments 0
    let swap := Run.sortTest (evaluator n).call f
    let xs := (m.heap.items a).toList
    (∀ v m', Run.arrayMethod (evaluator n).call a .sort arguments m = .ok v m' →
      ∃ ys m₁, v = .array a ∧ Run.Asks swap xs m m₁ ∧ m' = m₁.writing a ys ∧
        (m'.heap.items a).toList = ys ∧ ys.Perm xs ∧
        (f.isFunction = true → ∀ order, IsWeakOrder order xs →
          Run.SignsFollow (evaluator n).call f order xs m → IsAscending order ys ∧ IsStable order xs ys) ∧
        (f = .undefined → m₁ = m ∧ IsAscending m.heap.textualOrder ys ∧
          IsStable m.heap.textualOrder xs ys)) ∧
    (∀ e m', Run.arrayMethod (evaluator n).call a .sort arguments m = .error e m' →
      Run.FailsAsking swap xs m e m') ∧
    (f = .undefined → (∀ v ∈ xs, v ≠ .undefined → ∃ s, m.heap.text v = .ok s) →
      ∃ m', Run.arrayMethod (evaluator n).call a .sort arguments m = .ok (.array a) m') := by
  intro f swap xs
  have hrun : Run.arrayMethod (evaluator n).call a .sort arguments m = _ := Run.run_sort a hf m
  have hends := Run.onlyAsks_sort swap xs m m .nothing
  rw [hrun]
  cases hsort : Run.sort swap xs m with
  | ok ys m₁ =>
    rw [hsort] at hends
    obtain ⟨hsorts, hasks⟩ := hends
    refine ⟨?_, by rintro e m' ⟨⟩, fun _ _ => ⟨_, rfl⟩⟩
    rintro v m' ⟨⟩
    refine ⟨ys, m₁, rfl, hasks, rfl, Run.items_sorted hf hasks hsorts.perm, hsorts.perm, ?_, ?_⟩
    · intro hfunction order horder hsigns
      have hswap : swap = Run.callOrder (evaluator n).call f := if_pos hfunction
      rw [hswap] at hsorts
      have hfollow := hsigns.follow
      exact ⟨hsorts.isAscending horder hfollow (List.Subset.refl xs), hsorts.isStable horder hfollow⟩
    · intro hnone
      have hswap : swap = Run.textOrder := if_neg (by rw [hnone]; exact Bool.false_ne_true)
      rw [hswap] at hsorts hasks
      have horder : IsWeakOrder m.heap.textualOrder xs := m.heap.isWeakOrder_textualOrder xs
      have hfollow := Run.follow_textOrder xs m
      exact ⟨Run.asks_textOrder hasks, hsorts.isAscending horder hfollow (List.Subset.refl xs),
        hsorts.isStable horder hfollow⟩
  | error e m₁ =>
    rw [hsort] at hends
    refine ⟨by rintro v m' ⟨⟩, ?_, ?_⟩
    · rintro e' m' ⟨⟩
      exact hends
    · intro hnone htexts
      have hswap : swap = Run.textOrder := if_neg (by rw [hnone]; exact Bool.false_ne_true)
      rw [hswap] at hends
      -- Comparing texts changes nothing, so the texts that there are at the beginning are there still.
      obtain ⟨m₂, v, w, hasks, hv, hw, hfail⟩ := hends
      obtain rfl := Run.asks_textOrder hasks
      exact absurd hfail (Run.textOrder_ne_error htexts hv hw e)

/-- The elements `undefined`, `"b"`, `undefined` and `"a"`. -/
def unsortedItems : List Value := [.undefined, .string "b", .undefined, .string "a"]

/-- Numbers and texts that are not in order are put in order, with `undefined` at the end. -/
theorem unsorted_items_are_sorted :
    let m : Machine := { stdin := ⟨[]⟩, checkpoints := 0, heap := { arrays := #[unsortedItems.toArray] } }
    ∃ m', Run.arrayMethod (evaluator 1).call ⟨0⟩ .sort [] m = .ok (.array ⟨0⟩) m' ∧
      (m'.heap.items ⟨0⟩).toList.Perm unsortedItems ∧
      IsAscending m.heap.textualOrder (m'.heap.items ⟨0⟩).toList := by
  intro m
  have htexts : ∀ v ∈ unsortedItems, v ≠ .undefined → ∃ s, m.heap.text v = .ok s := by
    intro v hv hne
    simp only [unsortedItems, List.mem_cons, List.not_mem_nil, or_false] at hv
    obtain rfl | rfl | rfl | rfl := hv
    · exact absurd rfl hne
    · exact ⟨"b", rfl⟩
    · exact absurd rfl hne
    · exact ⟨"a", rfl⟩
  obtain ⟨hsorted, -, hreturns⟩ := array_is_sorted 1 m ⟨0⟩ [] (Or.inl rfl)
  obtain ⟨m', hrun⟩ := hreturns rfl htexts
  obtain ⟨ys, m₁, -, -, -, hitems, hperm, -, horder⟩ := hsorted _ m' hrun
  rw [← hitems] at hperm horder
  exact ⟨m', hrun, hperm, (horder rfl).2.1⟩

end Snippet.Script
