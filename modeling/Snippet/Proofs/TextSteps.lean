import Mathlib.Data.Finset.Card
import Mathlib.Order.Monotone.Basic
import Snippet.Proofs.ErrorText

/-!
How many steps the text of a value takes. A conversion follows the elements of arrays, which may be nested up
to a fixed depth, and the names and messages of errors. If it ends it passes no error twice on its way, so as
many steps are enough as there are objects, each with the arrays in front of it. The text of a value is
therefore the same for any larger number of steps.
-/

namespace Snippet.Script

theorem GoesOn.trans {α : Type} {x y z : Except TextFault α} (h : GoesOn x y) (h' : GoesOn y z) :
    GoesOn x z := by
  obtain hcut | rfl := h
  · exact Or.inl hcut
  · exact h'

/-- Two conversions each of which goes on as the other one are the same. -/
theorem GoesOn.antisymm {α : Type} {x y : Except TextFault α} (h : GoesOn x y) (h' : GoesOn y x) :
    x = y := by
  obtain hcut | hsame := h
  · obtain hcut' | hsame' := h'
    · rw [hcut, hcut']
    · exact hsame'
  · exact hsame.symm

namespace Heap

variable (h : Heap)

theorem text_goesOn_of_le {n k : Nat} (hnk : n ≤ k) :
    (∀ v, GoesOn (h.textWithin n v) (h.textWithin k v)) ∧
      ∀ around a, GoesOn (h.joinWithin n around a) (h.joinWithin k around a) := by
  induction k, hnk using Nat.le_induction with
  | base => exact ⟨fun _ => GoesOn.refl _, fun _ _ => GoesOn.refl _⟩
  | succ k _ ih =>
    obtain ⟨htext, hjoin⟩ := h.text_goesOn k
    exact ⟨fun v => (ih.1 v).trans (htext v), fun around a => (ih.2 around a).trans (hjoin around a)⟩

/-- Objects convert in `K` steps as they do in fewer than `m` steps, if they do that at all. -/
def SettledBelow (m K : Nat) : Prop :=
  ∀ k < m, ∀ o, GoesOn (h.textWithin k (.object o)) (h.textWithin K (.object o))

variable {h} {m K : Nat}

theorem SettledBelow.mono {k : Nat} (hK : h.SettledBelow m K) (hk : k ≤ m) : h.SettledBelow k K :=
  fun j hj => hK j (Nat.lt_of_lt_of_le hj hk)

/-- An array needs a step for every further array that it may contain; by induction on the steps. -/
theorem SettledBelow.join (hK : h.SettledBelow m K) (around : List ArrayRef)
    (hd : around.length ≤ maxDepth) (a : ArrayRef) :
    GoesOn (h.joinWithin m around a)
      (h.joinWithin (K + (maxDepth - around.length) + 1) around a) := by
  induction m generalizing around a with
  | zero => exact Or.inl rfl
  | succ m ih =>
    unfold joinWithin
    split
    · exact GoesOn.refl _
    · split
      · exact GoesOn.refl _
      · rename_i hroom
        refine GoesOn.bind (GoesOn.mapM (fun v => ?_) _) fun parts => GoesOn.refl _
        have hinside : (a :: around).length ≤ maxDepth := Nat.lt_of_not_le hroom
        have hsteps : K + (maxDepth - around.length) =
            K + (maxDepth - (a :: around).length) + 1 := by
          rw [List.length_cons] at hinside ⊢
          omega
        cases v with
        | undefined => exact GoesOn.refl _
        | null => exact GoesOn.refl _
        | array inner =>
          dsimp only
          rw [hsteps]
          exact ih (hK.mono (Nat.le_succ m)) _ hinside inner
        | object o =>
          exact (hK m (Nat.lt_succ_self m) o).trans ((h.text_goesOn_of_le (Nat.le_add_right K _)).1 _)
        | _ => exact Or.inr (by simp only [textWithin])

/-- A value takes the steps of the errors in it and those of the arrays in front of them. -/
theorem SettledBelow.text (hK : h.SettledBelow m K) {k : Nat} (hk : k < m) (v : Value) :
    GoesOn (h.textWithin k v) (h.textWithin (K + maxDepth + 2) v) := by
  cases v with
  | array a =>
    cases k with
    | zero => exact Or.inl rfl
    | succ k =>
      unfold textWithin
      have hbelow : h.SettledBelow k K := hK.mono (by omega)
      obtain hcut | hsame := hbelow.join [] (Nat.zero_le maxDepth) a
      · rw [hcut]
        exact Or.inl rfl
      · rw [List.length_nil, Nat.sub_zero] at hsame
        rw [hsame]
        exact GoesOn.refl _
  | object o =>
    have hle : K ≤ K + maxDepth + 2 := by omega
    exact (hK k hk o).trans ((h.text_goesOn_of_le hle).1 _)
  | _ => exact Or.inr (by simp only [textWithin])

/-- With a step more than before, an error takes the steps of its name and its message and one more. -/
theorem SettledBelow.succ (hK : h.SettledBelow m K) : h.SettledBelow (m + 1) (K + (maxDepth + 3)) := by
  intro k hk o
  cases k with
  | zero => exact Or.inl rfl
  | succ k =>
    change GoesOn _ (h.textWithin (K + maxDepth + 2 + 1) (.object o))
    cases ho : (h.object o).isError with
    | true =>
      have hmember (key : String) :
          GoesOn (h.memberTextWithin k o key) (h.memberTextWithin (K + maxDepth + 2) o key) := by
        unfold memberTextWithin
        split
        · exact hK.text (by omega) _
        · exact GoesOn.refl _
      rw [textWithin_error h ho, textWithin_error h ho]
      exact (hmember _).bind fun name => (hmember _).bind fun message => GoesOn.refl _
    | false =>
      unfold textWithin
      dsimp only
      rw [ho]
      exact GoesOn.refl _

variable (h)

def stepsFor (errors : Nat) : Nat := (errors + 1) * (maxDepth + 3)

def settledObjects (errors : Nat) : Finset Nat :=
  (Finset.range h.objects.size).filter fun i =>
    h.textWithin (stepsFor errors) (.object ⟨i⟩) ≠ .error .endless

theorem stepsFor_succ (errors : Nat) : stepsFor (errors + 1) = stepsFor errors + (maxDepth + 3) :=
  Nat.succ_mul _ _

/-- What is no object of the heap is converted as an empty object. -/
theorem textWithin_missing {o : ObjectRef} (ho : h.objects.size ≤ o.address) (n : Nat) :
    h.textWithin (n + 1) (.object o) = .ok "[object Object]" := by
  have hobject : h.object o = {} := by
    unfold object
    rw [Array.getD_eq_getD_getElem?, Array.getElem?_eq_none ho]
    rfl
  unfold textWithin
  dsimp only
  rw [hobject]
  rfl

theorem exists_stepsFor (errors : Nat) : ∃ n, stepsFor errors = n + 1 :=
  Nat.exists_eq_succ_of_ne_zero (Nat.mul_pos (Nat.succ_pos errors) (Nat.succ_pos _)).ne'

variable {h}

theorem mem_settledObjects {errors : Nat} {o : ObjectRef} (ho : o.address < h.objects.size) :
    o.address ∈ h.settledObjects errors ↔
      h.textWithin (stepsFor errors) (.object o) ≠ .error .endless := by
  unfold settledObjects
  rw [Finset.mem_filter, Finset.mem_range]
  exact ⟨And.right, And.intro ho⟩

theorem text_goesOn_stepsFor (n : Nat) (o : ObjectRef) :
    GoesOn (h.textWithin (stepsFor n) (.object o)) (h.textWithin (stepsFor (n + 1)) (.object o)) := by
  have hle : stepsFor n ≤ stepsFor (n + 1) := by
    rw [stepsFor_succ]
    exact Nat.le_add_right _ _
  exact (h.text_goesOn_of_le hle).1 _

theorem settledObjects_subset (n : Nat) : h.settledObjects n ⊆ h.settledObjects (n + 1) := by
  intro i hi
  have hbelow : i < h.objects.size := Finset.mem_range.mp (Finset.mem_filter.mp hi).1
  rw [mem_settledObjects (o := ⟨i⟩) hbelow] at hi ⊢
  obtain hcut | hsame := h.text_goesOn_stepsFor n ⟨i⟩
  · exact absurd hcut hi
  · rwa [hsame]

/-- If no further object has a text when a conversion may pass one error more, then none ever has. -/
theorem settledBelow_of_stable {n : Nat} (hstable : h.settledObjects (n + 1) = h.settledObjects n)
    (m : Nat) : h.SettledBelow m (stepsFor n) := by
  induction m with
  | zero => exact fun k hk => absurd hk (Nat.not_lt_zero k)
  | succ m ih =>
    intro k hk o
    have hmore := ih.succ k hk o
    rw [← stepsFor_succ] at hmore
    obtain hcut | hsame := h.text_goesOn_stepsFor n o
    · -- What is cut off here is cut off when an error more may be passed, and so with `k` steps.
      have hbelow : o.address < h.objects.size := by
        by_contra hmissing
        obtain ⟨i, hi⟩ := exists_stepsFor n
        rw [hi, h.textWithin_missing (Nat.le_of_not_lt hmissing)] at hcut
        cases hcut
      have hcut' : h.textWithin (stepsFor (n + 1)) (.object o) = .error .endless := by
        by_contra hsettled
        rw [← ne_eq, ← mem_settledObjects hbelow, hstable, mem_settledObjects hbelow] at hsettled
        exact hsettled hcut
      exact Or.inl (hmore.elim id fun hsame => hsame.symm.trans hcut')
    · rw [← hsame]
      exact hmore

theorem settledObjects_subset_of_stable {n : Nat}
    (hstable : h.settledObjects (n + 1) = h.settledObjects n) (k : Nat) :
    h.settledObjects k ⊆ h.settledObjects n := by
  intro i hi
  have hbelow : i < h.objects.size := Finset.mem_range.mp (Finset.mem_filter.mp hi).1
  rw [mem_settledObjects (o := ⟨i⟩) hbelow] at hi ⊢
  obtain hcut | hsame := settledBelow_of_stable hstable _ (stepsFor k) (Nat.lt_succ_self _) ⟨i⟩
  · exact absurd hcut hi
  · rwa [hsame]

variable (h)

/-- Whatever an object comes to, it comes to in the steps that are enough to pass every object. -/
theorem settledBelow_all (m : Nat) : h.SettledBelow m (stepsFor h.objects.size) := by
  have hmono : Monotone fun n => (h.settledObjects n).card :=
    monotone_nat_of_le_succ fun n => Finset.card_le_card (settledObjects_subset n)
  have hbound (n : Nat) : (h.settledObjects n).card ≤ h.objects.size :=
    (Finset.card_filter_le _ _).trans (Finset.card_range _).le
  have hstable {n : Nat} (hcard : (h.settledObjects n).card = (h.settledObjects (n + 1)).card) :
      h.settledObjects (n + 1) = h.settledObjects n :=
    (Finset.eq_of_subset_of_card_le (settledObjects_subset n) hcard.ge).symm
  have hstays (n : Nat) (hcard : (h.settledObjects n).card = (h.settledObjects (n + 1)).card) :
      (h.settledObjects (n + 1)).card = (h.settledObjects (n + 2)).card := by
    have hback := settledObjects_subset_of_stable (hstable hcard) (n + 2)
    exact (Finset.card_le_card (settledObjects_subset (n + 1))).antisymm
      ((Finset.card_le_card hback).trans hcard.le)
  have hlast := Nat.stabilises_of_monotone hmono hbound hstays (Nat.le_succ h.objects.size)
  exact settledBelow_of_stable (hstable hlast.symm) m

theorem textFuel_eq : h.textFuel = stepsFor h.objects.size + (maxDepth + 3) :=
  stepsFor_succ h.objects.size

/-- With a step less than a text is given, or with any more, the text is the same. -/
theorem textWithin_eq_text {n : Nat} (hn : h.textFuel ≤ n + 1) (v : Value) :
    h.textWithin n v = h.text v := by
  rw [textFuel_eq] at hn
  have hall (k : Nat) :
      GoesOn (h.textWithin k v) (h.textWithin (stepsFor h.objects.size + maxDepth + 2) v) :=
    (h.settledBelow_all (k + 1)).text (Nat.lt_succ_self k) v
  have hsame (k : Nat) (hk : stepsFor h.objects.size + maxDepth + 2 ≤ k) :
      h.textWithin k v = h.textWithin (stepsFor h.objects.size + maxDepth + 2) v :=
    (hall k).antisymm ((h.text_goesOn_of_le hk).1 v)
  rw [hsame n (by omega), Heap.text, hsame h.textFuel (by rw [textFuel_eq]; omega)]

/-- With a step less than the elements of an array are joined in, or with any more, the outcome is the
same. -/
theorem joinWithin_eq_joinWithin {n : Nat} (hn : h.textFuel ≤ n + 1) (a : ArrayRef) :
    h.joinWithin n [] a = h.joinWithin h.textFuel [] a := by
  rw [textFuel_eq] at hn
  have hall (k : Nat) :
      GoesOn (h.joinWithin k [] a) (h.joinWithin (stepsFor h.objects.size + maxDepth + 1) [] a) :=
    (h.settledBelow_all k).join [] (Nat.zero_le maxDepth) a
  have hsame (k : Nat) (hk : stepsFor h.objects.size + maxDepth + 1 ≤ k) :
      h.joinWithin k [] a = h.joinWithin (stepsFor h.objects.size + maxDepth + 1) [] a :=
    (hall k).antisymm ((h.text_goesOn_of_le hk).2 [] a)
  rw [hsame n (by omega), hsame h.textFuel (by rw [textFuel_eq]; omega)]

end Heap

end Snippet.Script
