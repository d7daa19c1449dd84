import Mathlib.Data.Finset.Card
import Mathlib.Data.Finset.Range
import Mathlib.Data.List.Chain
import Mathlib.Logic.Relation
import Snippet.Proofs.Ending

/-!
Which arrays have a number. An array of a single element has the number of that element, so a conversion
follows arrays of a single array to the last one. It comes to an end unless the arrays that it follows form
a ring; in a ring it does not end in any number of steps.
-/

namespace Snippet

/-- A chain with more members than there are places for them leads from one of them back to itself. -/
theorem exists_ring_of_long_chain {α : Type} {r : α → α → Prop} {place : α → Nat}
    (hinj : Function.Injective place) {n : Nat} {l : List α} (hchain : l.IsChain r)
    (hplace : ∀ a ∈ l, place a < n) (hlong : n < l.length) : ∃ a ∈ l, Relation.TransGen r a a := by
  by_contra hnone
  have hpairwise : l.Pairwise (Relation.TransGen r) := by
    rw [← List.isChain_iff_pairwise]
    exact hchain.imp fun _ _ h => Relation.TransGen.single h
  have hdistinct : l.Nodup := by
    apply hpairwise.imp_of_mem
    intro a b ha _ hab heq
    rw [← heq] at hab
    exact hnone ⟨a, ha, hab⟩
  have hplaces : (l.map place).Nodup := hdistinct.map hinj
  have hsub : (l.map place).toFinset ⊆ Finset.range n := by
    intro i hi
    rw [List.mem_toFinset, List.mem_map] at hi
    obtain ⟨a, ha, rfl⟩ := hi
    exact Finset.mem_range.mpr (hplace a ha)
  have hcard := Finset.card_le_card hsub
  rw [List.toFinset_card_of_nodup hplaces, List.length_map, Finset.card_range] at hcard
  omega

namespace Script

namespace Heap

variable {h : Heap} {a b : ArrayRef} {v : Value} {n : Nat} {x : Float}

def Unwraps (h : Heap) (a b : ArrayRef) : Prop := h.items a = #[.array b]

def UnwrapsForever (h : Heap) (a : ArrayRef) : Prop :=
  ∃ b, Relation.ReflTransGen h.Unwraps a b ∧ Relation.TransGen h.Unwraps b b

def lastNumber? (h : Heap) (a : ArrayRef) : Option Float :=
  match (h.items a).toList with
  | [] => some 0.0
  | [v] => h.numberWithin? 0 v
  | _ => some Number.nan

theorem numberWithin?_array (n : Nat) (a : ArrayRef) :
    h.numberWithin? (n + 1) (.array a) =
      match (h.items a).toList with
      | [] => some 0.0
      | [v] => h.numberWithin? n v
      | _ => some Number.nan := by
  rw [Heap.numberWithin?]
  rcases h.items a with ⟨_ | ⟨v, _ | ⟨w, rest⟩⟩⟩ <;> rfl

/-- What is not an array has its number at once. -/
theorem numberWithin?_of_not_array (hv : ∀ a, v ≠ .array a) (n : Nat) :
    h.numberWithin? n v = h.numberWithin? 0 v := by
  cases v with
  | array a => exact absurd rfl (hv a)
  | _ => simp only [Heap.numberWithin?]

theorem Unwraps.numberWithin? (hab : h.Unwraps a b) (n : Nat) :
    h.numberWithin? (n + 1) (.array a) = h.numberWithin? n (.array b) := by
  rw [numberWithin?_array, hab]

/-- An array unwraps to another one, or it has a number of its own in one step as in any more. -/
theorem unwraps_or_last (h : Heap) (a : ArrayRef) :
    (∃ b, h.Unwraps a b) ∨
      h.lastNumber? a ≠ none ∧ ∀ n, h.numberWithin? (n + 1) (.array a) = h.lastNumber? a := by
  simp only [numberWithin?_array]
  unfold lastNumber? Unwraps
  rcases h.items a with ⟨_ | ⟨v, _ | ⟨w, rest⟩⟩⟩
  · exact Or.inr ⟨Option.some_ne_none _, fun n => rfl⟩
  · by_cases hv : ∃ b, v = .array b
    · obtain ⟨b, rfl⟩ := hv
      exact Or.inl ⟨b, rfl⟩
    · have hscalar : ∀ b, v ≠ .array b := fun b hb => hv ⟨b, hb⟩
      refine Or.inr ⟨?_, numberWithin?_of_not_array hscalar⟩
      cases v with
      | array b => exact absurd rfl (hscalar b)
      | _ => simp [Heap.numberWithin?]
  · exact Or.inr ⟨Option.some_ne_none _, fun n => rfl⟩

theorem lastNumber?_of_unwraps (hab : h.Unwraps a b) : h.lastNumber? a = none := by
  unfold lastNumber?
  rw [hab]
  simp [Heap.numberWithin?]

/-- Only arrays of the heap unwrap to others. -/
theorem Unwraps.lt_size (hab : h.Unwraps a b) : a.address < h.arrays.size := by
  by_contra hmissing
  have hempty : h.items a = #[] := by
    unfold items
    rw [Array.getD_eq_getD_getElem?, Array.getElem?_eq_none (Nat.le_of_not_lt hmissing)]
    rfl
  rw [Unwraps, hempty] at hab
  simp at hab

/-- A conversion that is cut off has followed as many arrays as it had steps. -/
theorem exists_chain_of_none (hnone : h.numberWithin? n (.array a) = none) :
    ∃ l : List ArrayRef, l.length = n ∧ (∀ b ∈ l.head?, b = a) ∧ l.IsChain h.Unwraps ∧
      ∀ b ∈ l, Relation.ReflTransGen h.Unwraps a b ∧ b.address < h.arrays.size := by
  induction n generalizing a with
  | zero => exact ⟨[], rfl, by simp, List.isChain_nil, by simp⟩
  | succ n ih =>
    rcases unwraps_or_last h a with ⟨b, hab⟩ | ⟨hlast, hsteps⟩
    · rw [hab.numberWithin?] at hnone
      obtain ⟨l, hlength, hhead, hchain, hmem⟩ := ih hnone
      refine ⟨a :: l, congrArg (· + 1) hlength, by simp, ?_, ?_⟩
      · rw [List.isChain_cons]
        refine ⟨fun c hc => ?_, hchain⟩
        rw [hhead c hc]
        exact hab
      · intro c hc
        rcases List.mem_cons.mp hc with rfl | hc
        · exact ⟨.refl, hab.lt_size⟩
        · exact ⟨.head hab (hmem c hc).1, (hmem c hc).2⟩
    · rw [hsteps] at hnone
      exact absurd hnone hlast

/-- There are not as many arrays as a conversion has steps, so one that is cut off has come to an array
twice. -/
theorem unwrapsForever_of_none (hnone : h.numberWithin? (h.arrays.size + 1) (.array a) = none) :
    h.UnwrapsForever a := by
  obtain ⟨l, hlength, -, hchain, hmem⟩ := exists_chain_of_none hnone
  have hplaces : Function.Injective ArrayRef.address := fun a b hab => by
    cases a
    cases b
    exact congrArg ArrayRef.mk hab
  have hlong : h.arrays.size < l.length := by omega
  obtain ⟨b, hb, hring⟩ := exists_ring_of_long_chain hplaces hchain (fun b hb => (hmem b hb).2) hlong
  exact ⟨b, (hmem b hb).1, hring⟩

theorem UnwrapsForever.next (ha : h.UnwrapsForever a) : ∃ b, h.Unwraps a b ∧ h.UnwrapsForever b := by
  obtain ⟨c, hreach, hring⟩ := ha
  rcases hreach.cases_head with rfl | ⟨b, hab, hbc⟩
  · -- The first array stands in the ring itself.
    obtain ⟨b, hab, hba⟩ := Relation.TransGen.head'_iff.mp hring
    exact ⟨b, hab, a, hba, hring⟩
  · exact ⟨b, hab, c, hbc, hring⟩

theorem UnwrapsForever.numberWithin?_eq_none (ha : h.UnwrapsForever a) (n : Nat) :
    h.numberWithin? n (.array a) = none := by
  induction n generalizing a with
  | zero => simp [Heap.numberWithin?]
  | succ n ih =>
    obtain ⟨b, hab, hb⟩ := ha.next
    rw [hab.numberWithin?]
    exact ih hb

/-- A number that is found is found in any larger number of steps. -/
theorem numberWithin?_succ (hx : h.numberWithin? n v = some x) : h.numberWithin? (n + 1) v = some x := by
  induction n generalizing v with
  | zero =>
    have hscalar : ∀ a, v ≠ .array a := by
      rintro a rfl
      simp [Heap.numberWithin?] at hx
    rw [numberWithin?_of_not_array hscalar]
    exact hx
  | succ n ih =>
    cases v with
    | array a =>
      rcases unwraps_or_last h a with ⟨b, hab⟩ | ⟨-, hsteps⟩
      · rw [hab.numberWithin?] at hx ⊢
        exact ih hx
      · rw [hsteps] at hx ⊢
        exact hx
    | _ => exact hx

theorem numberWithin?_of_le {k : Nat} (hnk : n ≤ k) (hx : h.numberWithin? n v = some x) :
    h.numberWithin? k v = some x := by
  induction k, hnk using Nat.le_induction with
  | base => exact hx
  | succ k _ ih => exact numberWithin?_succ ih

/-- Only an array from which the unwrapping does not end has no number. -/
theorem number?_eq_none_iff : h.number? v = none ↔ ∃ a, v = .array a ∧ h.UnwrapsForever a := by
  constructor
  · intro hnone
    cases v with
    | array a => exact ⟨a, rfl, unwrapsForever_of_none hnone⟩
    | _ => simp [number?, Heap.numberWithin?] at hnone
  · rintro ⟨a, rfl, ha⟩
    exact ha.numberWithin?_eq_none _

/-- The steps that a conversion is given are enough to find a number that is found in any. -/
theorem number?_of_numberWithin? (hx : h.numberWithin? n v = some x) : h.number? v = some x := by
  cases hv : h.number? v with
  | none =>
    obtain ⟨a, rfl, ha⟩ := number?_eq_none_iff.mp hv
    rw [ha.numberWithin?_eq_none] at hx
    cases hx
  | some y =>
    have hy := numberWithin?_of_le (Nat.le_max_right n (h.arrays.size + 1)) hv
    rw [numberWithin?_of_le (Nat.le_max_left _ _) hx] at hy
    exact hy.symm

/-- The number of an array is that of the last one it unwraps to. -/
theorem exists_last_of_numberWithin? (hx : h.numberWithin? n (.array a) = some x) :
    ∃ b, Relation.ReflTransGen h.Unwraps a b ∧ h.lastNumber? b = some x := by
  induction n generalizing a with
  | zero => simp [Heap.numberWithin?] at hx
  | succ n ih =>
    rcases unwraps_or_last h a with ⟨b, hab⟩ | ⟨-, hsteps⟩
    · rw [hab.numberWithin?] at hx
      obtain ⟨c, hbc, hc⟩ := ih hx
      exact ⟨c, .head hab hbc, hc⟩
    · rw [hsteps] at hx
      exact ⟨a, .refl, hx⟩

/-- The number of the last array is found from all that unwrap to it. -/
theorem exists_numberWithin?_of_last (hab : Relation.ReflTransGen h.Unwraps a b)
    (hx : h.lastNumber? b = some x) : ∃ n, h.numberWithin? n (.array a) = some x := by
  induction hab using Relation.ReflTransGen.head_induction_on with
  | refl =>
    rcases unwraps_or_last h b with ⟨c, hbc⟩ | ⟨-, hsteps⟩
    · rw [lastNumber?_of_unwraps hbc] at hx
      cases hx
    · exact ⟨1, (hsteps 0).trans hx⟩
  | head hac _ ih =>
    obtain ⟨n, hn⟩ := ih
    exact ⟨n + 1, (hac.numberWithin? n).trans hn⟩

/-- A value has a number, unless it is an array that leads into a ring of arrays of a single array; then it
has none in any number of steps. The number of an array is that of the last one it unwraps to, which is empty
or has several elements or a single one that is no array. -/
theorem number_ends_outside_rings (h : Heap) (v : Value) :
    (h.number? v = none ↔ ∃ a, v = .array a ∧ h.UnwrapsForever a) ∧
      ((∀ n, h.numberWithin? n v = none) ↔ h.number? v = none) ∧
      ∀ a x, h.number? (.array a) = some x ↔
        ∃ b, Relation.ReflTransGen h.Unwraps a b ∧ h.lastNumber? b = some x := by
  refine ⟨number?_eq_none_iff, ⟨fun hnone => hnone _, fun hnone n => ?_⟩, fun a x => ⟨?_, ?_⟩⟩
  · obtain ⟨a, rfl, ha⟩ := number?_eq_none_iff.mp hnone
    exact ha.numberWithin?_eq_none n
  · exact exists_last_of_numberWithin?
  · rintro ⟨b, hab, hx⟩
    obtain ⟨n, hn⟩ := exists_numberWithin?_of_last hab hx
    exact number?_of_numberWithin? hn

end Heap

def Ending.endsInRing (a : ArrayRef) : Ending → Bool
  -- Whether a run comes to a conversion that does not end while an array is the only element of
  -- itself.
  | .failed .endless m =>
    match (m.heap.items a).toList with
    | [.array b] => b == a
    | _ => false
  | _ => false

/-- A run that is found to end in a ring has an array that is its own only element. -/
theorem Ending.exists_of_endsInRing {a : ArrayRef} {ending : Ending} (h : ending.endsInRing a = true) :
    ∃ m, ending = .failed .endless m ∧ m.heap.Unwraps a a := by
  unfold Ending.endsInRing at h
  split at h
  · rename_i m
    split at h
    · rename_i b hitems
      rw [beq_iff_eq] at h
      refine ⟨m, rfl, ?_⟩
      have hlist : (m.heap.items a).toList.toArray = m.heap.items a := Array.toArray_toList
      rw [Heap.Unwraps, ← hlist, hitems, h]
    · cases h
  · cases h

/-- An array that is the only element of itself has no number, in whatever number of steps. A script that
makes one and asks for its number does not come to an end. -/
theorem ring_has_no_number :
    ∃ m a, Ending.of "const a = []; a.push(a); +a;" "" ⟨20000⟩ = .failed .endless m ∧
      m.heap.Unwraps a a ∧ ∀ n, m.heap.numberWithin? n (.array a) = none := by
  have hends : (Ending.of "const a = []; a.push(a); +a;" "" ⟨20000⟩).endsInRing ⟨0⟩ = true := by
    decide +kernel
  obtain ⟨m, hm, hring⟩ := Ending.exists_of_endsInRing hends
  have hforever : m.heap.UnwrapsForever ⟨0⟩ := ⟨⟨0⟩, .refl, .single hring⟩
  exact ⟨m, ⟨0⟩, hm, hring, hforever.numberWithin?_eq_none⟩

end Script

end Snippet
