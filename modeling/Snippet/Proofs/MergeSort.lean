import Mathlib.Data.List.Perm.Basic
import Snippet.Proofs.Steady

/-!
Sorting by merging, with an order that is asked for. The order may be anything: it may fail, change the state
and answer differently every time. What a sort gives is made of the answers that it has had: a permutation in
any case, and in order and stable if the answers are those of one order.
-/

namespace Snippet.Script

inductive Merges (swaps : Value → Value → Bool → Prop) : List Value → List Value → List Value → Prop
  -- Two lists are merged into a third one by comparing their first elements: where the second one
  -- has to go first, it does.
  | onlyRight (right : List Value) : Merges swaps [] right right
  | onlyLeft (left : List Value) : Merges swaps left [] left
  | first {v w : Value} {left right merged : List Value} :
    swaps v w false → Merges swaps left (w :: right) merged →
      Merges swaps (v :: left) (w :: right) (v :: merged)
  | second {v w : Value} {left right merged : List Value} :
    swaps v w true → Merges swaps (v :: left) right merged →
      Merges swaps (v :: left) (w :: right) (w :: merged)

inductive Sorts (swaps : Value → Value → Bool → Prop) : List Value → List Value → Prop
  | short {xs : List Value} : xs.length ≤ 1 → Sorts swaps xs xs
  | halves {left right left' right' sorted : List Value} :
    Sorts swaps left left' → Sorts swaps right right' → Merges swaps left' right' sorted →
      Sorts swaps (left ++ right) sorted

structure IsWeakOrder (order : Value → Value → Ordering) (xs : List Value) : Prop where
  swap : ∀ v ∈ xs, ∀ w ∈ xs, order w v = (order v w).swap
  trans : ∀ u ∈ xs, ∀ v ∈ xs, ∀ w ∈ xs, (order u v).isLE → (order v w).isLE → (order u w).isLE

def IsAscending (order : Value → Value → Ordering) (xs : List Value) : Prop :=
  xs.Pairwise fun v w => (order v w).isLE

def isEqualTo (order : Value → Value → Ordering) (v w : Value) : Bool := order v w == .eq

def IsStable (order : Value → Value → Ordering) (xs ys : List Value) : Prop :=
  ∀ v ∈ xs, ys.filter (isEqualTo order v) = xs.filter (isEqualTo order v)

theorem IsWeakOrder.isLE_refl {order : Value → Value → Ordering} {xs : List Value} (ho : IsWeakOrder order xs)
    {v : Value} (hv : v ∈ xs) : (order v v).isLE := by
  have hself := ho.swap v hv v hv
  cases h : order v v with
  | gt =>
    rw [h] at hself
    cases hself
  | _ => rfl

/-- What is not smaller than a greater element is not equal to the smaller one, nor to what is equal to that. -/
theorem IsWeakOrder.not_isEqualTo {order : Value → Value → Ordering} {xs : List Value}
    (ho : IsWeakOrder order xs) {u v w x : Value} (hu : u ∈ xs) (hv : v ∈ xs) (hw : w ∈ xs) (hx : x ∈ xs)
    (hvw : order v w = .gt) (hvx : (order v x).isLE) (huw : isEqualTo order u w = true) :
    ¬ isEqualTo order u x = true := by
  intro hux
  have hxu : (order x u).isLE := by
    rw [ho.swap u hu x hx, LawfulBEq.eq_of_beq hux]
    rfl
  have hvu : (order v u).isLE := ho.trans v hv x hx u hu hvx hxu
  have huw : (order u w).isLE := by
    rw [LawfulBEq.eq_of_beq huw]
    rfl
  have hle : (order v w).isLE := ho.trans v hv u hu w hw hvu huw
  rw [hvw] at hle
  cases hle

section Answers

variable {swaps : Value → Value → Bool → Prop} {xs ys left right merged : List Value}

theorem Merges.perm (h : Merges swaps left right merged) : merged.Perm (left ++ right) := by
  induction h with
  | onlyRight right => exact .refl right
  | onlyLeft left => rw [List.append_nil]
  | first _ _ ih => exact ih.cons _
  | second _ _ ih => exact (ih.cons _).trans List.perm_middle.symm

theorem Sorts.perm (h : Sorts swaps xs ys) : ys.Perm xs := by
  induction h with
  | short _ => exact .refl _
  | halves _ _ hmerge ihleft ihright => exact hmerge.perm.trans (ihleft.append ihright)

def Follow (swaps : Value → Value → Bool → Prop) (order : Value → Value → Ordering) (xs : List Value) : Prop :=
  ∀ v ∈ xs, ∀ w ∈ xs, ∀ b, swaps v w b → (b = true ↔ order v w = .gt)

variable {order : Value → Value → Ordering} {all : List Value} {u v w : Value}

theorem Sorts.subset (h : Sorts swaps xs ys) (hxs : xs ⊆ all) : ys ⊆ all :=
  fun _ hv => hxs (h.perm.mem_iff.mp hv)

theorem Follow.isLE (hf : Follow swaps order all) (hv : v ∈ all) (hw : w ∈ all) (h : swaps v w false) :
    (order v w).isLE := by
  have hne : order v w ≠ .gt := fun hgt => Bool.false_ne_true ((hf v hv w hw false h).mpr hgt)
  exact Ordering.ne_gt_iff_isLE.mp hne

theorem Follow.isLE_swap (hf : Follow swaps order all) (ho : IsWeakOrder order all) (hv : v ∈ all)
    (hw : w ∈ all) (h : swaps v w true) : (order w v).isLE := by
  rw [ho.swap v hv w hw, (hf v hv w hw true h).mp rfl]
  rfl

/-- What is not greater than the first element of a list in order is not greater than any of them. -/
theorem IsWeakOrder.isLE_of_mem (ho : IsWeakOrder order all) (hv : v ∈ all) (hsub : w :: xs ⊆ all)
    (hxs : IsAscending order (w :: xs)) (hvw : (order v w).isLE) (hu : u ∈ w :: xs) : (order v u).isLE := by
  obtain ⟨hw, -⟩ := List.cons_subset.mp hsub
  obtain ⟨hfirst, -⟩ := List.pairwise_cons.mp hxs
  obtain rfl | hrest := List.mem_cons.mp hu
  · exact hvw
  · exact ho.trans v hv w hw u (hsub hu) hvw (hfirst u hrest)

section Merging

variable (ho : IsWeakOrder order all) (hf : Follow swaps order all) (hleft : left ⊆ all) (hright : right ⊆ all)
include ho hf hleft hright

/-- Merging two ascending lists makes an ascending one, since every comparison follows the order. -/
theorem Merges.isAscending (h : Merges swaps left right merged) (hl : IsAscending order left)
    (hr : IsAscending order right) : IsAscending order merged := by
  induction h with
  | onlyRight right => exact hr
  | onlyLeft left => exact hl
  | @first v w left right merged hvw hmerge ih =>
    obtain ⟨hv, hleft⟩ := List.cons_subset.mp hleft
    obtain ⟨hvl, hl⟩ := List.pairwise_cons.mp hl
    have hle : (order v w).isLE := hf.isLE hv (hright List.mem_cons_self) hvw
    refine List.pairwise_cons.mpr ⟨fun u hu => ?_, ih hleft hright hl hr⟩
    obtain hu | hu := List.mem_append.mp (hmerge.perm.mem_iff.mp hu)
    · exact hvl u hu
    · exact ho.isLE_of_mem hv hright hr hle hu
  | @second v w left right merged hvw hmerge ih =>
    obtain ⟨hw, hright⟩ := List.cons_subset.mp hright
    obtain ⟨hwr, hr⟩ := List.pairwise_cons.mp hr
    have hle : (order w v).isLE := hf.isLE_swap ho (hleft List.mem_cons_self) hw hvw
    refine List.pairwise_cons.mpr ⟨fun u hu => ?_, ih hleft hright hl hr⟩
    obtain hu | hu := List.mem_append.mp (hmerge.perm.mem_iff.mp hu)
    · exact ho.isLE_of_mem hw hleft hl hle hu
    · exact hwr u hu

/-- Of equal elements those of the left list come first. -/
theorem Merges.filter_eq (h : Merges swaps left right merged) (hl : IsAscending order left) (hu : u ∈ all) :
    merged.filter (isEqualTo order u) =
      left.filter (isEqualTo order u) ++ right.filter (isEqualTo order u) := by
  induction h with
  | onlyRight right => rfl
  | onlyLeft left => exact (List.append_nil _).symm
  | @first v w left right merged hvw hmerge ih =>
    have hrest := ih (List.cons_subset.mp hleft).2 hright (List.pairwise_cons.mp hl).2
    rw [List.filter_cons, List.filter_cons, hrest]
    split <;> rfl
  | @second v w left right merged hvw hmerge ih =>
    obtain ⟨hv, hsub⟩ := List.cons_subset.mp hleft
    obtain ⟨hw, hright⟩ := List.cons_subset.mp hright
    have hrest := ih hleft hright hl
    have hgt : order v w = .gt := (hf v hv w hw true hvw).mp rfl
    rw [List.filter_cons, hrest]
    split
    · -- No element of the left list is equal to the one that goes before it.
      rename_i huw
      have hnone : (v :: left).filter (isEqualTo order u) = [] := by
        refine List.filter_eq_nil_iff.mpr fun x hx => ?_
        have hvx : (order v x).isLE := ho.isLE_of_mem hv hleft hl (ho.isLE_refl hv) hx
        exact ho.not_isEqualTo hu hv hw (hleft hx) hgt hvx huw
      rw [hnone, List.nil_append, List.nil_append, List.filter_cons_of_pos huw]
    · rename_i huw
      rw [List.filter_cons_of_neg huw]

end Merging

/-- Sorting halves and merging them makes an ascending list; by induction on the length. -/
theorem Sorts.isAscending (ho : IsWeakOrder order all) (hf : Follow swaps order all) (hxs : xs ⊆ all)
    (h : Sorts swaps xs ys) : IsAscending order ys := by
  induction h with
  | @short xs hlength =>
    cases xs with
    | nil => exact List.Pairwise.nil
    | cons v rest =>
      obtain rfl : rest = [] := List.eq_nil_of_length_eq_zero (Nat.le_zero.mp (Nat.le_of_succ_le_succ hlength))
      exact List.pairwise_singleton _ v
  | @halves left right left' right' sorted hl hr hmerge ihleft ihright =>
    obtain ⟨hleft, hright⟩ := List.append_subset.mp hxs
    exact hmerge.isAscending ho hf (hl.subset hleft) (hr.subset hright) (ihleft hleft) (ihright hright)

/-- Elements that are equal to one another stay in the order in which they were. -/
theorem Sorts.filter_eq (ho : IsWeakOrder order all) (hf : Follow swaps order all) (hxs : xs ⊆ all)
    (h : Sorts swaps xs ys) (hu : u ∈ all) :
    ys.filter (isEqualTo order u) = xs.filter (isEqualTo order u) := by
  induction h with
  | short _ => rfl
  | @halves left right left' right' sorted hl hr hmerge ihleft ihright =>
    obtain ⟨hleft, hright⟩ := List.append_subset.mp hxs
    have hascending : IsAscending order left' := hl.isAscending ho hf hleft
    rw [hmerge.filter_eq ho hf (hl.subset hleft) (hr.subset hright) hascending hu, ihleft hleft,
      ihright hright, List.filter_append]

theorem Sorts.isStable (ho : IsWeakOrder order xs) (hf : Follow swaps order xs) (h : Sorts swaps xs ys) :
    IsStable order xs ys :=
  fun _ hv => h.filter_eq ho hf (List.Subset.refl xs) hv

end Answers

namespace Run

variable {swap : SwapTest} {xs : List Value} {start : Machine} {α β : Type} {V : α → Prop} {W : β → Prop}

/-- The states that come about by asking for the order of elements of a list and doing nothing else. -/
inductive Asks (swap : SwapTest) (xs : List Value) (start : Machine) : Machine → Prop
  | nothing : Asks swap xs start start
  | question {m m' : Machine} {v w : Value} {b : Bool} :
    Asks swap xs start m → v ∈ xs → w ∈ xs → swap v w m = .ok b m' → Asks swap xs start m'

def Answers (swap : SwapTest) (xs : List Value) (start : Machine) (v w : Value) (b : Bool) : Prop :=
  ∃ m m', Asks swap xs start m ∧ swap v w m = .ok b m'

def FailsAsking (swap : SwapTest) (xs : List Value) (start : Machine) (e : Fault) (m' : Machine) : Prop :=
  ∃ m v w, Asks swap xs start m ∧ v ∈ xs ∧ w ∈ xs ∧ swap v w m = .error e m'

def OnlyAsks (swap : SwapTest) (xs : List Value) (start : Machine) (V : α → Prop) (x : Run α) : Prop :=
  -- A computation that does nothing but ask for the order of elements, and fails only where a
  -- question does.
  ∀ m, Asks swap xs start m →
    match x m with
    | .ok a m' => V a ∧ Asks swap xs start m'
    | .error e m' => FailsAsking swap xs start e m'

namespace OnlyAsks

theorem pure {a : α} (ha : V a) : OnlyAsks swap xs start V (Pure.pure a) := fun _ hm => ⟨ha, hm⟩

/-- Two parts that only ask for the order of elements do nothing else between them. -/
theorem bind {x : Run α} {f : α → Run β} (hx : OnlyAsks swap xs start V x)
    (hf : ∀ a, V a → OnlyAsks swap xs start W (f a)) : OnlyAsks swap xs start W (x >>= f) := by
  intro m hm
  have hends := hx m hm
  cases h : x m with
  | ok a m' =>
    rw [h] at hends
    rw [run_bind_ok h]
    exact hf a hends.1 m' hends.2
  | error e m' =>
    rw [h] at hends
    rw [run_bind_error h]
    exact hends

/-- What is known of the results may be weakened. -/
theorem imp {V' : α → Prop} {x : Run α} (hx : OnlyAsks swap xs start V x) (hV : ∀ a, V a → V' a) :
    OnlyAsks swap xs start V' x := by
  intro m hm
  have hends := hx m hm
  cases h : x m with
  | ok a m' =>
    rw [h] at hends
    exact ⟨hV a hends.1, hends.2⟩
  | error e m' =>
    rw [h] at hends
    exact hends

theorem question {v w : Value} (hv : v ∈ xs) (hw : w ∈ xs) :
    OnlyAsks swap xs start (Answers swap xs start v w) (swap v w) := by
  intro m hm
  cases h : swap v w m with
  | ok b m' => exact ⟨⟨m, m', hm, h⟩, hm.question hv hw h⟩
  | error e m' => exact ⟨m, v, w, hm, hv, hw, h⟩

end OnlyAsks

/-- Merging comes to an end with its comparisons, as each of them takes an element away. -/
theorem onlyAsks_merge {fuel : Nat} {left right : List Value} (hfuel : left.length + right.length ≤ fuel)
    (hleft : left ⊆ xs) (hright : right ⊆ xs) (done : List Value) :
    OnlyAsks swap xs start
      (fun out => ∃ merged, out = done.reverse ++ merged ∧ Merges (Answers swap xs start) left right merged)
      (merge swap done fuel left right) := by
  induction fuel generalizing left right done with
  | zero =>
    -- No comparison is left, and no element either.
    obtain rfl : left = [] := List.eq_nil_of_length_eq_zero (by omega)
    obtain rfl : right = [] := List.eq_nil_of_length_eq_zero (by simpa using hfuel)
    exact OnlyAsks.pure ⟨[], rfl, .onlyRight []⟩
  | succ fuel ih =>
    cases left with
    | nil => exact OnlyAsks.pure ⟨right, rfl, .onlyRight right⟩
    | cons v left =>
      cases right with
      | nil => exact OnlyAsks.pure ⟨v :: left, rfl, .onlyLeft (v :: left)⟩
      | cons w right =>
        obtain ⟨hv, hsub⟩ := List.cons_subset.mp hleft
        obtain ⟨hw, hsub'⟩ := List.cons_subset.mp hright
        rw [List.length_cons, List.length_cons] at hfuel
        refine (OnlyAsks.question hv hw).bind fun b hb => ?_
        cases b with
        | true =>
          have hlength : (v :: left).length + right.length ≤ fuel := by
            rw [List.length_cons]
            omega
          refine (ih hlength hleft hsub' (w :: done)).imp ?_
          rintro out ⟨merged, rfl, hmerged⟩
          exact ⟨w :: merged, by rw [List.reverse_cons, List.append_assoc]; rfl, .second hb hmerged⟩
        | false =>
          have hlength : left.length + (w :: right).length ≤ fuel := by
            rw [List.length_cons]
            omega
          refine (ih hlength hsub hright (v :: done)).imp ?_
          rintro out ⟨merged, rfl, hmerged⟩
          exact ⟨v :: merged, by rw [List.reverse_cons, List.append_assoc]; rfl, .first hb hmerged⟩

/-- Sorting only asks for the order of the elements, and what it comes to is sorted by the answers; by
induction on the fuel. -/
theorem onlyAsks_sortWithin {fuel : Nat} {ys : List Value} (hfuel : ys.length ≤ fuel) (hys : ys ⊆ xs) :
    OnlyAsks swap xs start (Sorts (Answers swap xs start) ys) (sortWithin swap fuel ys) := by
  induction fuel generalizing ys with
  | zero => exact OnlyAsks.pure (.short (Nat.le_succ_of_le hfuel))
  | succ fuel ih =>
    unfold sortWithin
    split
    · exact OnlyAsks.pure (.short ‹_›)
    · rename_i hlong
      rw [List.splitAt_eq]
      dsimp only
      -- Neither half of more than one element is all of the list.
      have hleft : (ys.take (ys.length / 2)).length ≤ fuel := by
        rw [List.length_take]
        omega
      have hright : (ys.drop (ys.length / 2)).length ≤ fuel := by
        rw [List.length_drop]
        omega
      have htake : ys.take (ys.length / 2) ⊆ xs := fun v hv => hys (List.mem_of_mem_take hv)
      have hdrop : ys.drop (ys.length / 2) ⊆ xs := fun v hv => hys (List.mem_of_mem_drop hv)
      refine (ih hleft htake).bind fun left hl => (ih hright hdrop).bind fun right hr => ?_
      have hall : left.length + right.length ≤ ys.length := by
        rw [hl.perm.length_eq, hr.perm.length_eq, List.length_take, List.length_drop]
        omega
      refine (onlyAsks_merge hall (hl.subset htake) (hr.subset hdrop) []).imp ?_
      rintro out ⟨merged, rfl, hmerged⟩
      have hsorts := Sorts.halves hl hr hmerged
      rwa [List.take_append_drop] at hsorts

/-- Sorting asks for the order of its elements and does nothing else. -/
theorem onlyAsks_sort (swap : SwapTest) (xs : List Value) (start : Machine) :
    OnlyAsks swap xs start (Sorts (Answers swap xs start) xs) (sort swap xs) :=
  onlyAsks_sortWithin (Nat.le_refl xs.length) (List.Subset.refl xs)

end Run

end Snippet.Script
