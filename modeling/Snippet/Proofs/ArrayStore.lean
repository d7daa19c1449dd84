import Mathlib.Algebra.Ring.Nat
import Snippet.Proofs.ArrayCap
import Snippet.Proofs.JsonReading

/-!
Storing in arrays. A key is the place of an element if it is the decimal text of the place and of nothing else;
an element is stored there, with missing ones in front of it where the array was shorter. Whatever would make
the array too long is refused before anything is stored.
-/

namespace Snippet.Number

theorem digitValue?_of_isDigit {c : Char} (hc : c.isDigit = true) :
    digitValue? 10 c = some (c.toNat - '0'.toNat) := by
  obtain ⟨hlow, hhigh⟩ : 48 ≤ c.toNat ∧ c.toNat ≤ 57 := by
    simpa [Char.isDigit, UInt32.le_iff_toNat_le] using hc
  have hrange : '0' ≤ c ∧ c ≤ '9' := ⟨hlow, hhigh⟩
  have hvalue : c.toNat - '0'.toNat < 10 := by
    change c.toNat - 48 < 10
    omega
  unfold digitValue?
  rw [if_pos hrange, Option.filter_some, decide_eq_true hvalue]
  rfl

theorem digitsValue?_of_isDigit {ds : List Char} (hds : ∀ c ∈ ds, c.isDigit = true) (acc : Nat) :
    digitsValue? 10 acc ds = some (Nat.ofDigitChars 10 ds acc) := by
  induction ds generalizing acc with
  | nil => rfl
  | cons c rest ih =>
    rw [digitsValue?, digitValue?_of_isDigit (hds c List.mem_cons_self)]
    dsimp only
    rw [ih fun d hd => hds d (List.mem_cons_of_mem _ hd), Nat.ofDigitChars_cons, Nat.mul_comm]

/-- A decimal digit is the character of its value. -/
theorem digitChar_of_isDigit {c : Char} (hc : c.isDigit = true) :
    c.toNat - '0'.toNat < 10 ∧ Nat.digitChar (c.toNat - '0'.toNat) = c := by
  obtain ⟨hlow, hhigh⟩ : 48 ≤ c.toNat ∧ c.toNat ≤ 57 := by
    simpa [Char.isDigit, UInt32.le_iff_toNat_le] using hc
  have hvalue : c.toNat - '0'.toNat < 10 := by
    change c.toNat - 48 < 10
    omega
  refine ⟨hvalue, Char.toNat_inj.mp ?_⟩
  rw [Nat.toNat_digitChar_of_lt_ten hvalue]
  change 48 + (c.toNat - 48) = c.toNat
  omega

/-- Digits that are read after a positive number are the last ones of the number that is read. -/
theorem toDigits_ofDigitChars {ds : List Char} (hds : ∀ c ∈ ds, c.isDigit = true) {acc : Nat} (hacc : 0 < acc) :
    Nat.toDigits 10 (Nat.ofDigitChars 10 ds acc) = Nat.toDigits 10 acc ++ ds := by
  induction ds generalizing acc with
  | nil => rw [Nat.ofDigitChars_nil, List.append_nil]
  | cons c rest ih =>
    obtain ⟨hvalue, hchar⟩ := digitChar_of_isDigit (hds c List.mem_cons_self)
    have hpush := Nat.toDigits_append_toDigits (by decide : 1 < 10) hacc hvalue
    rw [Nat.toDigits_of_lt_base hvalue, hchar] at hpush
    rw [Nat.ofDigitChars_cons, ih (fun d hd => hds d (List.mem_cons_of_mem _ hd)) (by omega), ← hpush,
      List.append_assoc, List.singleton_append]

/-- Digits of which the first is not zero are those of the number that they stand for. -/
theorem digits_ofDigitChars {d : Char} {ds : List Char} (hds : ∀ c ∈ d :: ds, c.isDigit = true) (hd : d ≠ '0') :
    digits (Nat.ofDigitChars 10 (d :: ds) 0) = d :: ds := by
  obtain ⟨hvalue, hchar⟩ := digitChar_of_isDigit (hds d List.mem_cons_self)
  have hpos : 0 < d.toNat - '0'.toNat := by
    refine Nat.pos_of_ne_zero fun hzero => hd ?_
    rw [← hchar, hzero]
    rfl
  unfold digits
  rw [Nat.ofDigitChars_cons, Nat.mul_zero, Nat.zero_add,
    toDigits_ofDigitChars (fun c hc => hds c (List.mem_cons_of_mem _ hc)) hpos, Nat.toDigits_of_lt_base hvalue, hchar,
    List.singleton_append]

end Snippet.Number

namespace Snippet.Script

theorem toList_toString (i : Nat) : (toString i).toList = Number.digits i := Nat.toList_repr

/-- The decimal digits of an index that fits into 64 bits denote it. -/
theorem indexOfKey?_toString {i : Nat} (hi : i < 2 ^ 64) : indexOfKey? (toString i) = some i := by
  have hall : ∀ c ∈ Number.digits i, c.isDigit = true := fun _ hc => Json.isDigit_of_mem_digits hc
  have hvalue : Number.digitsValue? 10 0 (Number.digits i) = some i := by
    rw [Number.digitsValue?_of_isDigit hall]
    exact congrArg some Nat.ofDigitChars_ten_toDigits
  unfold indexOfKey?
  rw [toList_toString]
  split
  · next hnone => exact absurd hnone Nat.toDigits_ne_nil
  · next hzero =>
    rw [hzero] at hvalue
    exact hvalue
  · next rest hmore hzero =>
    -- Only the number zero begins with the digit zero.
    obtain rfl | hpos := Nat.eq_zero_or_pos i
    · exact (hmore (List.cons.inj hzero).2.symm).elim
    · exact absurd rfl (Json.head_digits_ne_zero hpos '0' (by rw [hzero]; rfl))
  · have hword : decide (i < Number.twoTo 64) = true := decide_eq_true hi
    rw [if_pos (List.all_eq_true.mpr hall), hvalue, Option.filter_some, hword]
    rfl

/-- A key is an index exactly if it is the decimal text of a number of 64 bits. -/
theorem indexOfKey?_eq_some_iff {key : String} {i : Nat} :
    indexOfKey? key = some i ↔ key = toString i ∧ i < 2 ^ 64 := by
  refine ⟨fun h => ?_, fun ⟨hkey, hi⟩ => hkey ▸ indexOfKey?_toString hi⟩
  unfold indexOfKey? at h
  split at h
  · cases h
  · next hzero =>
    cases h
    refine ⟨String.toList_inj.mp ?_, by decide⟩
    rw [hzero, toList_toString]
    rfl
  · cases h
  · next hnil _ hzero =>
    split at h
    · next hall =>
      have hdigits := List.all_eq_true.mp hall
      rw [Number.digitsValue?_of_isDigit hdigits] at h
      obtain ⟨hvalue, hlt⟩ := Option.filter_eq_some_iff.mp h
      obtain rfl := Option.some.inj hvalue
      refine ⟨String.toList_inj.mp ?_, of_decide_eq_true hlt⟩
      rw [toList_toString]
      cases hkey : key.toList with
      | nil => exact absurd hkey hnil
      | cons d ds =>
        rw [hkey] at hdigits
        refine (Number.digits_ofDigitChars hdigits ?_).symm
        rintro rfl
        exact hzero _ hkey
    · cases h

/-- A key is no index exactly if it is not what an index that fits is written as. -/
theorem indexOfKey?_eq_none_iff {key : String} :
    indexOfKey? key = none ↔ ∀ i < 2 ^ 64, key ≠ toString i := by
  constructor
  · rintro hnone i hi rfl
    rw [indexOfKey?_toString hi] at hnone
    cases hnone
  · intro hother
    cases h : indexOfKey? key with
    | none => rfl
    | some i =>
      obtain ⟨hkey, hi⟩ := indexOfKey?_eq_some_iff.mp h
      exact absurd hkey (hother i hi)

example : ["01", "+1", "-1", "1.0", ""].map indexOfKey? = [none, none, none, none, none] := by decide

namespace Run

-- The elements of an array in which one is stored.

section Elements

variable (i : Nat) (v : Value) (xs : Array Value)

theorem size_putItem : (putItem i v xs).size = max xs.size (i + 1) := by
  unfold putItem
  split
  · rw [Array.size_setIfInBounds]
    omega
  · rw [Array.size_push, Array.size_append, Array.size_replicate]
    omega

/-- What is stored at an index is found there. -/
theorem getElem?_putItem_self : (putItem i v xs)[i]? = some v := by
  unfold putItem
  split
  · next hlt => rw [Array.getElem?_setIfInBounds_self_of_lt hlt]
  · next hge =>
    have hsize : (xs ++ Array.replicate (i - xs.size) Value.undefined).size = i := by
      rw [Array.size_append, Array.size_replicate]
      omega
    rw [Array.getElem?_push, if_pos hsize.symm]

theorem getElem?_putItem_of_lt {j : Nat} (hj : j < xs.size) (hne : j ≠ i) : (putItem i v xs)[j]? = xs[j]? := by
  unfold putItem
  split
  · rw [Array.getElem?_setIfInBounds_ne hne.symm]
  · rw [Array.getElem?_push, Array.size_append, Array.size_replicate, if_neg (by omega),
      Array.getElem?_append_left hj]

theorem getElem?_putItem_gap {j : Nat} (hj : xs.size ≤ j) (hlt : j < i) :
    (putItem i v xs)[j]? = some .undefined := by
  unfold putItem
  rw [if_neg (by omega), Array.getElem?_push, Array.size_append, Array.size_replicate, if_neg (by omega),
    Array.getElem?_append_right hj, Array.getElem?_replicate, if_pos (by omega)]

end Elements

end Run

structure Machine.ChangesOnly (a : ArrayRef) (m m' : Machine) : Prop where
  -- Nothing differs between two states but the elements of one array and the memory that has been
  -- taken.
  around : m' = { m with heap := m'.heap, charged := m'.charged }
  scopes : m'.heap.scopes = m.heap.scopes
  objects : m'.heap.objects = m.heap.objects
  count : m'.heap.arrays.size = m.heap.arrays.size
  others : ∀ b, b ≠ a → m'.heap.items b = m.heap.items b

namespace Heap

variable {h : Heap} {a b : ArrayRef} (f : Array Value → Array Value)

theorem items_modifyItems (ha : a.address < h.arrays.size) : (h.modifyItems a f).items a = f (h.items a) := by
  unfold items modifyItems
  rw [Array.getD_eq_getD_getElem?, Array.getD_eq_getD_getElem?, Array.getElem?_modify, if_pos rfl,
    Array.getElem?_eq_getElem ha]
  rfl

theorem items_modifyItems_of_ne (hb : b ≠ a) : (h.modifyItems a f).items b = h.items b := by
  have haddress : a.address ≠ b.address := fun heq => hb (congrArg ArrayRef.mk heq.symm)
  unfold items modifyItems
  rw [Array.getD_eq_getD_getElem?, Array.getD_eq_getD_getElem?, Array.getElem?_modify, if_neg haddress]

end Heap

theorem Machine.changesOnly_modifyItems (m : Machine) (a : ArrayRef) (f : Array Value → Array Value) (n : Nat) :
    m.ChangesOnly a { m with heap := m.heap.modifyItems a f, charged := n } where
  around := rfl
  scopes := rfl
  objects := rfl
  count := Array.size_modify
  others _ hb := Heap.items_modifyItems_of_ne f hb

namespace Run

variable {m : Machine} {a : ArrayRef}

theorem run_setItem {i : Nat} (hi : i < maxArraySize) (v : Value) :
    setItem a i v m = .ok () { m with
      heap := m.heap.modifyItems a (putItem i v)
      charged := m.charged + (i + 1 - (m.heap.items a).size) * 16 } := by
  unfold setItem
  rw [if_neg (Nat.not_le_of_gt hi)]
  rfl

theorem run_setMember_index {key : String} {i : Nat} (hkey : indexOfKey? key = some i) (v : Value) :
    setMember (.array a) key v m = setItem a i v m := by
  unfold setMember
  dsimp only
  rw [hkey]

/-- An element is what is read at its index. -/
theorem run_getMember_index {key : String} {i : Nat} (hkey : indexOfKey? key = some i) {v : Value}
    (hv : (m.heap.items a)[i]? = some v) : getMember (.array a) key m = .ok v m := by
  have hlength : ¬ (key == "length") = true := by
    intro heq
    have hnone : indexOfKey? "length" = none := by decide
    rw [beq_iff_eq.mp heq, hnone] at hkey
    cases hkey
  have hitem : (m.heap.items a).getD i Value.undefined = v := by
    rw [Array.getD_eq_getD_getElem?, hv]
    rfl
  unfold getMember arrayMember
  dsimp only
  rw [if_neg hlength, hkey]
  exact congrArg (EStateM.Result.ok · m) hitem

/-- Elements are added at the end of an array where it does not become too long. -/
theorem run_push (call : Caller) {arguments : List Value}
    (h : (m.heap.items a).size + arguments.length ≤ maxArraySize) :
    arrayMethod call a .push arguments m =
      lengthValue a { m with heap := m.heap.modifyItems a fun xs => xs ++ arguments.toArray } := by
  have hfold (xs : Array Value) : arguments.foldl Array.push xs = xs ++ arguments.toArray :=
    List.foldl_push_eq_append'
  have hmodify : m.heap.modifyItems a (fun xs => arguments.foldl Array.push xs) =
      m.heap.modifyItems a fun xs => xs ++ arguments.toArray := by
    simp only [hfold]
  rw [← hmodify]
  exact run_bind_ok (Fitting.run_checkGrowth (Nat.not_lt_of_ge h))

/-- Elements are added at the beginning. -/
theorem run_unshift (call : Caller) {arguments : List Value}
    (h : (m.heap.items a).size + arguments.length ≤ maxArraySize) :
    arrayMethod call a .unshift arguments m =
      lengthValue a { m with heap := m.heap.modifyItems a fun xs => arguments.toArray ++ xs } :=
  run_bind_ok (Fitting.run_checkGrowth (Nat.not_lt_of_ge h))

end Run

/-- What storing in an array does. The cap is that of the longest array; keys up to `2 ^ 64` are indices. -/
structure StoresByIndex (m : Machine) (a : ArrayRef) : Prop where
  stored : ∀ i < 2 ^ 22, ∀ v, ∃ m', Run.setMember (.array a) (toString i) v m = .ok () m' ∧
    m.ChangesOnly a m' ∧ Run.getMember (.array a) (toString i) m' = .ok v m' ∧
    (m'.heap.items a).size = max (m.heap.items a).size (i + 1) ∧
    (∀ j < (m.heap.items a).size, j ≠ i → (m'.heap.items a)[j]? = (m.heap.items a)[j]?) ∧
    ∀ j, (m.heap.items a).size ≤ j → j < i → (m'.heap.items a)[j]? = some .undefined
  beyond : ∀ i, 2 ^ 22 ≤ i → i < 2 ^ 64 → ∀ v,
    Run.setMember (.array a) (toString i) v m = .error (.raised .arrayLength) m
  /-- Keys that are no index change nothing, except for the one that sets the length. -/
  ignored : ∀ key, (∀ i < 2 ^ 64, key ≠ toString i) → key ≠ "length" → ∀ v,
    Run.setMember (.array a) key v m = .ok () m
  pushed : ∀ call arguments, (m.heap.items a).size + arguments.length ≤ 2 ^ 22 →
    ∃ m', Run.arrayMethod call a .push arguments m =
        .ok (.ofNat ((m.heap.items a).size + arguments.length)) m' ∧ m.ChangesOnly a m' ∧
      (m'.heap.items a).toList = (m.heap.items a).toList ++ arguments
  unshifted : ∀ call arguments, (m.heap.items a).size + arguments.length ≤ 2 ^ 22 →
    ∃ m', Run.arrayMethod call a .unshift arguments m =
        .ok (.ofNat ((m.heap.items a).size + arguments.length)) m' ∧ m.ChangesOnly a m' ∧
      (m'.heap.items a).toList = arguments ++ (m.heap.items a).toList
  refused : ∀ call arguments, 2 ^ 22 < (m.heap.items a).size + arguments.length →
    Run.arrayMethod call a .push arguments m = .error (.raised .arrayLength) m ∧
    Run.arrayMethod call a .unshift arguments m = .error (.raised .arrayLength) m
  kind : RuntimeError.arrayLength.kind = .range

theorem arrays_store_by_index (m : Machine) (a : ArrayRef) (ha : a.address < m.heap.arrays.size) :
    StoresByIndex m a where
  stored i hi v := by
    have hkey : indexOfKey? (toString i) = some i := indexOfKey?_toString (Nat.lt_trans hi (by decide))
    have hrun := (Run.run_setMember_index hkey v).trans (Run.run_setItem (m := m) (a := a) hi v)
    have hitems := Heap.items_modifyItems (h := m.heap) (Run.putItem i v) ha
    refine ⟨_, hrun, m.changesOnly_modifyItems a _ _, Run.run_getMember_index hkey ?_, ?_⟩
    · exact (congrArg (·[i]?) hitems).trans (Run.getElem?_putItem_self i v _)
    · dsimp only
      rw [hitems]
      exact ⟨Run.size_putItem i v _, fun j hj hne => Run.getElem?_putItem_of_lt i v _ hj hne,
        fun j hj hlt => Run.getElem?_putItem_gap i v _ hj hlt⟩
  beyond i hlow hhigh v := by
    have hfull : maxArraySize ≤ i := hlow
    rw [Run.run_setMember_index (indexOfKey?_toString hhigh), Run.setItem, if_pos hfull]
    rfl
  ignored key hother hlength v := by
    -- Only the length is a name that an array knows, so any other key that is no index changes nothing.
    have hnone : ¬ (key == "length") = true := fun heq => hlength (beq_iff_eq.mp heq)
    unfold Run.setMember
    dsimp only
    rw [indexOfKey?_eq_none_iff.mpr hother]
    dsimp only
    rw [if_neg hnone]
    rfl
  pushed call arguments hroom := by
    have hitems := Heap.items_modifyItems (h := m.heap) (fun xs => xs ++ arguments.toArray) ha
    refine ⟨_, (Run.run_push call hroom).trans (congrArg (EStateM.Result.ok · _) ?_),
      m.changesOnly_modifyItems a _ _, ?_⟩
    · dsimp only
      rw [hitems]
      exact congrArg Value.ofNat Array.size_append
    · dsimp only
      rw [hitems, Array.toList_append]
  unshifted call arguments hroom := by
    have hitems := Heap.items_modifyItems (h := m.heap) (fun xs => arguments.toArray ++ xs) ha
    refine ⟨_, (Run.run_unshift call hroom).trans (congrArg (EStateM.Result.ok · _) ?_),
      m.changesOnly_modifyItems a _ _, ?_⟩
    · dsimp only
      rw [hitems, Array.size_append, List.size_toArray, Nat.add_comm]
    · dsimp only
      rw [hitems, Array.toList_append]
  refused call arguments hfull :=
    ⟨run_bind_error (Fitting.run_checkGrowth_full hfull), run_bind_error (Fitting.run_checkGrowth_full hfull)⟩
  kind := rfl

/-- An element that is stored two places behind the end of an array. -/
theorem element_behind_gap_is_stored :
    let m : Machine := { stdin := ⟨[]⟩, checkpoints := 0, heap := { arrays := #[#[.null]] } }
    ∃ m', Run.setMember (.array ⟨0⟩) "3" (.bool true) m = .ok () m' ∧ (m'.heap.items ⟨0⟩).size = 4 ∧
      (m'.heap.items ⟨0⟩)[2]? = some .undefined := by
  intro m
  obtain ⟨m', hrun, -, -, hsize, -, hgap⟩ :=
    (arrays_store_by_index m ⟨0⟩ (by decide)).stored 3 (by decide) (.bool true)
  exact ⟨m', hrun, hsize, hgap 2 (by decide) (by decide)⟩

end Snippet.Script
