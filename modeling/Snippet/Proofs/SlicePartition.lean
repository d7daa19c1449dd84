import Snippet.Proofs.ArrayStore
import Snippet.Proofs.DataTree
import Snippet.Proofs.WholePart

/-!
Taking parts of arrays and strings by place. Whatever numbers the places are, nothing is lost and nothing is taken
twice: the parts put together again are the whole. The sizes of the parts are those that the whole parts of the
numbers ask for if the size of the whole is a floating number, as any below `2 ^ 53` is; no memory holds more.
-/

namespace Snippet.Script

structure Machine.AddsArray (a : ArrayRef) (m m' : Machine) : Prop where
  -- A state differs from another one by a further array and by the elements of one array that it
  -- had.
  around : m' = { m with heap := m'.heap, charged := m'.charged }
  scopes : m'.heap.scopes = m.heap.scopes
  objects : m'.heap.objects = m.heap.objects
  count : m'.heap.arrays.size = m.heap.arrays.size + 1
  others : ∀ b, b.address < m.heap.arrays.size → b ≠ a → m'.heap.items b = m.heap.items b

/-- An array is put together again from its parts before, between and behind two places. -/
theorem extract_append_parts (xs : Array Value) (start count : Nat) :
    xs.take start ++ xs.extract start (start + count) ++ xs.drop (start + count) = xs := by
  rw [Array.take_eq_extract, Array.extract_append_extract, Array.drop_eq_extract, Nat.zero_min,
    Nat.max_eq_right (Nat.le_add_right start count), Array.extract_append_extract, Nat.zero_min,
    Array.extract_eq_self_of_le (Nat.le_max_right _ _)]

namespace Run

variable {m : Machine} {a : ArrayRef}

def withArray (m : Machine) (xs : Array Value) : Machine :=
  { m with heap := m.heap.pushArray xs, charged := m.charged + (32 + xs.size * 16) }

theorem run_makeArrayOf (xs : Array Value) :
    makeArrayOf xs m = .ok (.array ⟨m.heap.arrays.size⟩) (withArray m xs) := rfl

theorem addsArray_withArray (xs : Array Value) : m.AddsArray a (withArray m xs) where
  around := rfl
  scopes := rfl
  objects := rfl
  count := Array.size_push _
  others b hb _ := (m.heap.growsTo_pushArray xs).items b hb

/-- Elements are removed from an array between two places, others are put there, and what was removed becomes an
array. -/
theorem run_spliced (ha : a.address < m.heap.arrays.size) (start count : Nat) (inserted : List Value) :
    ∃ m', makeArrayOf ((m.heap.items a).extract start (start + count))
          { m with heap := m.heap.modifyItems a (spliced start count inserted) } =
        .ok (.array ⟨m.heap.arrays.size⟩) m' ∧
      m'.heap.items ⟨m.heap.arrays.size⟩ = (m.heap.items a).extract start (start + count) ∧
      m'.heap.items a = (m.heap.items a).take start ++ inserted.toArray ++
        (m.heap.items a).drop (start + count) ∧
      m.AddsArray a m' := by
  generalize hh : m.heap.modifyItems a (spliced start count inserted) = h
  have hcount : h.arrays.size = m.heap.arrays.size := hh ▸ Array.size_modify
  have hpushed := h.growsTo_pushArray ((m.heap.items a).extract start (start + count))
  refine ⟨_, (run_makeArrayOf _).trans (congrArg (EStateM.Result.ok · _) ?_), ?_, ?_, rfl, ?_, ?_, ?_, ?_⟩
  · exact congrArg (Value.array ⟨·⟩) hcount
  · rw [← hcount]
    exact h.items_pushArray _
  · refine (hpushed.items a (hcount ▸ ha)).trans ?_
    rw [← hh, Heap.items_modifyItems _ ha]
    rfl
  · rw [← hh]
    rfl
  · rw [← hh]
    rfl
  · rw [← hcount]
    exact Array.size_push _
  · intro b hb hne
    refine (hpushed.items b (hcount ▸ hb)).trans ?_
    rw [← hh, Heap.items_modifyItems_of_ne _ hne]

/-- The place zero is the beginning of a sequence of any length. -/
theorem resolvePlace_zero (length default : Nat) : resolvePlace (some 0.0) length default = 0 := by
  have htruncate : Number.truncate 0.0 = 0.0 := Clock.bitsOf_injective (by decide +kernel)
  have hlt : ¬ (0.0 : Float) < 0.0 := by
    rw [Clock.lt_iff_compare, Clock.unpack_zero]
    exact nofun
  unfold resolvePlace
  dsimp only
  rw [htruncate, ite_self, if_neg hlt, Number.toNatClamped_zero, Nat.zero_min]

/-- The elements before a place are taken. -/
theorem run_slice_to (call : Caller) (k : Float) :
    arrayMethod call a .slice [.number 0.0, .number k] m =
      makeArrayOf ((m.heap.items a).extract 0 (resolvePlace (some k) (m.heap.items a).size 0)) m := by
  have hstart := resolvePlace_zero (m.heap.items a).size 0
  change makeArrayOf ((m.heap.items a).extract (resolvePlace (some 0.0) (m.heap.items a).size 0) _) m = _
  rw [hstart]
  rfl

/-- The elements from a place on are taken. -/
theorem run_slice_from (call : Caller) (k : Float) :
    arrayMethod call a .slice [.number k] m =
      makeArrayOf ((m.heap.items a).extract (resolvePlace (some k) (m.heap.items a).size 0)
        (m.heap.items a).size) m := rfl

end Run

structure PartsByPlace (m : Machine) (a : ArrayRef) : Prop where
  /-- The elements before a place and those from there on, as two further arrays. -/
  sliced : ∀ call k, ∃ b c m₁ m₂,
    Run.arrayMethod call a .slice [.number 0.0, .number k] m = .ok (.array b) m₁ ∧
    Run.arrayMethod call a .slice [.number k] m₁ = .ok (.array c) m₂ ∧
    m₂.heap.items b ++ m₂.heap.items c = m.heap.items a ∧
    m.AddsArray b m₁ ∧ m₁.AddsArray c m₂ ∧ b.address = m.heap.arrays.size ∧ c.address = m₁.heap.arrays.size
  slicedText : ∀ call text k, ∃ before behind,
    Run.stringMethod call text .slice [.number 0.0, .number k] m = .ok (.string before) m ∧
    Run.stringMethod call text .slice [.number k] m = .ok (.string behind) m ∧ before ++ behind = text
  /-- Elements are removed from a place, as many as a number says, and others are put there. -/
  spliced : ∀ call start count inserted, ∃ before removed behind m',
    m.heap.items a = before ++ removed ++ behind ∧
    Run.arrayMethod call a .splice (.number start :: .number count :: inserted) m =
      .ok (.array ⟨m.heap.arrays.size⟩) m' ∧
    m'.heap.items ⟨m.heap.arrays.size⟩ = removed ∧
    m'.heap.items a = before ++ inserted.toArray ++ behind ∧ m.AddsArray a m' ∧
    ((m.heap.items a).size < 2 ^ 53 →
      before.size = placeAt (Number.toInt64Clamped start) (m.heap.items a).size ∧
      removed.size = min (Number.toInt64Clamped count).toNat ((m.heap.items a).size - before.size))
  /-- All elements are removed from a place on. -/
  splicedRest : ∀ call start, ∃ before removed m', m.heap.items a = before ++ removed ∧
    Run.arrayMethod call a .splice [.number start] m = .ok (.array ⟨m.heap.arrays.size⟩) m' ∧
    m'.heap.items ⟨m.heap.arrays.size⟩ = removed ∧ m'.heap.items a = before ∧ m.AddsArray a m' ∧
    ((m.heap.items a).size < 2 ^ 53 →
      before.size = placeAt (Number.toInt64Clamped start) (m.heap.items a).size)
  /-- Each place that is looked at is within the sequence, or its end. -/
  within : ∀ length < 2 ^ 53, ∀ x default,
    resolvePlace (some x) length default = placeAt (Number.toInt64Clamped x) length ∧
    resolvePlace (some x) length default ≤ length

/-- The parts that slicing and splicing give are the elements between their places, and all parts make up
the whole. -/
theorem parts_are_whole (m : Machine) (a : ArrayRef) (ha : a.address < m.heap.arrays.size) :
    PartsByPlace m a where
  sliced call k := by
    -- Both slices end and begin at the same place.
    generalize hplace : resolvePlace (some k) (m.heap.items a).size 0 = place
    generalize hbefore : (m.heap.items a).extract 0 place = before
    have hkept : (Run.withArray m before).heap.items a = m.heap.items a :=
      (m.heap.growsTo_pushArray before).items a ha
    have hfresh := (Run.withArray m before).heap.growsTo_pushArray
      ((m.heap.items a).extract place (m.heap.items a).size)
    refine ⟨⟨m.heap.arrays.size⟩, ⟨(Run.withArray m before).heap.arrays.size⟩, Run.withArray m before,
      Run.withArray (Run.withArray m before) ((m.heap.items a).extract place (m.heap.items a).size),
      ?_, ?_, ?_, Run.addsArray_withArray _, Run.addsArray_withArray _, rfl, rfl⟩
    · rw [Run.run_slice_to, hplace, hbefore]
      rfl
    · rw [Run.run_slice_from, hkept, hplace]
      rfl
    · -- The first part is there still when the second one has been made.
      have hcount : (Run.withArray m before).heap.arrays.size = m.heap.arrays.size + 1 := Array.size_push _
      have hfirst := (hfresh.items ⟨m.heap.arrays.size⟩ (by rw [hcount]; exact Nat.lt_succ_self _)).trans
        (m.heap.items_pushArray before)
      have hsecond := (Run.withArray m before).heap.items_pushArray
        ((m.heap.items a).extract place (m.heap.items a).size)
      refine (congrArg₂ (· ++ ·) hfirst hsecond).trans ?_
      rw [← hbefore, Array.extract_append_extract, Nat.zero_min,
        Array.extract_eq_self_of_le (Nat.le_max_right _ _)]
  slicedText call text k := by
    have hlist (n : Nat) : between 0 n text.toList ++ between n text.toList.length text.toList = text.toList := by
      unfold between
      rw [List.drop_zero, Nat.sub_zero, ← List.length_drop, List.take_length, List.take_append_drop]
    refine ⟨_, _, rfl, rfl, ?_⟩
    rw [Run.resolvePlace_zero, ← String.ofList_append]
    refine (congrArg String.ofList (hlist _)).trans String.ofList_toList
  spliced call start count inserted := by
    generalize hplace : resolvePlace (some start) (m.heap.items a).size 0 = place
    generalize hleft : min (countOf count) ((m.heap.items a).size - place) = left
    obtain ⟨m', hrun, hremoved, hitems, hadds⟩ := Run.run_spliced ha place left inserted
    refine ⟨_, _, _, m', (extract_append_parts _ place left).symm, ?_, hremoved, hitems, hadds, fun hsize => ?_⟩
    · subst hleft hplace
      exact hrun
    · have hle := placeAt_le (Number.toInt64Clamped start) (m.heap.items a).size
      rw [resolvePlace_some start hsize] at hplace
      rw [min_countOf count (by omega)] at hleft
      rw [Array.take_eq_extract, Array.size_extract, Array.size_extract]
      omega
  splicedRest call start := by
    generalize hplace : resolvePlace (some start) (m.heap.items a).size 0 = place
    obtain ⟨m', hrun, hremoved, hitems, hadds⟩ :=
      Run.run_spliced ha place ((m.heap.items a).size - place) []
    -- Nothing is left behind what is spliced out to the end.
    have hnone : (m.heap.items a).drop (place + ((m.heap.items a).size - place)) = #[] := by
      refine Array.eq_empty_of_size_eq_zero ?_
      rw [Array.drop_eq_extract, Array.size_extract]
      omega
    have hwhole := extract_append_parts (m.heap.items a) place ((m.heap.items a).size - place)
    rw [hnone, Array.append_empty] at hwhole hitems
    rw [Array.append_empty] at hitems
    refine ⟨_, _, m', hwhole.symm, ?_, hremoved, hitems, hadds, fun hsize => ?_⟩
    · subst hplace
      exact hrun
    · have hle := placeAt_le (Number.toInt64Clamped start) (m.heap.items a).size
      rw [resolvePlace_some start hsize] at hplace
      rw [Array.take_eq_extract, Array.size_extract]
      omega
  within length hlength x default := by
    rw [resolvePlace_some x hlength]
    exact ⟨rfl, placeAt_le _ _⟩

/-- The last element of an array is removed by its place from the end. -/
theorem last_element_is_removed :
    let m : Machine := { stdin := ⟨[]⟩, checkpoints := 0, heap := { arrays := #[#[.null, .bool true]] } }
    ∃ m', Run.arrayMethod (fun _ _ _ => pure .undefined) ⟨0⟩ .splice [.number (-1.0)] m = .ok (.array ⟨1⟩) m' ∧
      (m'.heap.items ⟨0⟩).size = 1 := by
  intro m
  obtain ⟨before, removed, m', -, hrun, -, hitems, -, hsizes⟩ :=
    (parts_are_whole m ⟨0⟩ (by decide)).splicedRest (fun _ _ _ => pure .undefined) (-1.0)
  have hplace : placeAt (Number.toInt64Clamped (-1.0)) 2 = 1 := by decide +kernel
  exact ⟨m', hrun, (congrArg Array.size hitems).trans ((hsizes (by decide)).trans hplace)⟩

end Snippet.Script
