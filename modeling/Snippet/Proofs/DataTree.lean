import Snippet.Proofs.Quiet

/-!
Data: trees of arrays and plain objects whose leaves are values without parts. A value shows a tree in a
heap if the tree is what is found by following its addresses; it goes on to do so in every heap that the heap
grows to. A container is not met again inside of itself, as the tree would not end.
-/

namespace Snippet.Script

inductive Data where
  | undefined
  | null
  | bool (b : Bool)
  | integer (n : Int)
  | string (s : String)
  | array (items : List Data)
  | object (members : List (String × Data))

namespace Data

mutual

def height : Data → Nat
  | .array items => itemsHeight items + 1
  | .object members => membersHeight members + 1
  | _ => 0

def itemsHeight : List Data → Nat
  | [] => 0
  | d :: rest => max d.height (itemsHeight rest)

def membersHeight : List (String × Data) → Nat
  | [] => 0
  | (_, d) :: rest => max d.height (membersHeight rest)

end

mutual

def DistinctKeys : Data → Prop
  | .array items => itemsDistinct items
  | .object members => (members.map Prod.fst).Nodup ∧ membersDistinct members
  | _ => True

def itemsDistinct : List Data → Prop
  | [] => True
  | d :: rest => d.DistinctKeys ∧ itemsDistinct rest

def membersDistinct : List (String × Data) → Prop
  | [] => True
  | (_, d) :: rest => d.DistinctKeys ∧ membersDistinct rest

end

mutual

/-- A value shows a tree in a heap. Objects are plain ones: they have entries only. -/
def ShownBy (h : Heap) : Data → Value → Prop
  | .undefined, v => v = .undefined
  | .null, v => v = .null
  | .bool b, v => v = .bool b
  | .integer n, v => v = .number (Float.ofInt n)
  | .string s, v => v = .string s
  | .array items, v => ∃ a : ArrayRef, v = .array a ∧ a.address < h.arrays.size ∧
      itemsShownBy h items (h.items a).toList
  | .object members, v => ∃ o : ObjectRef, v = .object o ∧ o.address < h.objects.size ∧
      ∃ entries, h.object o = { entries } ∧ membersShownBy h members entries

def itemsShownBy (h : Heap) : List Data → List Value → Prop
  | [], vs => vs = []
  | d :: rest, vs => ∃ v more, vs = v :: more ∧ d.ShownBy h v ∧ itemsShownBy h rest more

def membersShownBy (h : Heap) : List (String × Data) → List (String × Value) → Prop
  | [], es => es = []
  | (key, d) :: rest, es => ∃ v more, es = (key, v) :: more ∧ d.ShownBy h v ∧
      membersShownBy h rest more

end

end Data

structure Heap.GrowsTo (h h' : Heap) : Prop where
  arrays : h.arrays.size ≤ h'.arrays.size
  objects : h.objects.size ≤ h'.objects.size
  items (a : ArrayRef) : a.address < h.arrays.size → h'.items a = h.items a
  object (o : ObjectRef) : o.address < h.objects.size → h'.object o = h.object o

namespace Heap

theorem growsTo_refl (h : Heap) : h.GrowsTo h :=
  ⟨Nat.le_refl _, Nat.le_refl _, fun _ _ => rfl, fun _ _ => rfl⟩

theorem GrowsTo.trans {h h' h'' : Heap} (hg : h.GrowsTo h') (hg' : h'.GrowsTo h'') : h.GrowsTo h'' where
  arrays := Nat.le_trans hg.arrays hg'.arrays
  objects := Nat.le_trans hg.objects hg'.objects
  items a ha := (hg'.items a (Nat.lt_of_lt_of_le ha hg.arrays)).trans (hg.items a ha)
  object o ho := (hg'.object o (Nat.lt_of_lt_of_le ho hg.objects)).trans (hg.object o ho)

def pushArray (h : Heap) (xs : Array Value) : Heap := { h with arrays := h.arrays.push xs }

def pushObject (h : Heap) (o : Object) : Heap := { h with objects := h.objects.push o }

/-- A new array takes no place that was in use. -/
theorem growsTo_pushArray (h : Heap) (xs : Array Value) : h.GrowsTo (h.pushArray xs) where
  arrays := by
    change h.arrays.size ≤ (h.arrays.push xs).size
    rw [Array.size_push]
    exact Nat.le_succ _
  objects := Nat.le_refl _
  items a ha := by
    change (h.arrays.push xs).getD a.address #[] = h.arrays.getD a.address #[]
    rw [Array.getD_eq_getD_getElem?, Array.getD_eq_getD_getElem?, Array.getElem?_push_lt ha,
      Array.getElem?_eq_getElem ha]
  object _ _ := rfl

/-- A new object takes no place that was in use. -/
theorem growsTo_pushObject (h : Heap) (o : Object) : h.GrowsTo (h.pushObject o) where
  arrays := Nat.le_refl _
  objects := by
    change h.objects.size ≤ (h.objects.push o).size
    rw [Array.size_push]
    exact Nat.le_succ _
  items _ _ := rfl
  object a ha := by
    change (h.objects.push o).getD a.address {} = h.objects.getD a.address {}
    rw [Array.getD_eq_getD_getElem?, Array.getD_eq_getD_getElem?, Array.getElem?_push_lt ha,
      Array.getElem?_eq_getElem ha]

theorem items_pushArray (h : Heap) (xs : Array Value) :
    (h.pushArray xs).items ⟨h.arrays.size⟩ = xs := by
  change (h.arrays.push xs).getD h.arrays.size #[] = xs
  rw [Array.getD_eq_getD_getElem?, Array.getElem?_push_size]
  rfl

theorem object_pushObject (h : Heap) (o : Object) :
    (h.pushObject o).object ⟨h.objects.size⟩ = o := by
  change (h.objects.push o).getD h.objects.size {} = o
  rw [Array.getD_eq_getD_getElem?, Array.getElem?_push_size]
  rfl

end Heap

namespace Data

variable {h h' : Heap}

mutual

/-- What is shown goes on to be shown when the heap grows. -/
theorem ShownBy.mono {d : Data} {v : Value} (hd : d.ShownBy h v) (hg : h.GrowsTo h') :
    d.ShownBy h' v := by
  cases d with
  | array items =>
    obtain ⟨a, hv, ha, hitems⟩ := hd
    refine ⟨a, hv, Nat.lt_of_lt_of_le ha hg.arrays, ?_⟩
    rw [hg.items a ha]
    exact itemsShownBy_mono hitems hg
  | object members =>
    obtain ⟨o, hv, ho, entries, hentries, hmembers⟩ := hd
    refine ⟨o, hv, Nat.lt_of_lt_of_le ho hg.objects, entries, ?_, membersShownBy_mono hmembers hg⟩
    rw [hg.object o ho]
    exact hentries
  | _ => exact hd

theorem itemsShownBy_mono {items : List Data} {vs : List Value} (hi : itemsShownBy h items vs)
    (hg : h.GrowsTo h') : itemsShownBy h' items vs := by
  cases items with
  | nil => exact hi
  | cons d rest =>
    obtain ⟨v, more, hvs, hd, hrest⟩ := hi
    exact ⟨v, more, hvs, hd.mono hg, itemsShownBy_mono hrest hg⟩

theorem membersShownBy_mono {members : List (String × Data)} {es : List (String × Value)}
    (hm : membersShownBy h members es) (hg : h.GrowsTo h') : membersShownBy h' members es := by
  cases members with
  | nil => exact hm
  | cons m rest =>
    obtain ⟨v, more, hes, hd, hrest⟩ := hm
    exact ⟨v, more, hes, hd.mono hg, membersShownBy_mono hrest hg⟩

end

/-- A new array shows the trees that its elements show. -/
theorem shownBy_pushArray {items : List Data} {vs : List Value} (hi : itemsShownBy h items vs) :
    (Data.array items).ShownBy (h.pushArray vs.toArray) (.array ⟨h.arrays.size⟩) := by
  refine ⟨⟨h.arrays.size⟩, rfl, ?_, ?_⟩
  · change h.arrays.size < (h.arrays.push vs.toArray).size
    rw [Array.size_push]
    exact Nat.lt_succ_self _
  · rw [h.items_pushArray]
    exact itemsShownBy_mono hi (h.growsTo_pushArray _)

/-- A new object shows the members that its entries show. -/
theorem shownBy_pushObject {members : List (String × Data)} {entries : List (String × Value)}
    (hm : membersShownBy h members entries) :
    (Data.object members).ShownBy (h.pushObject { entries }) (.object ⟨h.objects.size⟩) := by
  refine ⟨⟨h.objects.size⟩, rfl, ?_, entries, h.object_pushObject _, ?_⟩
  · change h.objects.size < (h.objects.push { entries }).size
    rw [Array.size_push]
    exact Nat.lt_succ_self _
  · exact membersShownBy_mono hm (h.growsTo_pushObject _)

def Makes {α : Type} (x : Run α) (m : Machine) (shows : Heap → α → Prop) : Prop :=
  ∃ a m', x m = .ok a m' ∧ m.heap.GrowsTo m'.heap ∧ shows m'.heap a

namespace Makes

variable {α β : Type} {m : Machine} {shows : Heap → α → Prop} {shows' : Heap → β → Prop}

theorem pure {a : α} (h : shows m.heap a) : Makes (Pure.pure a) m shows :=
  ⟨a, m, rfl, m.heap.growsTo_refl, h⟩

theorem bind {x : Run α} {f : α → Run β} (hx : Makes x m shows)
    (hf : ∀ a m', m.heap.GrowsTo m'.heap → shows m'.heap a → Makes (f a) m' shows') :
    Makes (x >>= f) m shows' := by
  obtain ⟨a, m₁, hrun, hgrow, hshown⟩ := hx
  obtain ⟨b, m₂, hrun', hgrow', hshown'⟩ := hf a m₁ hgrow hshown
  exact ⟨b, m₂, (run_bind_ok hrun).trans hrun', hgrow.trans hgrow', hshown'⟩

end Makes

theorem makes_array {items : List Data} {vs : List Value} {m : Machine}
    (hi : itemsShownBy m.heap items vs) : Makes (Run.makeArray vs) m (Data.array items).ShownBy :=
  ⟨_, _, rfl, m.heap.growsTo_pushArray _, shownBy_pushArray hi⟩

theorem makes_object {members : List (String × Data)} {entries : List (String × Value)} {m : Machine}
    (hm : membersShownBy m.heap members entries) :
    Makes (Run.makeObject { entries }) m (Data.object members).ShownBy :=
  ⟨_, _, rfl, m.heap.growsTo_pushObject _, shownBy_pushObject hm⟩

mutual

/-- All trees that a value shows are equally high. -/
theorem ShownBy.height_eq {d d' : Data} {v : Value} (hd : d.ShownBy h v) (hd' : d'.ShownBy h v) :
    d.height = d'.height := by
  cases d with
  | array items =>
    obtain ⟨a, rfl, -, hitems⟩ := hd
    cases d' with
    | array items' =>
      obtain ⟨a', ha, -, hitems'⟩ := hd'
      -- Both trees are found at the same address, so their elements are shown by the same values.
      obtain rfl := Value.array.inj ha
      exact congrArg (· + 1) (itemsHeight_eq hitems hitems')
    | object members => obtain ⟨o, ho, -⟩ := hd'; cases ho
    | _ => cases hd'
  | object members =>
    obtain ⟨o, rfl, -, entries, hentries, hmembers⟩ := hd
    cases d' with
    | object members' =>
      obtain ⟨o', ho, -, entries', hentries', hmembers'⟩ := hd'
      obtain rfl := Value.object.inj ho
      obtain rfl : entries = entries' := congrArg Object.entries (hentries.symm.trans hentries')
      exact congrArg (· + 1) (membersHeight_eq hmembers hmembers')
    | array items => obtain ⟨a, ha, -⟩ := hd'; cases ha
    | _ => cases hd'
  | _ =>
    obtain rfl := hd
    cases d' with
    | array items => obtain ⟨a, ha, -⟩ := hd'; cases ha
    | object members => obtain ⟨o, ho, -⟩ := hd'; cases ho
    | _ => rfl

/-- Two lists of trees that are shown by the same values have the same height. -/
theorem itemsHeight_eq {items items' : List Data} {vs : List Value} (hi : itemsShownBy h items vs)
    (hi' : itemsShownBy h items' vs) : itemsHeight items = itemsHeight items' := by
  cases items with
  | nil =>
    obtain rfl := hi
    cases items' with
    | nil => rfl
    | cons d rest => obtain ⟨v, more, hvs, -⟩ := hi'; cases hvs
  | cons d rest =>
    obtain ⟨v, more, rfl, hd, hrest⟩ := hi
    cases items' with
    | nil => cases hi'
    | cons d' rest' =>
      obtain ⟨v', more', hvs, hd', hrest'⟩ := hi'
      obtain ⟨rfl, rfl⟩ := List.cons.inj hvs
      change max _ _ = max _ _
      rw [hd.height_eq hd', itemsHeight_eq hrest hrest']

theorem membersHeight_eq {members members' : List (String × Data)} {es : List (String × Value)}
    (hm : membersShownBy h members es) (hm' : membersShownBy h members' es) :
    membersHeight members = membersHeight members' := by
  cases members with
  | nil =>
    obtain rfl := hm
    cases members' with
    | nil => rfl
    | cons m rest => obtain ⟨v, more, hes, -⟩ := hm'; cases hes
  | cons m rest =>
    obtain ⟨v, more, rfl, hd, hrest⟩ := hm
    cases members' with
    | nil => cases hm'
    | cons m' rest' =>
      obtain ⟨v', more', hes, hd', hrest'⟩ := hm'
      obtain ⟨hentry, rfl⟩ := List.cons.inj hes
      obtain ⟨-, rfl⟩ := Prod.mk.inj hentry
      change max _ _ = max _ _
      rw [hd.height_eq hd', membersHeight_eq hrest hrest']

end

end Data

def Container.value : Container → Value
  | .array a => .array a
  | .object o => .object o

/-- Every container around shows a tree that is higher than `n`. -/
def Heap.Encloses (h : Heap) (around : List Container) (n : Nat) : Prop :=
  ∀ c ∈ around, ∃ d : Data, d.ShownBy h c.value ∧ n < d.height

namespace Heap.Encloses

variable {h : Heap} {around : List Container} {n : Nat}

theorem nil (h : Heap) (n : Nat) : h.Encloses [] n := fun _ hc => absurd hc List.not_mem_nil

theorem mono (he : h.Encloses around n) {n' : Nat} (hn : n' ≤ n) : h.Encloses around n' := by
  intro c hc
  obtain ⟨d, hd, hlt⟩ := he c hc
  exact ⟨d, hd, Nat.lt_of_le_of_lt hn hlt⟩

/-- A container is not met again inside of itself. -/
theorem not_contains {d : Data} (he : h.Encloses around d.height) {c : Container}
    (hd : d.ShownBy h c.value) : around.contains c = false := by
  rw [Bool.eq_false_iff]
  intro hmem
  obtain ⟨d', hd', hlt⟩ := he c (List.contains_iff_mem.mp hmem)
  -- Around itself, it would show trees of two heights.
  rw [hd.height_eq hd'] at hlt
  exact Nat.lt_irrefl _ hlt

/-- A container encloses what it contains, and so does all that is around it. -/
theorem cons {d : Data} (he : h.Encloses around d.height) {c : Container} (hd : d.ShownBy h c.value)
    (hlt : n < d.height) : h.Encloses (c :: around) n := by
  intro c' hc'
  obtain rfl | hc' := List.mem_cons.mp hc'
  · exact ⟨d, hd, hlt⟩
  · obtain ⟨d', hd', hlt'⟩ := he c' hc'
    exact ⟨d', hd', Nat.lt_trans hlt hlt'⟩

end Heap.Encloses

end Snippet.Script
