import Snippet.Proofs.Part
import Snippet.Script.Program

/-!
Which functions of a script the values of a run hold. A value, an object or a heap holds the functions of
a class when every function of the script in it belongs to the class; the operations on the heap keep that.
-/

namespace Snippet.Script

def Any {α : Type} (_ : α) : Prop := True

/-- Every function of the script that is in a function belongs to the class `Q`. -/
def Function.Holds (Q : Func → Prop) : Function → Prop
  | .closure f _ => Q f
  | .classDef c _ => ∀ f ∈ c.functions, Q f
  | _ => True

/-- Every function of the script that is in a value belongs to the class `Q`. -/
def Value.Holds (Q : Func → Prop) : Value → Prop
  | .function f _ => f.Holds Q
  | _ => True

/-- Every element of a list holds functions of `Q` only. -/
def AllHold (Q : Func → Prop) (vs : List Value) : Prop := ∀ v ∈ vs, v.Holds Q

/-- Every function of the script that is in an object belongs to the class `Q`. -/
def Object.Holds (Q : Func → Prop) (o : Object) : Prop :=
  (∀ e ∈ o.entries, e.2.Holds Q) ∧ ∀ e ∈ o.hidden, e.2.Holds Q

/-- Every function of the script that is in a heap belongs to the class `Q`. -/
structure Heap.Holds (Q : Func → Prop) (h : Heap) : Prop where
  scopes : ∀ s ∈ h.scopes, ∀ b ∈ s.bindings, b.2.value.Holds Q
  arrays : ∀ xs ∈ h.arrays, ∀ v ∈ xs, v.Holds Q
  objects : ∀ o ∈ h.objects, o.Holds Q

/-- Every function of the script that is in a timer belongs to the class `Q`. -/
def Timer.Holds (Q : Func → Prop) (t : Timer) : Prop :=
  t.callback.Holds Q ∧ ∀ v ∈ t.arguments, v.Holds Q

/-- Every function of the script that is in a state belongs to the class `Q`. -/
structure Machine.Holds (Q : Func → Prop) (m : Machine) : Prop where
  heap : m.heap.Holds Q
  timers : ∀ t ∈ m.timers.pending, t.Holds Q

variable {Q : Func → Prop}

@[simp] theorem holds_undefined : Value.undefined.Holds Q := trivial

@[simp] theorem holds_array (a : ArrayRef) : (Value.array a).Holds Q := trivial

/-- A value that is no function holds no function. -/
theorem holds_of_not_function {v : Value} (hv : v.isFunction = false) : v.Holds Q := by
  cases v with
  | function f i => simp [Value.isFunction] at hv
  | _ => trivial

/-- The member at a place of a list, or a value in its stead. -/
theorem holds_getD {xs : List Value} (hx : ∀ v ∈ xs, v.Holds Q) (i : Nat) {d : Value}
    (hd : d.Holds Q) : (xs.getD i d).Holds Q := by
  rw [List.getD_eq_getElem?_getD]
  cases h : xs[i]? with
  | none => exact hd
  | some v => exact hx v (List.mem_of_getElem? h)

theorem holds_headD {xs : List Value} (hx : ∀ v ∈ xs, v.Holds Q) :
    (xs.headD .undefined).Holds Q := by
  cases xs with
  | nil => trivial
  | cons v rest => exact hx v List.mem_cons_self

theorem holds_tail {xs : List Value} (hx : ∀ v ∈ xs, v.Holds Q) : ∀ v ∈ xs.tail, v.Holds Q :=
  fun v hv => hx v (List.mem_of_mem_tail hv)

theorem holds_array_getD {xs : Array Value} (hx : ∀ v ∈ xs, v.Holds Q) (i : Nat) :
    (xs.getD i .undefined).Holds Q := by
  rw [Array.getD_eq_getD_getElem?]
  cases h : xs[i]? with
  | none => trivial
  | some v => exact hx v (Array.mem_of_getElem? h)

/-- A change of one cell keeps what is true of all cells. -/
theorem forall_mem_modify {α : Type} {P : α → Prop} {xs : Array α} (hx : ∀ x ∈ xs, P x)
    (i : Nat) {f : α → α} (hf : ∀ x, P x → P (f x)) : ∀ x ∈ xs.modify i f, P x := by
  intro x hm
  obtain ⟨j, hj, rfl⟩ := Array.mem_iff_getElem.mp hm
  rw [Array.getElem_modify]
  have hj' : j < xs.size := by simpa using hj
  have hP : P xs[j] := hx _ (Array.getElem_mem hj')
  split
  · exact hf _ hP
  · exact hP

/-- A part of an array has no other elements than the array. -/
theorem mem_of_mem_extract {α : Type} {xs : Array α} {i j : Nat} {x : α}
    (h : x ∈ xs.extract i j) : x ∈ xs := by
  obtain ⟨k, hk, rfl⟩ := Array.mem_extract_iff_getElem.mp h
  exact Array.getElem_mem _

/-- Whatever is found under a key is one of the entries. -/
theorem mem_of_lookup {α : Type} {key : String} {a : α} {xs : List (String × α)}
    (h : xs.lookup key = some a) : ∃ k, (k, a) ∈ xs := by
  induction xs with
  | nil => simp at h
  | cons e rest ih =>
    obtain ⟨k, b⟩ := e
    rw [List.lookup_cons] at h
    split at h
    · obtain rfl := Option.some.inj h
      exact ⟨k, List.mem_cons_self⟩
    · obtain ⟨k', hk⟩ := ih h
      exact ⟨k', List.mem_cons_of_mem _ hk⟩

theorem allHold_nil : AllHold Q [] := fun _ hv => absurd hv List.not_mem_nil

theorem allHold_cons {v : Value} {vs : List Value} (hv : v.Holds Q) (hvs : AllHold Q vs) :
    AllHold Q (v :: vs) := by
  intro w hw
  obtain rfl | hw := List.mem_cons.mp hw
  · exact hv
  · exact hvs w hw

theorem allHold_append {vs ws : List Value} (hv : AllHold Q vs) (hw : AllHold Q ws) :
    AllHold Q (vs ++ ws) := by
  intro v h
  obtain h | h := List.mem_append.mp h
  · exact hv v h
  · exact hw v h

theorem allHold_reverse {vs : List Value} (hv : AllHold Q vs) : AllHold Q vs.reverse :=
  fun v h => hv v (List.mem_reverse.mp h)

theorem allHold_toList {xs : Array Value} (hx : ∀ v ∈ xs, v.Holds Q) : AllHold Q xs.toList :=
  fun v h => hx v (Array.mem_toList_iff.mp h)

theorem allHold_drop {vs : List Value} (hv : AllHold Q vs) (n : Nat) : AllHold Q (vs.drop n) :=
  fun v h => hv v (List.mem_of_mem_drop h)

theorem allHold_replicate (n : Nat) {v : Value} (hv : v.Holds Q) :
    AllHold Q (List.replicate n v) := by
  intro w hw
  obtain rfl := (List.mem_replicate.mp hw).2
  exact hv

theorem allHold_of_map {α : Type} {make : α → Value} (hmake : ∀ a, (make a).isFunction = false)
    (xs : List α) : AllHold Q (xs.map make) := by
  intro v hv
  obtain ⟨a, -, rfl⟩ := List.mem_map.mp hv
  exact holds_of_not_function (hmake a)

theorem holds_argument {vs : List Value} (hv : AllHold Q vs) (i : Nat) :
    (Run.argument vs i).Holds Q :=
  holds_getD hv i holds_undefined

theorem holds_of_mem_append {xs ys : Array Value} (hx : ∀ v ∈ xs, v.Holds Q)
    (hy : ∀ v ∈ ys, v.Holds Q) : ∀ v ∈ xs ++ ys, v.Holds Q := by
  intro v hv
  obtain hv | hv := Array.mem_append.mp hv
  · exact hx v hv
  · exact hy v hv

namespace Object

/-- What a property holds is among what the object holds. -/
theorem holds_get? {o : Object} (ho : o.Holds Q) {key : String} {v : Value}
    (h : o.get? key = some v) : v.Holds Q := by
  unfold get? at h
  split at h
  · rename_i w hw
    obtain rfl := Option.some.inj h
    obtain ⟨k, hk⟩ := mem_of_lookup hw
    exact ho.1 _ hk
  · obtain ⟨k, hk⟩ := mem_of_lookup h
    exact ho.2 _ hk

/-- An entry that is put into a list holds what is put, and the others what they held. -/
theorem holds_putEntry {key : String} {v : Value} (hv : v.Holds Q)
    {es : List (String × Value)} (he : ∀ e ∈ es, e.2.Holds Q) :
    ∀ e ∈ putEntry key v es, e.2.Holds Q := by
  induction es with
  | nil =>
    intro e hm
    obtain rfl := List.mem_singleton.mp hm
    exact hv
  | cons e rest ih =>
    obtain ⟨k, w⟩ := e
    have hrest := ih fun e hm => he e (List.mem_cons_of_mem _ hm)
    unfold putEntry
    split
    · intro e hm
      obtain rfl | hm := List.mem_cons.mp hm
      · exact hv
      · exact he e (List.mem_cons_of_mem _ hm)
    · intro e hm
      obtain rfl | hm := List.mem_cons.mp hm
      · exact he _ List.mem_cons_self
      · exact hrest e hm

theorem holds_set {o : Object} (ho : o.Holds Q) (key : String) {v : Value} (hv : v.Holds Q) :
    (o.set key v).Holds Q := by
  unfold set
  split
  · exact ⟨holds_putEntry hv ho.1, ho.2⟩
  · split
    · exact ⟨ho.1, holds_putEntry hv ho.2⟩
    · refine ⟨?_, ho.2⟩
      intro e hm
      obtain hm | hm := List.mem_append.mp hm
      · exact ho.1 e hm
      · obtain rfl := List.mem_singleton.mp hm
        exact hv

theorem holds_remove {o : Object} (ho : o.Holds Q) (key : String) : (o.remove key).Holds Q :=
  ⟨fun e hm => ho.1 e (List.mem_filter.mp hm).1, ho.2⟩

theorem holds_empty : ({} : Object).Holds Q := by
  constructor <;> intro e hm <;> simp at hm

theorem holds_error (kind : ErrorKind) (message : String) :
    (Object.error kind message).Holds Q := by
  constructor <;> intro e hm
  · simp [Object.error] at hm
  · simp only [Object.error, List.mem_cons, List.not_mem_nil, or_false] at hm
    obtain rfl | rfl := hm <;> trivial

end Object

namespace Heap

theorem holds_items {h : Heap} (hh : h.Holds Q) (a : ArrayRef) : ∀ v ∈ h.items a, v.Holds Q := by
  unfold items
  rw [Array.getD_eq_getD_getElem?]
  cases hg : h.arrays[a.address]? with
  | none => intro v hv; simp at hv
  | some xs => exact hh.arrays xs (Array.mem_of_getElem? hg)

theorem holds_object {h : Heap} (hh : h.Holds Q) (o : ObjectRef) : (h.object o).Holds Q := by
  unfold object
  rw [Array.getD_eq_getD_getElem?]
  cases hg : h.objects[o.address]? with
  | none => exact Object.holds_empty
  | some object => exact hh.objects object (Array.mem_of_getElem? hg)

theorem holds_scope {h : Heap} (hh : h.Holds Q) (s : ScopeRef) :
    ∀ b ∈ (h.scope s).bindings, b.2.value.Holds Q := by
  unfold scope
  rw [Array.getD_eq_getD_getElem?]
  cases hg : h.scopes[s.address]? with
  | none => intro b hb; simp at hb
  | some scope => exact hh.scopes scope (Array.mem_of_getElem? hg)

theorem holds_modifyItems {h : Heap} (hh : h.Holds Q) (a : ArrayRef)
    {f : Array Value → Array Value}
    (hf : ∀ xs : Array Value, (∀ v ∈ xs, v.Holds Q) → ∀ v ∈ f xs, v.Holds Q) :
    (h.modifyItems a f).Holds Q :=
  ⟨hh.scopes, forall_mem_modify hh.arrays a.address hf, hh.objects⟩

theorem holds_modifyObject {h : Heap} (hh : h.Holds Q) (o : ObjectRef) {f : Object → Object}
    (hf : ∀ object : Object, object.Holds Q → (f object).Holds Q) :
    (h.modifyObject o f).Holds Q :=
  ⟨hh.scopes, hh.arrays, forall_mem_modify hh.objects o.address hf⟩

/-- A binding that is put into a scope holds what is put, and the others what they held. -/
theorem holds_put {name : String} {binding : Binding} (hb : binding.value.Holds Q)
    {bs bs' : List (String × Binding)} (h : Scope.put name binding bs = some bs')
    (hs : ∀ b ∈ bs, b.2.value.Holds Q) : ∀ b ∈ bs', b.2.value.Holds Q := by
  induction bs generalizing bs' with
  | nil => simp [Scope.put] at h
  | cons e rest ih =>
    obtain ⟨k, b⟩ := e
    have hrest : ∀ b ∈ rest, b.2.value.Holds Q := fun b hm => hs b (List.mem_cons_of_mem _ hm)
    unfold Scope.put at h
    split at h
    · obtain rfl := Option.some.inj h
      intro e hm
      obtain rfl | hm := List.mem_cons.mp hm
      · exact hb
      · exact hrest e hm
    · obtain ⟨rest', hr, rfl⟩ := Option.map_eq_some_iff.mp h
      intro e hm
      obtain rfl | hm := List.mem_cons.mp hm
      · exact hs _ List.mem_cons_self
      · exact ih hr hrest e hm

/-- A declared name holds what is declared. -/
theorem holds_declare {h : Heap} (hh : h.Holds Q) (s : ScopeRef) (name : String)
    {binding : Binding} (hb : binding.value.Holds Q) : (h.declare s name binding).Holds Q := by
  have hdeclare (scope : Scope) (hscope : ∀ b ∈ scope.bindings, b.2.value.Holds Q) :
      ∀ b ∈ (scope.declare name binding).bindings, b.2.value.Holds Q := by
    unfold Scope.declare
    split
    · rename_i bs hput
      exact holds_put hb hput hscope
    · intro e hm
      obtain rfl | hm := List.mem_cons.mp hm
      · exact hb
      · exact hscope e hm
  exact ⟨forall_mem_modify hh.scopes s.address hdeclare, hh.arrays, hh.objects⟩

/-- Looking up through the scopes finds only what one of them holds. -/
theorem holds_resolveWithin? {h : Heap} (hh : h.Holds Q) {name : String} {fuel : Nat}
    {s owner : ScopeRef} {binding : Binding}
    (hr : h.resolveWithin? name fuel s = some (owner, binding)) : binding.value.Holds Q := by
  induction fuel generalizing s with
  | zero => simp [resolveWithin?] at hr
  | succ fuel ih =>
    simp only [resolveWithin?] at hr
    split at hr
    · rename_i b hb
      obtain ⟨rfl, rfl⟩ := Prod.mk.inj (Option.some.inj hr)
      obtain ⟨k, hk⟩ := mem_of_lookup hb
      exact holds_scope hh s _ hk
    · split at hr
      · exact ih hr
      · simp at hr

theorem holds_lookup? {h : Heap} (hh : h.Holds Q) {s : ScopeRef} {name : String} {v : Value}
    (hl : h.lookup? s name = some v) : v.Holds Q := by
  obtain ⟨⟨owner, binding⟩, hr, rfl⟩ := Option.map_eq_some_iff.mp hl
  unfold resolve? at hr
  cases hfound : h.resolveWithin? name (s.address + 1) s with
  | some found =>
    rw [hfound] at hr
    cases hr
    exact holds_resolveWithin? hh hfound
  | none =>
    rw [hfound] at hr
    obtain ⟨b, hb, heq⟩ := Option.map_eq_some_iff.mp hr
    cases heq
    obtain ⟨k, hk⟩ := mem_of_lookup hb
    exact holds_scope hh globalScope _ hk

end Heap

-- Nothing is asked of what a state holds where the class is that of all functions.

theorem Function.holds_any (f : Function) : f.Holds Any := by
  cases f with
  | closure f scope => trivial
  | classDef c scope => exact fun _ _ => trivial
  | _ => trivial

theorem Value.holds_any (v : Value) : v.Holds Any := by
  cases v with
  | function f identity => exact f.holds_any
  | _ => trivial

theorem Machine.holds_any (m : Machine) : m.Holds Any where
  heap :=
    { scopes := fun _ _ _ _ => Value.holds_any _
      arrays := fun _ _ _ _ => Value.holds_any _
      objects := fun _ _ => ⟨fun _ _ => Value.holds_any _, fun _ _ => Value.holds_any _⟩ }
  timers := fun _ _ => ⟨Value.holds_any _, fun _ _ => Value.holds_any _⟩

/-- A run begins with built-in functions only. -/
theorem Machine.holds_start (stdin : String) (n : Nat) : (Machine.start stdin n).Holds Q where
  heap :=
    { scopes := by
        intro s hs b hb
        obtain rfl := Array.mem_singleton.mp hs
        obtain ⟨⟨name, v⟩, hv, rfl⟩ := List.mem_map.mp hb
        obtain hv | hv := List.mem_append.mp hv
        · obtain ⟨⟨b, i⟩, -, heq⟩ := List.mem_map.mp hv
          obtain ⟨-, rfl⟩ := Prod.mk.inj heq
          trivial
        · simp only [List.mem_cons, List.not_mem_nil, or_false, Prod.mk.injEq] at hv
          obtain ⟨-, rfl⟩ | ⟨-, rfl⟩ := hv <;> trivial
      arrays := fun _ hx => absurd hx (Array.not_mem_empty _)
      objects := fun _ hx => absurd hx (Array.not_mem_empty _) }
  timers := fun _ ht => absurd ht List.not_mem_nil

end Snippet.Script
